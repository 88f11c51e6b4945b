import WatchingZenoh.DeferredFire

/-! The order of a cell's calls. The tickets that are held, the threads on their way and the calls that
are parked are, together, the numbers whose turn is still to come; below them every call was taken, in
order and by the one thread that had the callback. -/

namespace WatchingZenoh.DeferredFire

variable {F : Type}

/-- The call a runner is in, if it runs code of the listener. -/
def Runner.current : Runner F → List ℕ
  | .mine number _ _ => [number]
  | .serving number call _ => if call.real then [number] else []
  | .loop _ => []

def serialLog (numbers : List ℕ) : List Event := numbers.flatMap fun k => [.began k, .ended k]

theorem serialLog_concat (numbers : List ℕ) (k : ℕ) :
    serialLog (numbers ++ [k]) = serialLog numbers ++ [.began k, .ended k] := by
  simp [serialLog]

/-- What the first `k` tickets' calls make of the callback. -/
def applied (used : ℕ → Option (Call F)) (callback : F) (k : ℕ) : F :=
  (List.range k).foldl (fun value number => ((used number).map Call.effect).getD id value) callback

theorem applied_succ {used : ℕ → Option (Call F)} {callback : F} {k : ℕ} {call : Call F}
    (h : used k = some call) :
    applied used callback (k + 1) = call.effect (applied used callback k) := by
  rw [applied, List.range_succ, List.foldl_append]
  simp only [List.foldl_cons, List.foldl_nil, h, Option.map_some, Option.getD_some]
  rfl

theorem applied_congr {used used' : ℕ → Option (Call F)} {callback : F} {k : ℕ}
    (h : ∀ number < k, used' number = used number) :
    applied used' callback k = applied used callback k := by
  induction k with
  | zero => rfl
  | succ k ih =>
    have hrest := ih fun number hlt => h number (by omega)
    rw [applied, applied] at hrest
    rw [applied, applied, List.range_succ, List.foldl_append, List.foldl_append, hrest]
    simp only [List.foldl_cons, List.foldl_nil]
    rw [h k (by omega)]

namespace System

def current (s : System F) : List ℕ := s.runners.flatMap Runner.current

/-- The ticket was used for a call that runs code of the listener. -/
def isCall (s : System F) (number : ℕ) : Bool := (s.used number).any Call.real

end System

/-- The calls that began are those of the first `m` tickets, in order; all but the running one ended
before the next began. -/
structure Ordered (s : System F) (m : ℕ) (done : List ℕ) : Prop where
  bound : m ≤ s.cell.issued
  begun : done ++ s.current = (List.range m).filter s.isCall
  log : s.log = serialLog done ++ s.current.map Event.began
  held : ∀ number ∈ s.held, m ≤ number ∧ number < s.cell.issued

inductive Holder (callback : F) (m : ℕ) (used : ℕ → Option (Call F)) (cell : CellState F)
    (runners : List (Runner F)) : Prop
  | rest (hrunners : runners = []) (hcallback : cell.callback = some (applied used callback m))
      (hnext : cell.next = m) (hparked : cell.parkedAt m = none)
  | loop (hrunners : runners = [.loop (applied used callback m)]) (hcallback : cell.callback = none)
      (hnext : cell.next = m)
  | mine (number : ℕ) (f : F → F) (hrunners : runners = [.mine number f (applied used callback number)])
      (hcallback : cell.callback = none) (hnext : cell.next = number) (hm : m = number + 1)
      (hused : used number = some (.plain f))
  | serving (number : ℕ) (call : Call F)
      (hrunners : runners = [.serving number call (applied used callback number)])
      (hcallback : cell.callback = none) (hnext : cell.next = number + 1) (hm : m = number + 1)
      (hused : used number = some call)

theorem Holder.congr {callback : F} {m : ℕ} {used used' : ℕ → Option (Call F)} {c c' : CellState F}
    {runners : List (Runner F)} (h : Holder callback m used c runners)
    (hcallback : c'.callback = c.callback) (hnext : c'.next = c.next) (hparked : c'.parked = c.parked)
    (hused : ∀ number < m, used' number = used number) : Holder callback m used' c' runners := by
  cases h with
  | rest hrunners hrest hturn hnone =>
    refine .rest hrunners ?_ (hnext.trans hturn) ?_
    · rw [hcallback, hrest, applied_congr hused]
    · rw [CellState.parkedAt, hparked]
      exact hnone
  | loop hrunners hout hturn =>
    refine .loop ?_ (hcallback.trans hout) (hnext.trans hturn)
    rw [hrunners, applied_congr hused]
  | mine number f hrunners hout hturn hm hcall =>
    refine .mine number f ?_ (hcallback.trans hout) (hnext.trans hturn) hm ?_
    · rw [hrunners, applied_congr fun k hk => hused k (by omega)]
    · rw [hused number (by omega), hcall]
  | serving number call hrunners hout hturn hm hcall =>
    refine .serving number call ?_ (hcallback.trans hout) (hnext.trans hturn) hm ?_
    · rw [hrunners, applied_congr fun k hk => hused k (by omega)]
    · rw [hused number (by omega), hcall]

theorem Holder.out {callback : F} {m : ℕ} {used : ℕ → Option (Call F)} {c c' : CellState F}
    {runners : List (Runner F)} (h : Holder callback m used c runners) (hout : c.callback = none)
    (hnext : c'.next = c.next) (hout' : c'.callback = none) : Holder callback m used c' runners := by
  cases h with
  | rest hrunners hrest hturn hnone =>
    rw [hout] at hrest
    cases hrest
  | loop hrunners hnone hturn => exact .loop hrunners hout' (hnext.trans hturn)
  | mine number f hrunners hnone hturn hm hcall =>
    exact .mine number f hrunners hout' (hnext.trans hturn) hm hcall
  | serving number call hrunners hnone hturn hm hcall =>
    exact .serving number call hrunners hout' (hnext.trans hturn) hm hcall

theorem Holder.at_rest {callback slot : F} {m : ℕ} {used : ℕ → Option (Call F)} {c : CellState F}
    {runners : List (Runner F)} (h : Holder callback m used c runners) (hslot : c.callback = some slot) :
    runners = [] ∧ slot = applied used callback m ∧ c.next = m := by
  cases h with
  | rest hrunners hrest hturn hnone =>
    rw [hslot, Option.some.injEq] at hrest
    exact ⟨hrunners, hrest, hturn⟩
  | loop hrunners hnone hturn =>
    rw [hslot] at hnone
    cases hnone
  | mine number f hrunners hnone hturn hm hcall =>
    rw [hslot] at hnone
    cases hnone
  | serving number call hrunners hnone hturn hm hcall =>
    rw [hslot] at hnone
    cases hnone

structure Live (callback : F) (s : System F) (m : ℕ) : Prop where
  dead : s.cell.dead = false
  places : (s.held ++ s.arriving.map Arrival.number ++ s.cell.parked.map Prod.fst).Perm
    (List.range' m (s.cell.issued - m))
  arriving : ∀ a ∈ s.arriving, s.used a.number = some a.made
  parked : ∀ p ∈ s.cell.parked, s.used p.1 = some p.2
  used : ∀ number < m, (s.used number).isSome
  holder : Holder callback m s.used s.cell s.runners

structure Dead (s : System F) : Prop where
  dead : s.cell.dead = true
  parked : s.cell.parked = []
  callback : s.cell.callback = none
  runners : s.runners.length ≤ 1

/-- A cell that is dead was killed, or the last call that began ended it. -/
def Closed (s : System F) (m : ℕ) (past : List (Op F)) : Prop :=
  Op.kill ∈ past ∨ ∃ number f, m = number + 1 ∧ s.used number = some (.last f)

def Inv (callback : F) (past : List (Op F)) (s : System F) : Prop :=
  ∃ m done, Ordered s m done ∧ (Live callback s m ∨ Dead s ∧ Closed s m past)

theorem Live.nodup {callback : F} {s : System F} {m : ℕ} (h : Live callback s m) :
    (s.held ++ s.arriving.map Arrival.number ++ s.cell.parked.map Prod.fst).Nodup :=
  h.places.nodup_iff.mpr List.nodup_range'

theorem Live.bounds {callback : F} {s : System F} {m number : ℕ} (h : Live callback s m)
    (hmem : number ∈ s.held ++ s.arriving.map Arrival.number ++ s.cell.parked.map Prod.fst) :
    m ≤ number ∧ number < s.cell.issued := by
  rw [h.places.mem_iff, List.mem_range'_1] at hmem
  omega

section Steps

variable {callback : F} {past : List (Op F)} {s : System F} {m : ℕ} {done : List ℕ}

theorem Inv.ticket (h : Inv callback past s) : Inv callback (past ++ [.ticket]) (s.step .ticket) := by
  obtain ⟨m, done, hordered, hstate⟩ := h
  refine ⟨m, done, ⟨?_, hordered.begun, hordered.log, fun number hnumber => ?_⟩, ?_⟩
  · exact hordered.bound.trans (Nat.le_succ _)
  · rcases List.mem_append.mp hnumber with hold | hnew
    · obtain ⟨hle, hlt⟩ := hordered.held number hold
      exact ⟨hle, Nat.lt_succ_of_lt hlt⟩
    · rw [List.mem_singleton] at hnew
      subst hnew
      exact ⟨hordered.bound, Nat.lt_succ_self _⟩
  · rcases hstate with hlive | ⟨hdead, hclosed⟩
    · refine .inl ⟨hlive.dead, ?_, hlive.arriving, hlive.parked, hlive.used, ?_⟩
      · have hbound := hordered.bound
        have hrange : List.range' m (s.cell.issued + 1 - m) =
            List.range' m (s.cell.issued - m) ++ [s.cell.issued] := by
          have hlen : s.cell.issued + 1 - m = s.cell.issued - m + 1 := by omega
          rw [hlen, List.range'_concat]
          congr 2
          omega
        simp only [System.step]
        rw [hrange]
        refine List.perm_iff_count.mpr fun number => ?_
        have hcount := hlive.places.count_eq number
        simp only [List.count_append] at hcount ⊢
        omega
      · exact hlive.holder.congr rfl rfl rfl fun _ _ => rfl
    · refine .inr ⟨⟨hdead.dead, hdead.parked, hdead.callback, hdead.runners⟩, ?_⟩
      exact hclosed.imp (fun hkill => List.mem_append_left _ hkill) id

theorem Closed.later (h : Closed s m past) (op : Op F) {s' : System F}
    (hused : ∀ number < m, s'.used number = s.used number) : Closed s' m (past ++ [op]) := by
  refine h.imp (fun hkill => List.mem_append_left _ hkill) ?_
  rintro ⟨number, f, hm, hlast⟩
  exact ⟨number, f, hm, by rw [hused number (by omega), hlast]⟩

theorem isCall_filter {s' : System F} (hused : ∀ number < m, s'.used number = s.used number) :
    (List.range m).filter s'.isCall = (List.range m).filter s.isCall := by
  refine List.filter_congr fun number hnumber => ?_
  rw [System.isCall, System.isCall, hused number (List.mem_range.mp hnumber)]

theorem Inv.use (h : Inv callback past s) {number : ℕ} {call : Call F} {a : Arrival F}
    (hnumber : a.number = number) (hmade : a.made = call) (op : Op F) :
    Inv callback (past ++ [op]) (s.use number call a) := by
  obtain ⟨m, done, hordered, hstate⟩ := h
  by_cases hheld : number ∈ s.held
  · rw [System.use, if_pos hheld]
    have hle := (hordered.held number hheld).1
    have hused : ∀ k < m, (if k = number then some call else s.used k) = s.used k :=
      fun k hk => if_neg (by omega)
    refine ⟨m, done, ⟨hordered.bound, ?_, hordered.log, fun k hk => ?_⟩, ?_⟩
    · rw [isCall_filter (s := s) hused]
      exact hordered.begun
    · exact hordered.held k (List.mem_of_mem_erase hk)
    · rcases hstate with hlive | ⟨hdead, hclosed⟩
      · obtain ⟨hheldNodup, hrest⟩ := List.nodup_append.mp (List.append_assoc .. ▸ hlive.nodup)
        have hfresh : ∀ k ∈ s.arriving.map Arrival.number ++ s.cell.parked.map Prod.fst, k ≠ number :=
          fun k hk heq => hrest.2 number hheld k hk heq.symm
        refine .inl ⟨hlive.dead, ?_, fun a ha => ?_, fun p hp => ?_, fun k hk => ?_,
          hlive.holder.congr rfl rfl rfl hused⟩
        · refine List.perm_iff_count.mpr fun k => ?_
          have hcount := hlive.places.count_eq k
          have herase := (List.perm_cons_erase hheld).count_eq k
          simp only [List.count_append, List.map_append, List.map_cons, List.map_nil,
            List.count_cons, List.count_nil, hnumber] at hcount herase ⊢
          omega
        · rcases List.mem_append.mp ha with hold | hnew
          · have hne := hfresh a.number (List.mem_append_left _ (List.mem_map_of_mem hold))
            simp only [if_neg hne]
            exact hlive.arriving a hold
          · rw [List.mem_singleton] at hnew
            subst hnew
            simp only [hnumber, if_true, hmade]
        · have hne := hfresh p.1 (List.mem_append_right _ (List.mem_map_of_mem hp))
          simp only [if_neg hne]
          exact hlive.parked p hp
        · simp only [hused k hk]
          exact hlive.used k hk
      · exact .inr ⟨⟨hdead.dead, hdead.parked, hdead.callback, hdead.runners⟩, hclosed.later op hused⟩
  · rw [System.use, if_neg hheld]
    refine ⟨m, done, hordered, hstate.imp id ?_⟩
    rintro ⟨hdead, hclosed⟩
    exact ⟨hdead, hclosed.later op fun _ _ => rfl⟩

theorem Holder.runners_le {used : ℕ → Option (Call F)} {cell : CellState F}
    {runners : List (Runner F)} (h : Holder callback m used cell runners) : runners.length ≤ 1 := by
  cases h with
  | rest hrunners => simp [hrunners]
  | loop hrunners => simp [hrunners]
  | mine number f hrunners => simp [hrunners]
  | serving number call hrunners => simp [hrunners]

theorem Inv.kill (h : Inv callback past s) : Inv callback (past ++ [.kill]) (s.step .kill) := by
  obtain ⟨m, done, hordered, hstate⟩ := h
  refine ⟨m, done, ⟨hordered.bound, hordered.begun, hordered.log, hordered.held⟩,
    .inr ⟨⟨rfl, rfl, rfl, ?_⟩, .inl (by simp)⟩⟩
  rcases hstate with hlive | ⟨hdead, -⟩
  · exact hlive.holder.runners_le
  · exact hdead.runners

theorem count_arriving {i : ℕ} {a : Arrival F} (h : s.arriving[i]? = some a) (number : ℕ) :
    (s.arriving.map Arrival.number).count number =
      ((s.arriving.eraseIdx i).map Arrival.number).count number + [a.number].count number := by
  obtain ⟨hlt, hget⟩ := List.getElem?_eq_some_iff.mp h
  have hperm := (List.getElem_cons_eraseIdx_perm hlt).map Arrival.number
  rw [hget, List.map_cons] at hperm
  have hcount := hperm.count_eq number
  rw [← List.singleton_append, List.count_append, Nat.add_comm] at hcount
  exact hcount.symm

theorem Live.arriving_fresh (h : Live callback s m) {i : ℕ} {a : Arrival F}
    (ha : s.arriving[i]? = some a) :
    m ≤ a.number ∧ a.number ∉ s.held ∧ (∀ p ∈ s.cell.parked, p.1 ≠ a.number) := by
  have hmem : a.number ∈ s.arriving.map Arrival.number :=
    List.mem_map_of_mem (List.mem_of_getElem? ha)
  have hnodup := h.nodup
  rw [List.nodup_append, List.nodup_append] at hnodup
  refine ⟨?_, fun hheld => ?_, fun p hp heq => ?_⟩
  · exact (h.bounds (List.mem_append_left _ (List.mem_append_right _ hmem))).1
  · exact hnodup.1.2.2 _ hheld _ hmem rfl
  · exact hnodup.2.2 _ (List.mem_append_right _ hmem) p.1 (List.mem_map_of_mem hp) heq.symm

theorem Inv.dead_arrive (h : Inv callback past s) (hdead : s.cell.dead = true) (op : Op F)
    (arriving : List (Arrival F)) : Inv callback (past ++ [op]) { s with arriving := arriving } := by
  obtain ⟨m, done, hordered, hstate⟩ := h
  refine ⟨m, done, ⟨hordered.bound, hordered.begun, hordered.log, hordered.held⟩, .inr ?_⟩
  rcases hstate with hlive | ⟨hstopped, hclosed⟩
  · rw [hlive.dead] at hdead
    cases hdead
  · exact ⟨⟨hstopped.dead, hstopped.parked, hstopped.callback, hstopped.runners⟩,
      hclosed.later op fun _ _ => rfl⟩

structure SameTickets (s s' : System F) : Prop where
  issued : s'.cell.issued = s.cell.issued
  held : s'.held = s.held
  used : s'.used = s.used

theorem Ordered.same {s' : System F} (h : Ordered s m done) (hsame : SameTickets s s')
    (hcurrent : s'.current = s.current) (hlog : s'.log = s.log) : Ordered s' m done := by
  refine ⟨?_, ?_, ?_, ?_⟩
  · rw [hsame.issued]
    exact h.bound
  · rw [hcurrent, isCall_filter (s := s) fun _ _ => by rw [hsame.used]]
    exact h.begun
  · rw [hlog, hcurrent]
    exact h.log
  · rw [hsame.held, hsame.issued]
    exact h.held

theorem Ordered.begin {s' : System F} {call : Call F} (h : Ordered s m done) (hsame : SameTickets s s')
    (hidle : s.current = []) (hused : s.used m = some call) (hfresh : m ∉ s.held)
    (hissued : m < s.cell.issued) (hcurrent : s'.current = if call.real then [m] else [])
    (hlog : s'.log = s.log ++ if call.real then [.began m] else []) : Ordered s' (m + 1) done := by
  have hbegun := h.begun
  have hbefore := h.log
  rw [hidle, List.append_nil] at hbegun
  rw [hidle, List.map_nil, List.append_nil] at hbefore
  have hcall : s'.isCall m = call.real := by rw [System.isCall, hsame.used, hused, Option.any_some]
  refine ⟨?_, ?_, ?_, fun number hnumber => ?_⟩
  · rw [hsame.issued]
    exact hissued
  · rw [List.range_succ, List.filter_append, isCall_filter (s := s) fun _ _ => by rw [hsame.used],
      ← hbegun, hcurrent, List.filter_singleton, hcall]
    cases call.real <;> rfl
  · rw [hlog, hcurrent, hbefore]
    cases call.real <;> rfl
  · rw [hsame.held] at hnumber
    obtain ⟨hle, hlt⟩ := h.held number hnumber
    have hne : number ≠ m := fun heq => hfresh (heq ▸ hnumber)
    rw [hsame.issued]
    omega

theorem Ordered.finish {s' : System F} {number : ℕ} (h : Ordered s m done) (hsame : SameTickets s s')
    (hcurrent : s.current = [number]) (hidle : s'.current = [])
    (hlog : s'.log = s.log ++ [.ended number]) : Ordered s' m (done ++ [number]) := by
  refine ⟨?_, ?_, ?_, ?_⟩
  · rw [hsame.issued]
    exact h.bound
  · rw [hidle, List.append_nil, isCall_filter (s := s) fun _ _ => by rw [hsame.used], ← h.begun,
      hcurrent]
  · rw [hidle, List.map_nil, List.append_nil, serialLog_concat, hlog, h.log, hcurrent]
    simp
  · rw [hsame.held, hsame.issued]
    exact h.held

theorem range_split {issued : ℕ} (h : m < issued) :
    List.range' m (issued - m) = m :: List.range' (m + 1) (issued - (m + 1)) := by
  have hlen : issued - m = issued - (m + 1) + 1 := by omega
  rw [hlen, List.range'_succ]

theorem current_of_nil (h : s.runners = []) : s.current = [] := by
  rw [System.current, h]
  rfl

theorem Live.wait (h : Live callback s m) {i number : ℕ} {f : F → F}
    (ha : s.arriving[i]? = some (.call number f)) :
    Live callback { s with arriving := s.arriving.set i (.ticket number (.plain f)) } m := by
  refine ⟨h.dead, ?_, fun a ha' => ?_, h.parked, h.used, h.holder⟩
  · have hnumbers : (s.arriving.set i (.ticket number (.plain f))).map Arrival.number =
        s.arriving.map Arrival.number := by
      obtain ⟨hlt, hget⟩ := List.getElem?_eq_some_iff.mp ha
      have hself : (Arrival.ticket number (.plain f)).number = s.arriving[i].number := by
        rw [hget]
        rfl
      rw [List.map_set, hself, ← List.getElem_map Arrival.number (h := by simpa using hlt),
        List.set_getElem_self]
    simp only [hnumbers]
    exact h.places
  · rcases List.mem_or_eq_of_mem_set ha' with hold | rfl
    · exact h.arriving a hold
    · exact h.arriving (.call number f) (List.mem_of_getElem? ha)

theorem Live.take (h : Live callback s m) {i : ℕ} {f : F → F}
    (ha : s.arriving[i]? = some (.call m f)) (hnext : s.cell.next = m)
    (hrunners : s.runners = []) (log : List Event) :
    Live callback { s with
      cell := { s.cell with callback := none }
      arriving := s.arriving.eraseIdx i
      runners := s.runners ++ [.mine m f (applied s.used callback m)]
      log := log } (m + 1) := by
  have hused : s.used m = some (.plain f) := h.arriving _ (List.mem_of_getElem? ha)
  have hissued : m < s.cell.issued :=
    (h.bounds (List.mem_append_left _ (List.mem_append_right _
      (List.mem_map_of_mem (List.mem_of_getElem? ha))))).2
  refine ⟨h.dead, ?_, fun a ha' => h.arriving a (List.mem_of_mem_eraseIdx ha'), h.parked,
    fun number hnumber => ?_, .mine m f ?_ rfl hnext rfl hused⟩
  · refine List.perm_iff_count.mpr fun number => ?_
    have hcount := h.places.count_eq number
    have herase := count_arriving ha number
    rw [range_split hissued] at hcount
    rw [← List.singleton_append] at hcount
    simp only [List.count_append, Arrival.number] at hcount herase ⊢
    omega
  · rcases Nat.lt_succ_iff_lt_or_eq.mp hnumber with hlt | rfl
    · exact h.used number hlt
    · simp [hused]
  · simp only [hrunners]
    rfl

theorem Inv.runCall (h : Inv callback past s) {i number : ℕ} {f : F → F}
    (ha : s.arriving[i]? = some (.call number f)) (op : Op F) :
    Inv callback (past ++ [op]) (s.runCall i number f) := by
  rw [System.runCall]
  by_cases hdead : s.cell.dead = true
  · rw [if_pos hdead]
    exact h.dead_arrive hdead op _
  obtain ⟨m, done, hordered, hlive | ⟨hstopped, -⟩⟩ := h
  swap
  · exact absurd hstopped.dead hdead
  have hwait : Inv callback (past ++ [op])
      { s with arriving := s.arriving.set i (.ticket number (.plain f)) } :=
    ⟨m, done, hordered.same ⟨rfl, rfl, rfl⟩ rfl rfl, .inl (hlive.wait ha)⟩
  rw [if_neg hdead]
  by_cases hturn : s.cell.next = number
  · rw [if_pos hturn]
    cases hlive.holder with
    | rest hrunners hcallback hnext hparked =>
      obtain rfl : number = m := hturn.symm.trans hnext
      obtain ⟨-, hfresh, -⟩ := hlive.arriving_fresh ha
      have hused : s.used number = some (.plain f) := hlive.arriving _ (List.mem_of_getElem? ha)
      have hissued : number < s.cell.issued :=
        (hlive.bounds (List.mem_append_left _ (List.mem_append_right _
          (List.mem_map_of_mem (List.mem_of_getElem? ha))))).2
      rw [hcallback]
      refine ⟨number + 1, done, hordered.begin ⟨rfl, rfl, rfl⟩ (current_of_nil hrunners) hused hfresh hissued ?_ rfl,
        .inl (hlive.take ha hnext hrunners _)⟩
      simp only [System.current, hrunners]
      rfl
    | loop hrunners hcallback hnext =>
      rw [hcallback]
      exact hwait
    | mine number f hrunners hcallback hnext hm hused =>
      rw [hcallback]
      exact hwait
    | serving number call hrunners hcallback hnext hm hused =>
      rw [hcallback]
      exact hwait
  · rw [if_neg hturn]
    exact hwait

theorem parkedAt_some {cell : CellState F} {number : ℕ} {call : Call F}
    (h : cell.parkedAt number = some call) : (number, call) ∈ cell.parked := by
  rw [CellState.parkedAt, Option.map_eq_some_iff] at h
  obtain ⟨⟨k, c⟩, hfind, rfl⟩ := h
  have hk : k = number := by simpa using List.find?_some hfind
  subst hk
  exact List.mem_of_find?_eq_some hfind

theorem Live.park (h : Live callback s m) {i number : ℕ} {call : Call F}
    (ha : s.arriving[i]? = some (.ticket number call)) {runners : List (Runner F)}
    {at' : Option F}
    (hholder : Holder callback m s.used { s.cell.park number call with callback := at' } runners) :
    Live callback { s with
      cell := { s.cell.park number call with callback := at' }
      arriving := s.arriving.eraseIdx i
      runners := runners } m := by
  obtain ⟨-, -, hapart⟩ := h.arriving_fresh ha
  have hfilter : s.cell.parked.filter (·.1 ≠ number) = s.cell.parked :=
    List.filter_eq_self.mpr fun p hp => by simpa [Arrival.number] using hapart p hp
  refine ⟨h.dead, ?_, fun a ha' => h.arriving a (List.mem_of_mem_eraseIdx ha'), fun p hp => ?_,
    h.used, hholder⟩
  · refine List.perm_iff_count.mpr fun k => ?_
    have hcount := h.places.count_eq k
    have herase := count_arriving ha k
    simp only [CellState.park, hfilter, List.map_cons]
    rw [← List.singleton_append]
    simp only [List.count_append, Arrival.number] at hcount herase ⊢
    omega
  · simp only [CellState.park, hfilter] at hp
    rcases List.mem_cons.mp hp with rfl | hold
    · exact h.arriving _ (List.mem_of_getElem? ha)
    · exact h.parked p hold

theorem Inv.runTicket (h : Inv callback past s) {i number : ℕ} {call : Call F}
    (ha : s.arriving[i]? = some (.ticket number call)) (op : Op F) :
    Inv callback (past ++ [op]) (s.runTicket i number call) := by
  rw [System.runTicket]
  by_cases hdead : s.cell.dead = true
  · rw [if_pos hdead]
    exact h.dead_arrive hdead op _
  obtain ⟨m, done, hordered, hlive | ⟨hstopped, -⟩⟩ := h
  swap
  · exact absurd hstopped.dead hdead
  rw [if_neg hdead]
  have hparked : Holder callback m s.used (s.cell.park number call) s.runners →
      Inv callback (past ++ [op]) { s with
        cell := s.cell.park number call, arriving := s.arriving.eraseIdx i } :=
    fun hholder => ⟨m, done, hordered.same ⟨rfl, rfl, rfl⟩ rfl rfl, .inl (hlive.park ha hholder)⟩
  by_cases hready : ((s.cell.park number call).parkedAt (s.cell.park number call).next).isSome = true
  · rw [if_pos hready]
    cases hcallback : (s.cell.park number call).callback with
    | none => exact hparked (hlive.holder.out hcallback rfl hcallback)
    | some slot =>
      obtain ⟨hrunners, hslot, hnext⟩ := hlive.holder.at_rest hcallback
      have hidle := current_of_nil hrunners
      refine ⟨m, done, hordered.same ⟨rfl, rfl, rfl⟩ ?_ rfl, .inl (hlive.park ha (.loop ?_ rfl hnext))⟩
      · rw [hidle]
        simp only [System.current, hrunners]
        rfl
      · rw [hrunners, hslot]
        rfl
  · rw [if_neg hready]
    refine hparked ?_
    cases hcallback : s.cell.callback with
    | none => exact hlive.holder.out hcallback rfl hcallback
    | some slot =>
      obtain ⟨hrunners, hslot, hnext⟩ := hlive.holder.at_rest hcallback
      refine .rest hrunners (hslot ▸ hcallback) hnext ?_
      have hturn : (s.cell.park number call).next = m := hnext
      rw [hturn, Bool.not_eq_true, Option.isSome_eq_false_iff, Option.isNone_iff_eq_none] at hready
      exact hready

theorem Live.serve (h : Live callback s m) {call : Call F}
    (hcallback : s.cell.callback = none)
    (hparked : s.cell.parkedAt m = some call) (log : List Event) :
    Live callback { s with
      cell := { s.cell.unpark m with next := m + 1 }
      runners := [.serving m call (applied s.used callback m)]
      log := log } (m + 1) := by
  have hmem := parkedAt_some hparked
  have hused := h.parked _ hmem
  have hissued : m < s.cell.issued :=
    (h.bounds (List.mem_append_right _ (List.mem_map_of_mem (f := Prod.fst) hmem))).2
  refine ⟨h.dead, ?_, h.arriving, fun p hp => h.parked p (List.mem_of_mem_filter hp),
    fun number hnumber => ?_, .serving m call rfl hcallback rfl rfl hused⟩
  · refine List.perm_iff_count.mpr fun number => ?_
    have hcount := h.places.count_eq number
    rw [range_split hissued, ← List.singleton_append] at hcount
    have hunpark : (s.cell.parked.map Prod.fst).count number =
        ((s.cell.parked.filter (·.1 ≠ m)).map Prod.fst).count number + [m].count number := by
      have hfirst : m ∈ s.cell.parked.map Prod.fst := List.mem_map_of_mem (f := Prod.fst) hmem
      have herase : (s.cell.parked.map Prod.fst).erase m =
          (s.cell.parked.filter (·.1 ≠ m)).map Prod.fst := by
        rw [(List.nodup_append.mp h.nodup).2.1.erase_eq_filter, List.filter_map]
        congr 1
        refine List.filter_congr fun p _ => ?_
        rw [Bool.eq_iff_iff]
        simp
      have hperm := (List.perm_cons_erase hfirst).count_eq number
      rw [herase, ← List.singleton_append, List.count_append, Nat.add_comm] at hperm
      exact hperm
    simp only [CellState.unpark]
    simp only [List.count_append] at hcount ⊢
    omega
  · rcases Nat.lt_succ_iff_lt_or_eq.mp hnumber with hlt | rfl
    · exact h.used number hlt
    · simp [hused]

end Steps

end WatchingZenoh.DeferredFire
