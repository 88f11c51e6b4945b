import WatchingZenoh.Library.Words

/-! The counters of the event ring are 64-bit values kept as two 32-bit words. A writer stores the
low word and then the high one; a reader loads the high word, the low word and the high word again,
and starts over when the two high words differ. One writer and one reader are interleaved load by
load and store by store. The reader returns a value the counter held exactly as long as every store
leaves one of the two words as it was. -/

namespace WatchingZenoh.EventRing

open Words

/-- Where a call of `pair` stands: what it has loaded so far. -/
inductive Loading
  | start
  | gotHigh (high : UInt32)
  | gotLow (high low : UInt32)
  | done (value : ℕ)
  deriving DecidableEq

/-- One load of `pair`. -/
def Loading.step (lo hi : UInt32) : Loading → Loading
  | .start => .gotHigh hi
  | .gotHigh h => .gotLow h lo
  | .gotLow h l => if hi = h then .done (joined h l) else .start
  | .done v => .done v

/-- The values a writer stores one after another: the counter's first value and the ones it is given
by `store_pair`. -/
structure Stores where
  first : ℕ
  values : List ℕ
  increasing : (first :: values).Pairwise (· ≤ ·)
  fits : ∀ v ∈ first :: values, v < 2 ^ 64

/-- The two words, the value stored last, the value whose low word alone is stored, the values to come
and the reader. -/
structure Counter where
  lo : UInt32
  hi : UInt32
  current : ℕ
  storing : Option ℕ
  rest : List ℕ
  loading : Loading

inductive Party
  | writer
  | reader
  deriving DecidableEq

namespace Counter

def init (w : Stores) : Counter := ⟨low w.first, high w.first, w.first, none, w.values, .start⟩

/-- One store of `store_pair`. -/
def store (c : Counter) : Counter :=
  match c.storing with
  | some v => { c with hi := high v, current := v, storing := none }
  | none =>
    match c.rest with
    | [] => c
    | v :: rest => { c with lo := low v, storing := some v, rest := rest }

def step (c : Counter) : Party → Counter
  | .writer => c.store
  | .reader => { c with loading := c.loading.step c.lo c.hi }

def run (c : Counter) (schedule : List Party) : Counter := schedule.foldl step c

/-- The values the counter holds: the one stored last, and the one being stored. -/
def Holds (c : Counter) (v : ℕ) : Prop := v = c.current ∨ c.storing = some v

def HeldIn (c : Counter) (schedule : List Party) (v : ℕ) : Prop :=
  ∃ past, past <+: schedule ∧ (c.run past).Holds v

theorem run_snoc (c : Counter) (schedule : List Party) (p : Party) :
    c.run (schedule ++ [p]) = (c.run schedule).step p := by
  simp [run]

theorem HeldIn.snoc {c : Counter} {schedule : List Party} {v : ℕ} (h : c.HeldIn schedule v)
    (p : Party) : c.HeldIn (schedule ++ [p]) v := by
  obtain ⟨past, hpast, hv⟩ := h
  exact ⟨past, hpast.trans (List.prefix_append _ _), hv⟩

def pending (c : Counter) : List ℕ := c.storing.toList ++ c.rest

/-- What the words are between two stores of an increasing sequence. -/
structure Writes (c : Counter) : Prop where
  lo : c.lo = low (c.storing.getD c.current)
  hi : c.hi = high c.current
  increasing : (c.current :: c.pending).Pairwise (· ≤ ·)
  fits : ∀ v ∈ c.current :: c.pending, v < 2 ^ 64

theorem writes_init (w : Stores) : (init w).Writes :=
  ⟨rfl, rfl, w.increasing, w.fits⟩

theorem Writes.store {c : Counter} (h : c.Writes) : c.store.Writes := by
  obtain ⟨lo, hi, current, storing, rest, loading⟩ := c
  cases storing with
  | some v =>
    exact ⟨h.lo, rfl, (List.pairwise_cons.mp h.increasing).2,
      fun x hx => h.fits x (List.mem_cons_of_mem _ hx)⟩
  | none =>
    cases rest with
    | nil => exact h
    | cons v rest => exact ⟨rfl, h.hi, h.increasing, h.fits⟩

theorem Writes.step {c : Counter} (h : c.Writes) (p : Party) : (c.step p).Writes := by
  cases p with
  | writer => exact h.store
  | reader => exact ⟨h.lo, h.hi, h.increasing, h.fits⟩

theorem Writes.run {c : Counter} (h : c.Writes) (schedule : List Party) :
    (c.run schedule).Writes := by
  induction schedule generalizing c with
  | nil => exact h
  | cons p schedule ih => exact ih (h.step p)

theorem Writes.current_le {c : Counter} (h : c.Writes) (p : Party) :
    c.current ≤ (c.step p).current := by
  cases p with
  | reader => exact le_rfl
  | writer =>
    obtain ⟨lo, hi, current, storing, rest, loading⟩ := c
    cases storing with
    | some v => exact (List.pairwise_cons.mp h.increasing).1 v (by simp [pending])
    | none => cases rest <;> exact le_rfl

theorem Writes.current_le_run {c : Counter} (h : c.Writes) (schedule : List Party) :
    c.current ≤ (c.run schedule).current := by
  induction schedule generalizing c with
  | nil => exact le_rfl
  | cons p schedule ih => exact (h.current_le p).trans (ih (h.step p))

theorem Writes.hi_le {c : Counter} (h : c.Writes) (p : Party) :
    c.hi.toNat ≤ (c.step p).hi.toNat := by
  have h' := h.step p
  rw [h.hi, h'.hi]
  exact high_mono (h.current_le p) (h'.fits _ (by simp))

theorem Writes.le_of_holds {c : Counter} (h : c.Writes) {v : ℕ} (hv : c.Holds v) :
    c.current ≤ v := by
  rcases hv with rfl | hv
  · exact le_rfl
  · exact (List.pairwise_cons.mp h.increasing).1 v (by simp [pending, hv])

def KeepsWord (v w : ℕ) : Prop := high v = high w ∨ low v = low w

instance (v w : ℕ) : Decidable (KeepsWord v w) := inferInstanceAs (Decidable (_ ∨ _))

def KeepsWords (c : Counter) : Prop := (c.current :: c.pending).IsChain KeepsWord

theorem KeepsWords.step {c : Counter} (h : c.KeepsWords) (p : Party) : (c.step p).KeepsWords := by
  cases p with
  | reader => exact h
  | writer =>
    obtain ⟨lo, hi, current, storing, rest, loading⟩ := c
    cases storing with
    | some v => exact List.IsChain.tail h
    | none => cases rest <;> exact h

theorem Writes.holds_joined {c : Counter} (h : c.Writes) (hk : c.KeepsWords) :
    c.Holds (joined c.hi c.lo) := by
  have hcur := joined_high_low (h.fits c.current (by simp))
  rw [h.hi, h.lo]
  cases hs : c.storing with
  | none => exact .inl hcur
  | some v =>
    have hv := joined_high_low (h.fits v (by simp [pending, hs]))
    have hkeep : KeepsWord c.current v := by
      have := hk
      rw [KeepsWords, pending, hs] at this
      exact (List.isChain_cons_cons.mp this).1
    rcases hkeep with hkeep | hkeep
    · exact .inr (by rw [hkeep, Option.getD_some, hv, hs])
    · exact .inl (by rw [Option.getD_some, ← hkeep, hcur])

/-- What a call knows while it runs: the high word never falls, so that two equal loads of it enclose
an unchanged one. -/
def Knows (c : Counter) (schedule : List Party) : Loading → Prop
  | .start => True
  | .gotHigh h => h.toNat ≤ (c.run schedule).hi.toNat
  | .gotLow h l => h.toNat < (c.run schedule).hi.toNat ∨
      h.toNat ≤ (c.run schedule).hi.toNat ∧ c.HeldIn schedule (joined h l)
  | .done v => c.HeldIn schedule v

theorem knows_run {c : Counter} (hw : c.Writes) (hk : c.KeepsWords) (hstart : c.loading = .start)
    (schedule : List Party) : c.Knows schedule (c.run schedule).loading := by
  induction schedule using List.reverseRecOn with
  | nil => simp [run, hstart, Knows]
  | append_singleton schedule p ih =>
    have hw' := hw.run schedule
    have hk' : (c.run schedule).KeepsWords := by
      have : ∀ (sched : List Party) (c : Counter), c.KeepsWords → (c.run sched).KeepsWords := by
        intro sched
        induction sched with
        | nil => exact fun _ h => h
        | cons p sched ih => exact fun c h => ih _ (h.step p)
      exact this schedule c hk
    have hhi := hw'.hi_le p
    have hheld : c.HeldIn schedule (joined (c.run schedule).hi (c.run schedule).lo) :=
      ⟨schedule, List.prefix_rfl, hw'.holds_joined hk'⟩
    rw [run_snoc]
    cases p with
    | writer =>
      have hloading : ((c.run schedule).step .writer).loading = (c.run schedule).loading := by
        simp only [step, store]
        split
        · rfl
        · split <;> rfl
      rw [hloading]
      cases hl : (c.run schedule).loading with
      | start => trivial
      | gotHigh h =>
        rw [hl] at ih
        exact ih.trans (by rwa [run_snoc])
      | gotLow h l =>
        rw [hl] at ih
        simp only [Knows, run_snoc] at ih ⊢
        rcases ih with ih | ⟨ih, hold⟩
        · exact .inl (by omega)
        · exact .inr ⟨by omega, hold.snoc _⟩
      | done v =>
        rw [hl] at ih
        exact HeldIn.snoc ih _
    | reader =>
      simp only [step]
      cases hl : (c.run schedule).loading with
      | start => simp [Loading.step, Knows, run_snoc, step]
      | gotHigh h =>
        rw [hl] at ih
        simp only [Loading.step, Knows, run_snoc, step]
        rcases Nat.eq_or_lt_of_le ih with heq | hlt
        · rw [UInt32.toNat_inj] at heq
          exact .inr ⟨ih, (heq ▸ hheld).snoc _⟩
        · exact .inl hlt
      | gotLow h l =>
        rw [hl] at ih
        simp only [Loading.step]
        split
        · next heq =>
          simp only [Knows] at ih
          rw [heq] at ih
          exact (ih.resolve_left (lt_irrefl _)).2.snoc _
        · trivial
      | done v =>
        rw [hl] at ih
        exact HeldIn.snoc ih _

/-- The writer's first `k` stores alone. -/
def ahead (c : Counter) (k : ℕ) : Counter := c.run (List.replicate k .writer)

/-- Every call of `pair`, begun after any number of stores, returns a value held meanwhile. -/
def ReadsHeld (c : Counter) : Prop :=
  ∀ k during v, ((c.ahead k).run during).loading = .done v → (c.ahead k).HeldIn during v

theorem ahead_succ (c : Counter) (k : ℕ) : c.ahead (k + 1) = c.store.ahead k := rfl

theorem Writes.ahead {c : Counter} (h : c.Writes) (k : ℕ) : (c.ahead k).Writes := h.run _

theorem keepsWords_ahead {c : Counter} (h : c.KeepsWords) (k : ℕ) : (c.ahead k).KeepsWords := by
  induction k generalizing c with
  | zero => exact h
  | succ k ih => exact ih (h.step .writer)

theorem loading_ahead (c : Counter) (k : ℕ) : (c.ahead k).loading = c.loading := by
  induction k generalizing c with
  | zero => rfl
  | succ k ih =>
    rw [ahead_succ, ih, store]
    split
    · rfl
    · split <;> rfl

theorem readsHeld_of_keepsWords {c : Counter} (hw : c.Writes) (hk : c.KeepsWords)
    (hstart : c.loading = .start) : c.ReadsHeld := by
  intro k during v hdone
  have hknows := knows_run (hw.ahead k) (keepsWords_ahead hk k)
    (by rw [loading_ahead, hstart]) during
  rwa [hdone] at hknows

theorem keepsWord_of_readsHeld {c : Counter} (hw : c.Writes) (hstart : c.loading = .start)
    (hs : c.storing = none) {v : ℕ} {rest : List ℕ} (hrest : c.rest = v :: rest)
    (h : c.ReadsHeld) : KeepsWord c.current v := by
  have hahead : c.ahead 1 = { c with lo := low v, storing := some v, rest := rest } := by
    simp [ahead, run, step, store, hs, hrest]
  have hread := h 1 [.reader, .reader, .reader] (joined (high c.current) (low v))
    (by simp [hahead, run, step, Loading.step, hstart, hw.hi])
  obtain ⟨past, hpast, hheld⟩ := hread
  have hcur := joined_high_low (hw.fits c.current (by simp))
  have hv := joined_high_low (hw.fits v (by simp [pending, hs, hrest]))
  have hholds : joined (high c.current) (low v) = c.current ∨
      joined (high c.current) (low v) = v := by
    have hsame : ∀ n, ((c.ahead 1).run (List.replicate n .reader)).current = c.current ∧
        ((c.ahead 1).run (List.replicate n .reader)).storing = some v := by
      intro n
      induction n with
      | zero => simp [hahead, run]
      | succ n ih => simpa [List.replicate_succ', run_snoc, step] using ih
    obtain ⟨n, rfl⟩ : ∃ n, past = List.replicate n .reader := by
      refine ⟨past.length, List.eq_replicate_of_mem fun p hp => ?_⟩
      simpa using hpast.subset hp
    obtain ⟨h1, h2⟩ := hsame n
    rw [Holds, h1, h2] at hheld
    exact hheld.imp_right fun heq => (Option.some.inj heq).symm
  rcases hholds with heq | heq
  · exact .inr (joined_inj (hcur.trans heq.symm)).2
  · exact .inl (joined_inj (heq.trans hv.symm)).1

theorem keepsWords_of_readsHeld {rest : List ℕ} {c : Counter} (hw : c.Writes)
    (hstart : c.loading = .start) (hs : c.storing = none) (hrest : c.rest = rest)
    (h : c.ReadsHeld) : (c.current :: rest).IsChain KeepsWord := by
  induction rest generalizing c with
  | nil => exact .singleton _
  | cons v rest ih =>
    have hstore : c.store.store =
        { c with lo := low v, hi := high v, current := v, storing := none, rest := rest } := by
      simp [store, hs, hrest]
    refine .cons_cons (keepsWord_of_readsHeld hw hstart hs hrest h) ?_
    have hnext := ih (c := c.store.store) hw.store.store (by rw [hstore]; exact hstart)
      (by rw [hstore]) (by rw [hstore]) fun k during v hdone => h (k + 2) during v hdone
    rwa [hstore] at hnext

end Counter

/-- `push` under `DropNewest` refuses the record when it reads this tail. -/
def refuses (slots head tail : ℕ) : Bool := decide (head - tail ≥ slots)

/-- Where a fresh reader starts when it reads this stored count. -/
def oldest (slots next : ℕ) : ℕ := next - slots

/-- What the ring relies on a counter for: `pair` returns a value the counter held during the call; a
push that finds its head too far from the tail it reads was at some moment that far from a tail the
counter held; and a fresh reader starts at most the slots before the count stored when it began. -/
structure Untorn (w : Stores) : Prop where
  pair : (Counter.init w).ReadsHeld
  refused : ∀ slots head, (∀ v ∈ w.first :: w.values, v ≤ head) → ∀ k during tail,
    (((Counter.init w).ahead k).run during).loading = .done tail → refuses slots head tail = true →
      ∃ freed, ((Counter.init w).ahead k).HeldIn during freed ∧ head - freed ≥ slots
  fresh : ∀ slots k during next,
    (((Counter.init w).ahead k).run during).loading = .done next →
      ((Counter.init w).ahead k).current - slots ≤ oldest slots next

/-- The counter is read without tearing exactly when every store leaves its high word or its low word
as it was. -/
theorem untorn_iff (w : Stores) :
    Untorn w ↔ (w.first :: w.values).IsChain Counter.KeepsWord := by
  have hw := Counter.writes_init w
  constructor
  · intro h
    exact Counter.keepsWords_of_readsHeld hw rfl rfl rfl h.pair
  · intro hk
    have hreads := Counter.readsHeld_of_keepsWords hw hk rfl
    refine ⟨hreads, fun slots head _ k during tail hdone hfull => ?_,
      fun slots k during next hdone => ?_⟩
    · exact ⟨tail, hreads k during tail hdone, by simpa [refuses] using hfull⟩
    · obtain ⟨past, -, hheld⟩ := hreads k during next hdone
      have hle := (hw.ahead k).current_le_run past
      have := ((hw.ahead k).run past).le_of_holds hheld
      exact Nat.sub_le_sub_right (hle.trans this) slots

/-- The counter goes from `2^32 - 1` to `2^32`: between the two stores the words are those of 0. -/
theorem not_untorn_wrap : ¬ ∀ w : Stores, Untorn w := by
  intro h
  let w : Stores := ⟨0xFFFFFFFF, [0x100000000], by decide, by decide⟩
  have hchain := Counter.keepsWords_of_readsHeld (Counter.writes_init w) rfl rfl rfl (h w).pair
  have hkeep : Counter.KeepsWord 0xFFFFFFFF 0x100000000 := (List.isChain_cons_cons.mp hchain).1
  revert hkeep
  decide

end WatchingZenoh.EventRing
