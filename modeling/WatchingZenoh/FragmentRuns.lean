import WatchingZenoh.FragmentTable
import WatchingZenoh.Library.Steps

/-! Runs of an unbounded table. A datagram is answered exactly when the pieces accepted for its key
since the last answer make it whole, and it is then what they make of it; the pieces of other keys do
not matter, and the true pieces of a datagram give its payload in any order. -/

namespace WatchingZenoh.Fragments

open MergedRuns

abbrev Call := IpFragment × Option ℕ

namespace FragmentTable

def pushes (t : FragmentTable) (calls : List Call) : FragmentTable :=
  calls.foldl (fun t call => (t.push call.1 call.2).1) t

theorem pushes_concat (t : FragmentTable) (calls : List Call) (call : Call) :
    t.pushes (calls ++ [call]) = ((t.pushes calls).push call.1 call.2).1 := by
  simp [pushes]

/-- A push accepts its piece when the count of accepted pieces goes up. -/
def accepts (t : FragmentTable) (call : Call) : Bool :=
  decide ((t.push call.1 call.2).1.stats.pieces ≠ t.stats.pieces)

/-- The pieces of a key accepted since its last answer, one push on. -/
def noted (key : FragmentKey) (t : FragmentTable) (pieces : List IpFragment) (call : Call) :
    List IpFragment :=
  if call.1.key = key then
    if (t.push call.1 call.2).2.isSome then []
    else if t.accepts call then pieces ++ [call.1] else pieces
  else pieces

/-- The pieces of a key accepted since its last answer. -/
def accepted (key : FragmentKey) (calls : List Call) : List IpFragment :=
  (calls.foldl (fun s call => ((s.1.push call.1 call.2).1, noted key s.1 s.2 call)) (new, [])).2

theorem accepted_fst (key : FragmentKey) (calls : List Call) (t : FragmentTable)
    (pieces : List IpFragment) :
    (calls.foldl (fun s call => ((s.1.push call.1 call.2).1, noted key s.1 s.2 call)) (t, pieces)).1 =
      t.pushes calls := by
  induction calls generalizing t pieces with
  | nil => rfl
  | cons call calls ih => exact ih _ _

theorem accepted_concat (key : FragmentKey) (calls : List Call) (call : Call) :
    accepted key (calls ++ [call]) = noted key (new.pushes calls) (accepted key calls) call := by
  rw [accepted, List.foldl_append, List.foldl_cons, List.foldl_nil, accepted_fst, ← accepted]

/-- The pieces that count for a push: those accepted before it, and its own if it is accepted. -/
def acceptedWith (calls : List Call) (call : Call) : List IpFragment :=
  if (new.pushes calls).accepts call then accepted call.1.key calls ++ [call.1]
  else accepted call.1.key calls

structure Unbounded (t : FragmentTable) : Prop where
  cap : t.maxPending = none
  window : t.windowMs = none

theorem unbounded_new : Unbounded new := ⟨rfl, rfl⟩

/-- The datagram a piece is offered to in an unbounded table. -/
def entryFor (t : FragmentTable) (call : Call) : Pending :=
  (t.pending[call.1.key]?).getD (fresh t.nextSeq call.2 call.1.tunnel)

structure Pushed (t : FragmentTable) (call : Call) (r : FragmentTable × Option Reassembled) :
    Prop where
  unbounded : Unbounded r.1
  own : r.1.pending[call.1.key]? =
    if completes call.1 (t.entryFor call) then none else some (offered call.1 (t.entryFor call)).1
  others : ∀ k, call.1.key ≠ k → r.1.pending[k]? = t.pending[k]?
  answer : r.2 = if completes call.1 (t.entryFor call)
    then some (handedOut call.1 (offered call.1 (t.entryFor call)).1) else none
  pieces : r.1.stats.pieces = t.stats.pieces + if (offered call.1 (t.entryFor call)).2 then 1 else 0
  malformed : r.1.stats.malformed =
    t.stats.malformed + if (offered call.1 (t.entryFor call)).2 then 0 else 1

theorem Unbounded.expire {t : FragmentTable} (h : Unbounded t) (now : Option ℕ) : t.expire now = t := by
  simp [FragmentTable.expire, h.window]

theorem Unbounded.pushed {t : FragmentTable} (h : Unbounded t) (call : Call) :
    Pushed t call (t.push call.1 call.2) := by
  obtain ⟨entry, hentry, heq⟩ := push_eq_settle t call.1 call.2
  have hready : Unbounded (t.ready call.1.key call.2 call.1.tunnel) ∧
      (t.ready call.1.key call.2 call.1.tunnel).stats = t.stats ∧ entry = t.entryFor call ∧
      ∀ k, call.1.key ≠ k → (t.ready call.1.key call.2 call.1.tunnel).pending[k]? = t.pending[k]? := by
    rcases ready_cases t call.1.key call.2 call.1.tunnel with ⟨old, hold, hready⟩ | ⟨hnone, hready⟩
    · rw [hready, h.expire] at hentry ⊢
      exact ⟨h, rfl, by rw [entryFor, hentry, Option.getD_some], fun _ _ => rfl⟩
    · have hroom : t.makeRoom = t := by rw [makeRoom, h.cap]
      rw [h.expire] at hnone
      rw [hready, h.expire, openChain, hroom] at hentry ⊢
      refine ⟨⟨h.cap, h.window⟩, rfl, ?_, fun k hk => ?_⟩
      · simpa [entryFor, hnone] using hentry.symm
      · simp [Std.ExtTreeMap.getElem?_insert, hk]
  obtain ⟨hbound, hstats, rfl, hothers⟩ := hready
  obtain ⟨hcap, hwindow, -⟩ := settle_limits (t.ready call.1.key call.2 call.1.tunnel) call.1
    (t.entryFor call)
  rw [heq]
  exact
    { unbounded := ⟨hcap.trans hbound.cap, hwindow.trans hbound.window⟩
      own := settle_pending_self _ _ _
      others := fun k hk => (settle_pending_other _ _ _ hk).trans (hothers k hk)
      answer := settle_answer _ _ _
      pieces := hstats ▸ settle_pieces _ _ _
      malformed := hstats ▸ settle_malformed _ _ _ }

theorem Pushed.accepts_eq {t : FragmentTable} {call : Call}
    (h : Pushed t call (t.push call.1 call.2)) :
    t.accepts call = (offered call.1 (t.entryFor call)).2 := by
  rw [accepts, h.pieces]
  cases (offered call.1 (t.entryFor call)).2 <;> simp

theorem unbounded_pushes {t : FragmentTable} (h : Unbounded t) (calls : List Call) :
    Unbounded (t.pushes calls) := by
  induction calls generalizing t with
  | nil => exact h
  | cons call calls ih => exact ih (h.pushed call).unbounded

/-- A key's pending datagram is what its accepted pieces make, and not whole yet. -/
structure Follows (key : FragmentKey) (pieces : List IpFragment) (entry : Option Pending) : Prop where
  some : ∀ p, entry = Option.some p → p.Tracks pieces ∧ p.complete = false
  none : entry = Option.none → pieces = []

theorem Follows.entryFor {t : FragmentTable} {call : Call} {pieces : List IpFragment}
    (h : Follows call.1.key pieces t.pending[call.1.key]?) : (t.entryFor call).Tracks pieces := by
  rw [FragmentTable.entryFor]
  rcases hentry : t.pending[call.1.key]? with _ | p
  · rw [h.none hentry]
    exact Pending.tracks_fresh _ _ _
  · exact (h.some p hentry).1

theorem tracks_offered {p : Pending} {pieces : List IpFragment} (h : p.Tracks pieces)
    (piece : IpFragment) :
    (offered piece p).1.Tracks (if (offered piece p).2 then pieces ++ [piece] else pieces) := by
  by_cases hrefuse : p.Refuses piece.info piece.payload
  · have htracks := h.offer_refused hrefuse
    rw [offered]
    rw [Pending.offer_of_refuses hrefuse] at htracks ⊢
    simpa using htracks
  · obtain ⟨p', hoffer, htracks⟩ := h.offer_accepted hrefuse
    rw [offered, hoffer]
    simpa using htracks

theorem Follows.not_whole {key : FragmentKey} {pieces : List IpFragment} {entry : Option Pending}
    (h : Follows key pieces entry) : ¬ ∃ total, Whole pieces total := by
  rintro ⟨total, hwhole⟩
  rcases entry with _ | p
  · obtain ⟨piece, hmem, -⟩ := hwhole.last
    simp [h.none rfl] at hmem
  · obtain ⟨htracks, hpartial⟩ := h.some p rfl
    rw [htracks.complete_iff.mpr ⟨total, hwhole⟩] at hpartial
    exact Bool.noConfusion hpartial

section Push

variable {t : FragmentTable} {call : Call} {pieces : List IpFragment}

theorem Pushed.completes_iff (h : Pushed t call (t.push call.1 call.2))
    (hfollows : Follows call.1.key pieces t.pending[call.1.key]?) :
    completes call.1 (t.entryFor call) = true ↔
      ∃ total, Whole (if t.accepts call then pieces ++ [call.1] else pieces) total := by
  have htracks := tracks_offered hfollows.entryFor call.1
  rw [← h.accepts_eq] at htracks
  rw [completes, ← h.accepts_eq, Bool.and_eq_true, htracks.complete_iff, and_iff_right_iff_imp]
  intro hwhole
  by_contra haccept
  rw [if_neg haccept] at hwhole
  exact hfollows.not_whole hwhole

theorem Pushed.answers_iff (h : Pushed t call (t.push call.1 call.2))
    (hfollows : Follows call.1.key pieces t.pending[call.1.key]?) :
    (t.push call.1 call.2).2.isSome ↔
      ∃ total, Whole (if t.accepts call then pieces ++ [call.1] else pieces) total := by
  rw [← h.completes_iff hfollows, h.answer]
  split_ifs with hc <;> simp [hc]

theorem Pushed.answer_of_whole (h : Pushed t call (t.push call.1 call.2))
    (hfollows : Follows call.1.key pieces t.pending[call.1.key]?) {d : Reassembled} {total : ℕ}
    (hd : (t.push call.1 call.2).2 = some d)
    (hwhole : Whole (if t.accepts call then pieces ++ [call.1] else pieces) total) :
    d.key = call.1.key ∧ d.payload.length = total ∧
      (∀ x < total, d.payload[x]? =
        firstByte (if t.accepts call then pieces ++ [call.1] else pieces) x) ∧
      (d.overlapped = true ↔
        Disagree (if t.accepts call then pieces ++ [call.1] else pieces)) := by
  have htracks := tracks_offered hfollows.entryFor call.1
  rw [← h.accepts_eq] at htracks
  rw [h.answer, if_pos ((h.completes_iff hfollows).mpr ⟨total, hwhole⟩)] at hd
  cases hd
  refine ⟨rfl, (htracks.of_whole hwhole).2, fun x hx => ?_, htracks.overlapped_iff⟩
  obtain ⟨byte, hbyte⟩ := Option.isSome_iff_exists.mp (hwhole.full x hx)
  rw [hbyte]
  exact htracks.bytes x byte hbyte

theorem Pushed.follows (h : Pushed t call (t.push call.1 call.2)) {key : FragmentKey}
    (hfollows : Follows key pieces t.pending[key]?) :
    Follows key (noted key t pieces call) (t.push call.1 call.2).1.pending[key]? := by
  by_cases hkey : call.1.key = key
  · subst hkey
    by_cases hanswer : (t.push call.1 call.2).2.isSome
    · have hcompletes := (h.completes_iff hfollows).mpr ((h.answers_iff hfollows).mp hanswer)
      rw [noted, if_pos rfl, if_pos hanswer, h.own, if_pos hcompletes]
      exact ⟨by simp, fun _ => rfl⟩
    · have hpartial := mt (h.answers_iff hfollows).mpr hanswer
      have htracks := tracks_offered hfollows.entryFor call.1
      rw [← h.accepts_eq] at htracks
      rw [noted, if_pos rfl, if_neg hanswer, h.own, if_neg (mt (h.completes_iff hfollows).mp hpartial)]
      refine ⟨fun p hp => ?_, by simp⟩
      cases hp
      exact ⟨htracks, Bool.eq_false_iff.mpr (mt htracks.complete_iff.mp hpartial)⟩
  · rw [noted, if_neg hkey, h.others key hkey]
    exact hfollows

end Push

theorem follows_pushes (key : FragmentKey) (calls : List Call) :
    Follows key (accepted key calls) (new.pushes calls).pending[key]? := by
  induction calls using List.reverseRecOn with
  | nil => exact ⟨by simp [pushes, new, bounded], fun _ => rfl⟩
  | append_singleton calls call ih =>
    rw [accepted_concat, pushes_concat]
    exact ((unbounded_pushes unbounded_new calls).pushed call).follows ih

/-! A push depends on the datagram of its key only. -/

def unordered (p : Pending) : Pending := { p with seq := 0 }

theorem place_unordered (p : Pending) (offset : ℕ) (payload : List UInt8) :
    (unordered p).place offset payload = (p.place offset payload).map unordered := by
  simp only [Pending.place]
  split_ifs with h <;> rfl

theorem declare_unordered (p : Pending) (info : FragmentInfo) (len : ℕ) :
    (unordered p).declare info len = (p.declare info len).map unordered := by
  rw [Pending.declare_eq, Pending.declare_eq]
  split_ifs with h h' h'
  · rfl
  · exact absurd h h'
  · exact absurd h' h
  · rfl

theorem offered_unordered (piece : IpFragment) (p : Pending) :
    offered piece (unordered p) = (unordered (offered piece p).1, (offered piece p).2) := by
  rw [offered, offered, Pending.offer, Pending.offer, declare_unordered]
  rcases p.declare piece.info piece.payload.length with _ | q
  · rfl
  · have htotal : (unordered q).total = q.total := rfl
    simp only [Option.map_some, htotal, place_unordered]
    split_ifs with h
    · rfl
    · rcases q.place piece.info.offset piece.payload with _ | q' <;> rfl

theorem Pushed.congr {t t' : FragmentTable} {call : Call} (h : Pushed t call (t.push call.1 call.2))
    (h' : Pushed t' call (t'.push call.1 call.2))
    (hsame : (t.pending[call.1.key]?).map unordered = (t'.pending[call.1.key]?).map unordered) :
    (t.push call.1 call.2).2 = (t'.push call.1 call.2).2 ∧
      ((t.push call.1 call.2).1.pending[call.1.key]?).map unordered =
        ((t'.push call.1 call.2).1.pending[call.1.key]?).map unordered := by
  have hentry : unordered (t.entryFor call) = unordered (t'.entryFor call) := by
    have hread : ∀ t : FragmentTable, unordered (t.entryFor call) =
        ((t.pending[call.1.key]?).map unordered).getD (fresh 0 call.2 call.1.tunnel) := fun t => by
      rw [entryFor]
      rcases t.pending[call.1.key]? with _ | p <;> rfl
    rw [hread, hread, hsame]
  have hoffered : (unordered (offered call.1 (t.entryFor call)).1, (offered call.1 (t.entryFor call)).2) =
      (unordered (offered call.1 (t'.entryFor call)).1, (offered call.1 (t'.entryFor call)).2) := by
    rw [← offered_unordered, ← offered_unordered, hentry]
  obtain ⟨hp, hplaced⟩ := Prod.mk.inj hoffered
  have hcomplete : ∀ p : Pending, (unordered p).complete = p.complete := fun _ => rfl
  have hcompletes : completes call.1 (t.entryFor call) = completes call.1 (t'.entryFor call) := by
    rw [completes, completes, hplaced, ← hcomplete, hp, hcomplete]
  have hanswer : ∀ p : Pending, handedOut call.1 (unordered p) = handedOut call.1 p := fun _ => rfl
  rw [h.answer, h'.answer, h.own, h'.own, hcompletes]
  split_ifs with hc
  · exact ⟨by rw [← hanswer, hp, hanswer], rfl⟩
  · exact ⟨rfl, congrArg some hp⟩

theorem pending_filter (key : FragmentKey) (calls : List Call) :
    ((new.pushes calls).pending[key]?).map unordered =
      ((new.pushes (calls.filter fun call => call.1.key = key)).pending[key]?).map unordered := by
  induction calls using List.reverseRecOn with
  | nil => rfl
  | append_singleton calls call ih =>
    have hpushed := (unbounded_pushes unbounded_new calls).pushed call
    rw [List.filter_append, pushes_concat]
    by_cases hkey : call.1.key = key
    · subst hkey
      rw [List.filter_cons_of_pos (by simp), List.filter_nil, pushes_concat]
      exact (hpushed.congr ((unbounded_pushes unbounded_new _).pushed call) ih).2
    · rw [List.filter_cons_of_neg (by simpa using hkey), List.filter_nil, List.append_nil,
        hpushed.others key hkey]
      exact ih

/-! The true pieces of a datagram. -/

/-- A piece of the datagram with this payload. -/
structure TrueTo (payload : List UInt8) (piece : IpFragment) : Prop where
  within : piece.stop ≤ payload.length
  bytes : ∀ x byte, piece.byteAt x = some byte → payload[x]? = some byte
  last : piece.info.more = false → piece.stop = payload.length

theorem firstByte_of_true {payload : List UInt8} {pieces : List IpFragment}
    (h : ∀ piece ∈ pieces, TrueTo payload piece) {x : ℕ} {byte : UInt8}
    (hbyte : firstByte pieces x = some byte) : payload[x]? = some byte := by
  obtain ⟨piece, hmem, hat⟩ := List.exists_of_findSome?_eq_some hbyte
  exact (h piece hmem).bytes x byte hat

theorem not_disagree_of_true {payload : List UInt8} {pieces : List IpFragment}
    (h : ∀ piece ∈ pieces, TrueTo payload piece) : ¬ Disagree pieces := by
  rintro ⟨before, piece, after, x, byte, byte', rfl, hfirst, hat, hne⟩
  have hbyte := firstByte_of_true (fun q hq => h q (by simp [hq])) hfirst
  have hbyte' := (h piece (by simp)).bytes x byte' hat
  exact hne (Option.some.inj (hbyte'.symm.trans hbyte))

def Unforged (payload : List UInt8) (p : Pending) : Prop :=
  ∀ t, p.total = some t → t = payload.length

theorem TrueTo.not_refused {payload : List UInt8} {piece : IpFragment} (h : TrueTo payload piece)
    (hlen : payload.length ≤ maxDatagram) {p : Pending} {pieces : List IpFragment}
    (htracks : p.Tracks pieces) (htrue : ∀ q ∈ pieces, TrueTo payload q)
    (hunforged : Unforged payload p) : ¬ p.Refuses piece.info piece.payload := by
  have hbytes : p.bytes.length ≤ payload.length :=
    (htracks.length_le _).mpr fun q hq => (htrue q hq).within
  have hwithin := h.within
  rintro (⟨hlast, hcontra⟩ | ⟨-, t, ht, hlt⟩ | hpast)
  · have hstop := h.last hlast
    have hfree : p.contradicts piece.stop = false := by
      rw [htracks.contradicts_eq_false, hstop]
      exact ⟨hunforged, hbytes⟩
    rw [IpFragment.stop] at hfree
    simp [hfree] at hcontra
  · rw [hunforged t ht] at hlt
    exact absurd hlt (Nat.not_lt.mpr hwithin)
  · exact absurd (hwithin.trans hlen) (Nat.not_le.mpr hpast)

theorem TrueTo.offered {payload : List UInt8} {piece : IpFragment} (h : TrueTo payload piece)
    (hlen : payload.length ≤ maxDatagram) {p : Pending} {pieces : List IpFragment}
    (htracks : p.Tracks pieces) (htrue : ∀ q ∈ pieces, TrueTo payload q)
    (hunforged : Unforged payload p) :
    (FragmentTable.offered piece p).2 = true ∧ Unforged payload (FragmentTable.offered piece p).1 := by
  obtain ⟨p', hoffer, hplaced⟩ := Pending.offer_of_not_refuses htracks.apart
    (h.not_refused hlen htracks htrue hunforged)
  rw [FragmentTable.offered, hoffer]
  refine ⟨rfl, fun t ht => ?_⟩
  rw [hplaced.total_eq, Pending.declaring] at ht
  split_ifs at ht with hmore
  · exact hunforged t ht
  · cases ht
    exact h.last (by simpa using hmore)

end FragmentTable

end WatchingZenoh.Fragments
