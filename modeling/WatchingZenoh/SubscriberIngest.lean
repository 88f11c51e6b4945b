import Mathlib
import WatchingZenoh.SubscriberSource

/-! A sample that comes to its source: it is delivered, or goes into the buffer, which may spill its
oldest, or it is late. Which of these happens is decided by its number and by what the source waits for.
-/

namespace WatchingZenoh.Subscriber

open Std (ExtTreeMap)

variable {α : Type} {key : Key} {silent : Bool} {state : SourceState α} {sn : UInt32} {sample : Sample α}

theorem mem_buffer {x : UInt32} :
    x ∈ (buffer state sn sample).pendingSamples ↔ x = sn ∨ x ∈ state.pendingSamples := by
  rw [buffer, ExtTreeMap.mem_insert, Std.LawfulEqOrd.compare_eq_iff_eq, eq_comm]

theorem WellFormed.buffer (h : WellFormed key state) (hsample : Named key sn sample)
    (hsn : sn.toNat < 2 ^ 32 - 1) : WellFormed key (buffer state sn sample) where
  named x s hx := by
    have hx : (state.pendingSamples.insert sn sample)[x]? = some s := hx
    rw [ExtTreeMap.getElem?_insert] at hx
    split_ifs at hx with heq
    · rw [Std.LawfulEqOrd.compare_eq_iff_eq] at heq
      cases hx
      exact heq ▸ hsample
    · exact h.named x s hx
  pending_lt x hx := by
    rcases mem_buffer.mp hx with rfl | hx
    · exact hsn
    · exact h.pending_lt x hx
  last_lt := h.last_lt

/-- A full buffer delivers its oldest sample, which must be one that may be delivered. Nothing that
stays behind is passed. -/
theorem exists_spill (silent : Bool) (depth : ℕ) (h : WellFormed key state)
    (hfull : depth ≤ state.pendingSamples.size → ∀ x ∈ state.pendingSamples,
      (∀ y ∈ state.pendingSamples, x.toNat ≤ y.toNat) → Admits silent state.lastDelivered x) :
    ∃ state' events, spill depth state = (state', events) ∧ Worked key silent state events state' ∧
      (∀ x ∈ state.pendingSamples, x ∈ state'.pendingSamples ∨ x ∈ delivers (actsOn key events)) ∧
      (∀ x ∈ state'.pendingSamples, x ∈ state.pendingSamples ∧ (Passed state' x → Passed state x)) := by
  have hidle : spill depth state = (state, []) → ∃ state' events,
      spill depth state = (state', events) ∧ Worked key silent state events state' ∧
      (∀ x ∈ state.pendingSamples, x ∈ state'.pendingSamples ∨ x ∈ delivers (actsOn key events)) ∧
      (∀ x ∈ state'.pendingSamples, x ∈ state.pendingSamples ∧ (Passed state' x → Passed state x)) :=
    fun heq => ⟨state, [], heq, .refl h, fun x hx => .inl hx, fun x hx => ⟨hx, id⟩⟩
  by_cases hdepth : depth ≤ state.pendingSamples.size
  swap
  · exact hidle (by rw [spill, if_neg hdepth])
  rcases hlist : state.pendingSamples.toList with _ | ⟨⟨old, oldSample⟩, rest⟩
  · exact hidle (by simp [spill, hlist])
  have hmemList : ∀ x s, (x, s) ∈ (old, oldSample) :: rest ↔ state.pendingSamples[x]? = some s := by
    intro x s
    rw [← hlist]
    exact ExtTreeMap.mem_toList_iff_getElem?_eq_some
  have hsample := (hmemList old oldSample).mp (by simp)
  have hold : old ∈ state.pendingSamples := by
    rw [ExtTreeMap.mem_iff_isSome_getElem?, hsample]
    rfl
  have hleast : ∀ y ∈ state.pendingSamples, old.toNat ≤ y.toNat := by
    intro y hy
    obtain ⟨s, hs⟩ := Option.isSome_iff_exists.mp (ExtTreeMap.mem_iff_isSome_getElem?.mp hy)
    have hsorted := sorted_pending state
    rw [hlist, List.pairwise_cons] at hsorted
    rcases List.mem_cons.mp ((hmemList y s).mpr hs) with heq | hrest
    · cases heq
      exact le_rfl
    · exact (hsorted.1 (y, s) hrest).le
  set popped : SourceState α := { state with pendingSamples := state.pendingSamples.erase old }
    with hpopped
  have hmem : ∀ x, x ∈ popped.pendingSamples ↔ x ≠ old ∧ x ∈ state.pendingSamples := by
    intro x
    rw [hpopped, ExtTreeMap.mem_erase, ne_eq, Std.LawfulEqOrd.compare_eq_iff_eq, ne_comm]
  have hwf : WellFormed key popped := by
    refine ⟨fun x s hx => ?_, fun x hx => h.pending_lt x ((hmem x).mp hx).2, h.last_lt⟩
    have hx : (state.pendingSamples.erase old)[x]? = some s := hx
    rw [ExtTreeMap.getElem?_erase] at hx
    split_ifs at hx
    exact h.named x s hx
  obtain ⟨state', events, heq, hworked, hdelivered, hkept, hrest⟩ :=
    exists_deliverAndFlush hwf (h.named old oldSample hsample) (h.pending_lt old hold)
      (hfull hdepth old hold hleast)
  refine ⟨state', events, by simp [spill, hdepth, hlist, ← hpopped, heq],
    ⟨hworked.wellFormed, hworked.follows, hworked.others, hworked.queries⟩, fun x hx => ?_,
    fun x hx => ⟨((hmem x).mp (hrest x hx).1).2, fun hpassed => ?_⟩⟩
  · by_cases hxold : x = old
    · exact .inr (hxold ▸ hdelivered)
    · exact hkept x ((hmem x).mpr ⟨hxold, hx⟩)
  · obtain ⟨hne, hxmem⟩ := (hmem x).mp (hrest x hx).1
    have hle := (hrest x hx).2 hpassed
    exact absurd (UInt32.toNat_inj.mp (le_antisymm hle (hleast x hxmem))) hne

def Oldest (state : SourceState α) (sn x : UInt32) : Prop :=
  (x = sn ∨ x ∈ state.pendingSamples) ∧ ∀ y, y = sn ∨ y ∈ state.pendingSamples → x.toNat ≤ y.toNat

def Hole (state : SourceState α) (sn : UInt32) : Prop :=
  ∃ last, state.lastDelivered = some last ∧ last.toNat + 1 < sn.toNat

def Waits (retransmission historyPending : Bool) (state : SourceState α) (sn : UInt32) : Prop :=
  (state.lastDelivered = none ∧ historyPending = true) ∨ (Hole state sn ∧ retransmission = true)

def Goes (retransmission historyPending : Bool) (state : SourceState α) (sn : UInt32) : Prop :=
  (state.lastDelivered = none ∧ historyPending = false) ∨
    (∃ last, state.lastDelivered = some last ∧ sn.toNat = last.toNat + 1) ∨
    (Hole state sn ∧ retransmission = false)

/-- What became of a sample at its source: it is delivered or buffered unless its number had been
passed, and what it passes on its way has no later number. -/
structure Taken (key : Key) (silent retransmission historyPending : Bool) (state : SourceState α)
    (sn : UInt32) (events : List (Event α)) (state' : SourceState α) : Prop extends
    Worked key silent state events state' where
  kept : ∀ x ∈ state.pendingSamples, x ∈ state'.pendingSamples ∨ x ∈ delivers (actsOn key events)
  here : ¬Passed state sn → sn ∈ state'.pendingSamples ∨ sn ∈ delivers (actsOn key events)
  buffered : ∀ x ∈ state'.pendingSamples,
    x ∈ state.pendingSamples ∨ (x = sn ∧ Waits retransmission historyPending state sn)
  passed : ∀ x ∈ state'.pendingSamples, Passed state' x → Passed state x ∨
    (x.toNat ≤ sn.toNat ∧ sn ∈ delivers (actsOn key events) ∧
      Goes retransmission historyPending state sn)

variable {retransmission historyPending : Bool}

theorem exists_buffer_spill (h : WellFormed key state) (hsample : Named key sn sample)
    (hsn : sn.toNat < 2 ^ 32 - 1) (hwaits : Waits retransmission historyPending state sn) {depth : ℕ}
    (hadmits : ∀ x, depth ≤ (buffer state sn sample).pendingSamples.size → Oldest state sn x →
      Admits silent state.lastDelivered x) :
    ∃ state' events, spill depth (buffer state sn sample) = (state', events) ∧
      Taken key silent retransmission historyPending state sn events state' := by
  obtain ⟨state', events, heq, hworked, hkept, hrest⟩ :=
    exists_spill silent depth (h.buffer hsample hsn)
      fun hsize x hx hleast => hadmits x hsize
        ⟨mem_buffer.mp hx, fun y hy => hleast y (mem_buffer.mpr hy)⟩
  refine ⟨state', events, heq, ⟨⟨hworked.wellFormed, hworked.follows, hworked.others, hworked.queries⟩,
    fun x hx => hkept x (mem_buffer.mpr (.inr hx)), fun _ => hkept sn (mem_buffer.mpr (.inl rfl)),
    fun x hx => ?_, fun x hx hpassed => .inl ((hrest x hx).2 hpassed)⟩⟩
  exact (mem_buffer.mp (hrest x hx).1).symm.imp_right fun hx => ⟨hx, hwaits⟩

theorem exists_deliver (h : WellFormed key state) (hsample : Named key sn sample)
    (hsn : sn.toNat < 2 ^ 32 - 1) (hgoes : Goes retransmission historyPending state sn)
    (hadmits : Admits silent state.lastDelivered sn) :
    ∃ state' events, deliverAndFlush state sn sample = (state', events) ∧
      Taken key silent retransmission historyPending state sn events state' := by
  obtain ⟨state', events, heq, hworked, hin, hkept, hrest⟩ :=
    exists_deliverAndFlush h hsample hsn hadmits
  exact ⟨state', events, heq, ⟨hworked, hkept, fun _ => .inr hin, fun x hx => .inl (hrest x hx).1,
    fun x hx hpassed => .inr ⟨(hrest x hx).2 hpassed, hin, hgoes⟩⟩⟩

/-- A sample at its source. If a full buffer spills after a hole, its oldest sample must be one that
may be delivered. -/
theorem exists_ingestAtSource (silent retransmission historyPending : Bool) (depth : ℕ)
    {source : EntityGlobalId} (h : WellFormed key state) (hsource : source.key = key)
    (hsample : Named key sn sample) (hsn : sn.toNat < 2 ^ 32 - 1)
    (hspill : ∀ last x, retransmission = true → state.lastDelivered = some last →
      last.toNat + 1 < sn.toNat → depth ≤ (buffer state sn sample).pendingSamples.size →
      Oldest state sn x → Admits silent (some last) x) :
    ∃ state' events,
      ingestAtSource retransmission historyPending depth source sn sample state = (state', events) ∧
      Taken key silent retransmission historyPending state sn events state' := by
  rcases hlast : state.lastDelivered with _ | last
  · have hadmits : ∀ x, Admits silent state.lastDelivered x := by
      intro x l hl
      rw [hlast] at hl
      cases hl
    cases historyPending with
    | true =>
      rw [show ingestAtSource retransmission true depth source sn sample state =
        spill depth (buffer state sn sample) by simp [ingestAtSource, hlast]]
      exact exists_buffer_spill h hsample hsn (.inl ⟨hlast, rfl⟩) fun x _ _ => hadmits x
    | false =>
      rw [show ingestAtSource retransmission false depth source sn sample state =
        deliverAndFlush state sn sample by simp [ingestAtSource, hlast]]
      exact exists_deliver h hsample hsn (.inl ⟨hlast, rfl⟩) (hadmits sn)
  have hsucc := toNat_succ (h.last_lt last hlast)
  by_cases hnext : sn = last + 1
  · rw [show ingestAtSource retransmission historyPending depth source sn sample state =
      deliverAndFlush state sn sample by simp only [ingestAtSource, hlast, hnext, ↓reduceIte]]
    have heq : sn.toNat = last.toNat + 1 := by rw [hnext, hsucc]
    refine exists_deliver h hsample hsn (.inr (.inl ⟨last, hlast, heq⟩)) fun l hl => .inl ?_
    rw [hlast] at hl
    cases hl
    exact heq
  by_cases hgap : last < sn
  · have hlt := UInt32.lt_iff_toNat_lt.mp hgap
    have hjump : last.toNat + 1 < sn.toNat := by
      have hne : sn.toNat ≠ last.toNat + 1 := fun heq => hnext (UInt32.toNat_inj.mp (by omega))
      omega
    cases retransmission with
    | true =>
      rw [show ingestAtSource true historyPending depth source sn sample state =
        spill depth (buffer state sn sample) by
          simp only [ingestAtSource, hlast, hnext, hgap, ↓reduceIte]]
      refine exists_buffer_spill h hsample hsn (.inr ⟨⟨last, hlast, hjump⟩, rfl⟩)
        fun x hsize holdest => ?_
      rw [hlast]
      exact hspill last x rfl hlast hjump hsize holdest
    | false =>
      obtain ⟨hfollows, hin, hothers⟩ := actsOn_missed silent hsource hsample hjump
      refine ⟨{ state with lastDelivered := some sn }, _,
        by simp only [ingestAtSource, hlast, hnext, hgap, ↓reduceIte, Bool.false_eq_true],
        ⟨⟨⟨h.named, h.pending_lt, fun l hl => ?_⟩, hlast ▸ hfollows, hothers, rfl⟩, fun x hx => .inl hx,
          fun _ => .inr hin, fun x hx => .inl hx, ?_⟩⟩
      · cases hl
        exact hsn
      · rintro x - ⟨l, hl, hle⟩
        cases hl
        exact .inr ⟨hle, hin, .inr (.inr ⟨⟨last, hlast, hjump⟩, rfl⟩)⟩
  · refine ⟨state, [], by simp only [ingestAtSource, hlast, hnext, hgap, ↓reduceIte],
      ⟨.refl h, fun x hx => .inl hx, fun hnot => ?_, fun x hx => .inl hx, fun x _ => .inl⟩⟩
    rw [UInt32.lt_iff_toNat_lt] at hgap
    exact absurd ⟨last, hlast, by omega⟩ hnot

end WatchingZenoh.Subscriber
