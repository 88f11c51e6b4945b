import Mathlib
import WatchingZenoh.SubscriberActs

/-! What is delivered at a source at once: a sample with all that follows it in the buffer without a
hole, and the whole buffer, oldest first, when it is flushed. -/

namespace WatchingZenoh.Subscriber

open Std (ExtTreeMap)

variable {α : Type}

def Named (key : Key) (sn : UInt32) (sample : Sample α) : Prop :=
  ∃ source, sample.sequenced = some (source, sn) ∧ source.key = key

theorem actOn_named {key : Key} {sn : UInt32} {sample : Sample α} (h : Named key sn sample) :
    actOn key (.sample sample) = some (.deliver sn) := by
  obtain ⟨source, hseq, hkey⟩ := h
  simp [actOn, hseq, hkey]

theorem actOn_named_ne {key other : Key} {sn : UInt32} {sample : Sample α} (h : Named key sn sample)
    (hne : key ≠ other) : actOn other (.sample sample) = none := by
  obtain ⟨source, hseq, hkey⟩ := h
  simp [actOn, hseq, hkey, hne]

/-- The numbers of a source stay below the last of all, and what is buffered is under its own. -/
structure WellFormed (key : Key) (state : SourceState α) : Prop where
  named : ∀ (sn : UInt32) (sample : Sample α), state.pendingSamples[sn]? = some sample →
    Named key sn sample
  pending_lt : ∀ sn ∈ state.pendingSamples, sn.toNat < 2 ^ 32 - 1
  last_lt : ∀ last, state.lastDelivered = some last → last.toNat < 2 ^ 32 - 1

theorem toNat_succ {sn : UInt32} (h : sn.toNat < 2 ^ 32 - 1) : (sn + 1).toNat = sn.toNat + 1 := by
  rw [UInt32.toNat_add, UInt32.toNat_one, Nat.mod_eq_of_lt (by omega)]

/-- What was drained from a buffer after a number: it follows the number without a hole, and it is gone
from the buffer and nothing else is. -/
structure Drained (key : Key) (silent : Bool) (delivered : UInt32)
    (pending : ExtTreeMap UInt32 (Sample α)) (last : UInt32) (rest : ExtTreeMap UInt32 (Sample α))
    (events : List (Event α)) : Prop where
  follows : Follows silent (some delivered) (actsOn key events) (some last)
  others : ∀ other, key ≠ other → actsOn other events = []
  le : delivered.toNat ≤ last.toNat
  lt : last.toNat < 2 ^ 32 - 1
  delivers : ∀ sn : UInt32, delivered.toNat < sn.toNat → sn.toNat ≤ last.toNat →
    sn ∈ delivers (actsOn key events)
  rest : ∀ sn : UInt32, rest[sn]? =
    if delivered.toNat < sn.toNat ∧ sn.toNat ≤ last.toNat then none else pending[sn]?

theorem Drained.none (key : Key) (silent : Bool) {delivered : UInt32}
    (hdelivered : delivered.toNat < 2 ^ 32 - 1) (pending : ExtTreeMap UInt32 (Sample α)) :
    Drained key silent delivered pending delivered pending [] where
  follows := .nil _
  others _ _ := rfl
  le := le_rfl
  lt := hdelivered
  delivers _ h h' := absurd h (by omega)
  rest _ := by rw [if_neg (by omega)]

theorem exists_drain {key : Key} (silent : Bool) (fuel : ℕ) {delivered : UInt32}
    {pending : ExtTreeMap UInt32 (Sample α)}
    (hnamed : ∀ (sn : UInt32) (sample : Sample α), pending[sn]? = some sample → Named key sn sample)
    (hpending : ∀ sn : UInt32, sn ∈ pending → sn.toNat < 2 ^ 32 - 1)
    (hdelivered : delivered.toNat < 2 ^ 32 - 1) :
    ∃ last rest events, drain fuel delivered pending = (last, rest, events) ∧
      Drained key silent delivered pending last rest events ∧
      (pending.size ≤ fuel → last + 1 ∉ rest) := by
  induction fuel generalizing delivered pending with
  | zero =>
    refine ⟨_, _, _, rfl, .none key silent hdelivered pending, fun hsize hmem => ?_⟩
    have hempty : pending = ∅ := ExtTreeMap.eq_empty_iff_size_eq_zero.mpr (Nat.le_zero.mp hsize)
    rw [hempty] at hmem
    exact ExtTreeMap.not_mem_empty hmem
  | succ fuel ih =>
    have hsucc := toNat_succ hdelivered
    rcases hnext : pending[delivered + 1]? with _ | next
    · refine ⟨_, _, _, by simp [drain, hnext], .none key silent hdelivered pending, fun _ hmem => ?_⟩
      rw [ExtTreeMap.mem_iff_isSome_getElem?, hnext] at hmem
      cases hmem
    have hmem : delivered + 1 ∈ pending := by
      rw [ExtTreeMap.mem_iff_isSome_getElem?, hnext]
      rfl
    have herase : ∀ sn : UInt32, (pending.erase (delivered + 1))[sn]? =
        if sn.toNat = delivered.toNat + 1 then none else pending[sn]? := by
      intro sn
      have hiff : compare (delivered + 1) sn = .eq ↔ sn.toNat = delivered.toNat + 1 := by
        rw [Std.LawfulEqOrd.compare_eq_iff_eq, ← UInt32.toNat_inj, hsucc, eq_comm]
      simp only [ExtTreeMap.getElem?_erase, hiff]
    obtain ⟨last, rest, events, heq, hdrained, hend⟩ :=
      @ih (delivered + 1) (pending.erase (delivered + 1)) (by
        intro sn sample hsn
        rw [herase] at hsn
        split_ifs at hsn
        exact hnamed sn sample hsn) (fun sn hsn => hpending sn (ExtTreeMap.mem_of_mem_erase hsn))
        (hpending _ hmem)
    have hle := hdrained.le
    have hact : actsOn key (.sample next :: events) = .deliver (delivered + 1) :: actsOn key events := by
      rw [actsOn, List.filterMap_cons_some (actOn_named (hnamed _ _ hnext))]
      rfl
    refine ⟨last, rest, .sample next :: events, by simp [drain, hnext, heq],
      ⟨?_, fun other hne => ?_, by omega, hdrained.lt, fun sn h h' => ?_, fun sn => ?_⟩,
      fun hsize => hend ?_⟩
    · rw [hact]
      refine .deliver (fun l hl => .inl ?_) hdrained.follows
      cases hl
      exact hsucc
    · rw [actsOn, List.filterMap_cons_none (actOn_named_ne (hnamed _ _ hnext) hne)]
      exact hdrained.others other hne
    · rw [hact, delivers_deliver, List.mem_cons]
      by_cases hsn : sn.toNat = delivered.toNat + 1
      · exact .inl (UInt32.toNat_inj.mp (by omega))
      · exact .inr (hdrained.delivers sn (by omega) h')
    · rw [hdrained.rest, herase]
      split_ifs <;> first | rfl | omega
    · rw [ExtTreeMap.size_erase, if_pos (ExtTreeMap.mem_iff_contains.mp hmem)]
      omega

structure Worked (key : Key) (silent : Bool) (state : SourceState α) (events : List (Event α))
    (state' : SourceState α) : Prop where
  wellFormed : WellFormed key state'
  follows : Follows silent state.lastDelivered (actsOn key events) state'.lastDelivered
  others : ∀ other, key ≠ other → actsOn other events = []
  queries : state'.pendingQueries = state.pendingQueries

def Passed (state : SourceState α) (sn : UInt32) : Prop :=
  ∃ last, state.lastDelivered = some last ∧ sn.toNat ≤ last.toNat

variable {key : Key} {silent : Bool} {state : SourceState α} {sn : UInt32} {sample : Sample α}

theorem Worked.refl (h : WellFormed key state) : Worked key silent state [] state :=
  ⟨h, .nil _, fun _ _ => rfl, rfl⟩

/-- A delivery takes what follows with it. Of what stays behind, only what is not after the delivered
number can have been passed. -/
theorem exists_deliverAndFlush (h : WellFormed key state) (hsample : Named key sn sample)
    (hsn : sn.toNat < 2 ^ 32 - 1) (hadmits : Admits silent state.lastDelivered sn) :
    ∃ state' events, deliverAndFlush state sn sample = (state', events) ∧
      Worked key silent state events state' ∧ sn ∈ delivers (actsOn key events) ∧
      (∀ x ∈ state.pendingSamples, x ∈ state'.pendingSamples ∨ x ∈ delivers (actsOn key events)) ∧
      (∀ x ∈ state'.pendingSamples, x ∈ state.pendingSamples ∧
        (Passed state' x → x.toNat ≤ sn.toNat)) := by
  obtain ⟨last, rest, events, heq, hdrained, -⟩ := exists_drain silent state.pendingSamples.size
    h.named h.pending_lt hsn
  have hact : actsOn key (.sample sample :: events) = .deliver sn :: actsOn key events := by
    rw [actsOn, List.filterMap_cons_some (actOn_named hsample)]
    rfl
  have hrest : ∀ x ∈ rest, x ∈ state.pendingSamples ∧ ¬(sn.toNat < x.toNat ∧ x.toNat ≤ last.toNat) := by
    intro x hx
    rw [ExtTreeMap.mem_iff_isSome_getElem?, hdrained.rest] at hx
    split_ifs at hx with hdelivered
    · cases hx
    · exact ⟨ExtTreeMap.mem_iff_isSome_getElem?.mpr hx, hdelivered⟩
  refine ⟨{ state with lastDelivered := some last, pendingSamples := rest }, .sample sample :: events,
    by simp [deliverAndFlush, heq], ⟨⟨fun x s hx => ?_, fun x hx => ?_, fun l hl => ?_⟩, ?_,
    fun other hne => ?_, rfl⟩, by simp [hact], fun x hx => ?_, fun x hx => ⟨(hrest x hx).1, ?_⟩⟩
  · have hx : rest[x]? = some s := hx
    rw [hdrained.rest] at hx
    split_ifs at hx
    exact h.named x s hx
  · exact h.pending_lt x (hrest x hx).1
  · cases hl
    exact hdrained.lt
  · rw [hact]
    exact .deliver hadmits hdrained.follows
  · rw [actsOn, List.filterMap_cons_none (actOn_named_ne hsample hne)]
    exact hdrained.others other hne
  · by_cases hx' : sn.toNat < x.toNat ∧ x.toNat ≤ last.toNat
    · refine .inr ?_
      rw [hact, delivers_deliver]
      exact List.mem_cons_of_mem _ (hdrained.delivers x hx'.1 hx'.2)
    · refine .inl ?_
      change x ∈ rest
      rwa [ExtTreeMap.mem_iff_isSome_getElem?, hdrained.rest, if_neg hx',
        ← ExtTreeMap.mem_iff_isSome_getElem?]
  · rintro ⟨l, hl, hle⟩
    cases hl
    have := (hrest x hx).2
    omega

theorem actsOn_sample (hsample : Named key sn sample) :
    actsOn key [Event.sample sample] = [.deliver sn] := by
  rw [actsOn, List.filterMap_cons_some (actOn_named hsample)]
  rfl

theorem actsOn_sample_ne (hsample : Named key sn sample) {other : Key} (hne : key ≠ other) :
    actsOn other [Event.sample sample] = [] := by
  rw [actsOn, List.filterMap_cons_none (actOn_named_ne hsample hne)]
  rfl

theorem toNat_gap {last sn : UInt32} (h : last < sn) :
    (sn - last - 1).toNat = sn.toNat - last.toNat - 1 := by
  have hlt := UInt32.lt_iff_toNat_lt.mp h
  have hsub : (sn - last).toNat = sn.toNat - last.toNat :=
    UInt32.toNat_sub_of_le _ _ (UInt32.le_iff_toNat_le.mpr hlt.le)
  have hone : 1 ≤ sn - last := by
    rw [UInt32.le_iff_toNat_le, hsub, UInt32.toNat_one]
    omega
  rw [UInt32.toNat_sub_of_le _ _ hone, hsub, UInt32.toNat_one]

theorem actsOn_missed (silent : Bool) {source : EntityGlobalId} (hsource : source.key = key)
    (hsample : Named key sn sample) {last : UInt32} (hjump : last.toNat + 1 < sn.toNat) :
    let events := [Event.miss { source, nb := sn - last - 1 }, .sample sample]
    Follows silent (some last) (actsOn key events) (some sn) ∧
      sn ∈ delivers (actsOn key events) ∧ ∀ other, key ≠ other → actsOn other events = [] := by
  intro events
  have hacts : actsOn key events = [.miss (sn - last - 1), .deliver sn] := by
    rw [actsOn, List.filterMap_cons_some (by simp [actOn, hsource] : _ = some (Act.miss (sn - last - 1))),
      ← actsOn, actsOn_sample hsample]
  have hgap : last < sn := UInt32.lt_iff_toNat_lt.mpr (by omega)
  refine ⟨?_, by simp [hacts], fun other hne => ?_⟩
  · rw [hacts]
    exact .missed (by rw [toNat_gap hgap]; omega) (by rw [toNat_gap hgap]; omega) (.nil _)
  · rw [actsOn, List.filterMap_cons_none (by simp [actOn, hsource, hne]), ← actsOn,
      actsOn_sample_ne hsample hne]

/-- One buffered sample at a flush: it is delivered, with a report of the hole before it, or its number
has been passed. -/
theorem exists_flushOne (silent : Bool) {source : EntityGlobalId} (hsource : source.key = key)
    (hsample : Named key sn sample) {last : Option UInt32}
    (hlast : ∀ l, last = some l → l.toNat < 2 ^ 32 - 1) (events : List (Event α)) :
    ∃ last' more, flushOne source (last, events) (sn, sample) = (last', events ++ more) ∧
      Follows silent last (actsOn key more) last' ∧ (∀ other, key ≠ other → actsOn other more = []) ∧
      (last' = some sn ∧ sn ∈ delivers (actsOn key more) ∨
        last' = last ∧ ∃ l, last = some l ∧ sn.toNat ≤ l.toNat) := by
  have hfirst : Admits silent last sn →
      flushOne source (last, events) (sn, sample) = (some sn, events ++ [.sample sample]) →
      ∃ last' more, flushOne source (last, events) (sn, sample) = (last', events ++ more) ∧
        Follows silent last (actsOn key more) last' ∧ (∀ other, key ≠ other → actsOn other more = []) ∧
        (last' = some sn ∧ sn ∈ delivers (actsOn key more) ∨
          last' = last ∧ ∃ l, last = some l ∧ sn.toNat ≤ l.toNat) := by
    intro hadmits heq
    refine ⟨some sn, [.sample sample], heq, ?_, fun _ => actsOn_sample_ne hsample, .inl ⟨rfl, ?_⟩⟩
    · rw [actsOn_sample hsample]
      exact .deliver hadmits (.nil _)
    · simp [actsOn_sample hsample]
  rcases last with _ | last
  · exact hfirst (fun l hl => by cases hl) rfl
  by_cases hnext : sn = last + 1
  · refine hfirst (fun l hl => .inl ?_) (by simp [flushOne, hnext])
    cases hl
    rw [hnext, toNat_succ (hlast last rfl)]
  by_cases hgap : last < sn
  · have hjump : last.toNat + 1 < sn.toNat := by
      have hlt := UInt32.lt_iff_toNat_lt.mp hgap
      have hsucc := toNat_succ (hlast last rfl)
      have hne : sn.toNat ≠ last.toNat + 1 := fun heq => hnext (UInt32.toNat_inj.mp (by omega))
      omega
    obtain ⟨hfollows, hdelivered, hothers⟩ := actsOn_missed silent hsource hsample hjump
    exact ⟨some sn, _, by simp only [flushOne, hnext, hgap, ↓reduceIte], hfollows, hothers,
      .inl ⟨rfl, hdelivered⟩⟩
  · refine ⟨some last, [], by simp [flushOne, hnext, hgap], .nil _, fun _ _ => rfl,
      .inr ⟨rfl, last, rfl, ?_⟩⟩
    rw [UInt32.lt_iff_toNat_lt] at hgap
    omega

theorem exists_flush (silent : Bool) {source : EntityGlobalId} (hsource : source.key = key)
    (pending : List (UInt32 × Sample α)) (hsorted : pending.Pairwise fun a b => a.1.toNat < b.1.toNat)
    (hnamed : ∀ p ∈ pending, Named key p.1 p.2) (hlt : ∀ p ∈ pending, p.1.toNat < 2 ^ 32 - 1)
    {last : Option UInt32} (hlast : ∀ l, last = some l → l.toNat < 2 ^ 32 - 1)
    (events : List (Event α)) :
    ∃ last' more, pending.foldl (flushOne source) (last, events) = (last', events ++ more) ∧
      Follows silent last (actsOn key more) last' ∧ (∀ other, key ≠ other → actsOn other more = []) ∧
      (∀ l, last' = some l → l.toNat < 2 ^ 32 - 1) ∧
      ∀ p ∈ pending, p.1 ∈ delivers (actsOn key more) ∨ ∃ l, last = some l ∧ p.1.toNat ≤ l.toNat := by
  induction pending generalizing last events with
  | nil => exact ⟨last, [], by simp, .nil _, fun _ _ => rfl, hlast, by simp⟩
  | cons p pending ih =>
    obtain ⟨sn, sample⟩ := p
    obtain ⟨hafter, hsorted⟩ := List.pairwise_cons.mp hsorted
    obtain ⟨mid, first, heq, hfollows, hothers, hmid⟩ :=
      exists_flushOne silent hsource (hnamed (sn, sample) (by simp)) hlast events
    have hmidLast : ∀ l, mid = some l → l.toNat < 2 ^ 32 - 1 := by
      intro l hl
      rcases hmid with ⟨rfl, -⟩ | ⟨rfl, -⟩
      · cases hl
        exact hlt (sn, sample) (by simp)
      · exact hlast l hl
    obtain ⟨last', more, hrest, hmore, hothers', hlast', hall⟩ := ih hsorted
      (fun p hp => hnamed p (by simp [hp])) (fun p hp => hlt p (by simp [hp])) hmidLast (events ++ first)
    refine ⟨last', first ++ more, by rw [List.foldl_cons, heq, hrest, List.append_assoc], ?_,
      fun other hne => ?_, hlast', fun p hp => ?_⟩
    · rw [actsOn_append]
      exact hfollows.append hmore
    · rw [actsOn_append, hothers other hne, hothers' other hne]
      rfl
    · rw [actsOn_append, delivers_append, List.mem_append]
      rcases List.mem_cons.mp hp with rfl | hp
      · rcases hmid with ⟨-, hdelivered⟩ | ⟨-, hpassed⟩
        · exact .inl (.inl hdelivered)
        · exact .inr hpassed
      · rcases hall p hp with hdelivered | ⟨l, hl, hle⟩
        · exact .inl (.inr hdelivered)
        · rcases hmid with ⟨rfl, -⟩ | ⟨rfl, -⟩
          · cases hl
            have := hafter p hp
            omega
          · exact .inr ⟨l, hl, hle⟩

theorem sorted_pending (state : SourceState α) :
    state.pendingSamples.toList.Pairwise fun a b => a.1.toNat < b.1.toNat :=
  ExtTreeMap.ordered_keys_toList.imp fun {a b} (hlt : compare a.1 b.1 = .lt) =>
    UInt32.lt_iff_toNat_lt.mp (compareOfLessAndEq_eq_lt.mp hlt)

/-- A source is flushed: its buffer is empty, and whatever was in it is delivered unless it had been
passed before. -/
theorem exists_flushSequenced (silent : Bool) (h : WellFormed key state) :
    ∃ state' events, flushSequenced key state = some (state', events) ∧
      Worked key silent state events state' ∧ state'.pendingSamples = ∅ ∧
      ∀ x ∈ state.pendingSamples, x ∈ delivers (actsOn key events) ∨ Passed state x := by
  by_cases hempty : state.pendingSamples.isEmpty
  · refine ⟨state, [], by rw [flushSequenced, if_pos hempty], .refl h, ExtTreeMap.isEmpty_iff.mp hempty,
      fun x hx => ?_⟩
    rw [ExtTreeMap.isEmpty_iff.mp hempty] at hx
    exact absurd hx ExtTreeMap.not_mem_empty
  -- any buffered sample tells that the key is an identity
  obtain ⟨source, hnew, hkey⟩ : ∃ source, EntityGlobalId.new key.1 key.2 = some source ∧
      source.key = key := by
    obtain ⟨x, s, hx⟩ : ∃ (x : UInt32) (s : Sample α), state.pendingSamples[x]? = some s := by
      by_contra hcon
      push Not at hcon
      refine hempty (ExtTreeMap.isEmpty_iff.mpr (ExtTreeMap.ext_getElem? fun x => ?_))
      rcases hx : state.pendingSamples[x]? with _ | s
      · simp
      · exact absurd hx (hcon x s)
    obtain ⟨source, -, hkey⟩ := h.named x s hx
    refine ⟨source, ?_, hkey⟩
    rw [← hkey]
    exact dif_pos source.valid
  have hmem : ∀ p ∈ state.pendingSamples.toList, state.pendingSamples[p.1]? = some p.2 :=
    fun p hp => ExtTreeMap.mem_toList_iff_getElem?_eq_some.mp hp
  obtain ⟨last', more, heq, hfollows, hothers, hlast', hall⟩ := exists_flush silent hkey
    state.pendingSamples.toList (sorted_pending state) (fun p hp => h.named _ _ (hmem p hp)) (fun p hp => h.pending_lt _ (by
      rw [ExtTreeMap.mem_iff_isSome_getElem?, hmem p hp]; rfl)) h.last_lt []
  refine ⟨{ state with lastDelivered := last', pendingSamples := ∅ }, more, ?_,
    ⟨⟨by simp, by simp, hlast'⟩, hfollows, hothers, rfl⟩, rfl, fun x hx => ?_⟩
  · simp [flushSequenced, hempty, hnew, heq]
  · obtain ⟨s, hs⟩ := Option.isSome_iff_exists.mp (ExtTreeMap.mem_iff_isSome_getElem?.mp hx)
    exact hall (x, s) (ExtTreeMap.mem_toList_iff_getElem?_eq_some.mpr hs)

end WatchingZenoh.Subscriber
