import WatchingZenoh.PeerPerform

/-! The calls of the planner. Each one ends, whatever the host answers, and leaves every peer's books
matching its machine; and each dial it asks for is under a face of its own. -/

namespace WatchingZenoh.PeerPlanner

open KeyedRows

variable {K I T σ : Type} [LinearOrder K]

/-- The books of every peer match its machine. -/
structure Matched (S : Setting K I T σ) (s : Desk K I T σ) : Prop where
  sound : Sound S s
  fits : ∀ k, (s.planner.view k).Fits

variable {S : Setting K I T σ} {s s' s'' : Desk K I T σ} {key : K} {fuel : ℕ}

theorem Worked.matched (h : Worked S key s s') (hfits : ∀ k ≠ key, (s.planner.view k).Fits)
    (hself : (s'.planner.view key).Fits) : Matched S s' := by
  refine ⟨h.sound, fun k => ?_⟩
  by_cases hk : k = key
  · exact hk ▸ hself
  · exact h.others k hk ▸ hfits k hk

theorem View.Fits.cases {v : View I} (h : v.Fits) {st : PeerConnectionState}
    (hst : v.state = some st) :
    (st = .connecting ∧ v = ⟨some .connecting, 1, none, none⟩) ∨
    ((st = .established ∨ st = .passiveUp) ∧ ∃ id, v = ⟨some st, 0, some id, none⟩) ∨
    (st = .backoff ∧ ∃ g, v = ⟨some .backoff, 0, none, some g⟩) ∨
    (st ≠ .connecting ∧ st ≠ .established ∧ st ≠ .passiveUp ∧ st ≠ .backoff ∧
      v = ⟨some st, 0, none, none⟩) := by
  obtain ⟨state, running, held, armed⟩ := v
  obtain ⟨hrunning, hheld, harmed⟩ := h
  simp only at hst hrunning hheld harmed
  subst hst
  rcases held with _ | id <;> rcases armed with _ | g <;> cases st <;> simp_all

theorem View.Fits.of_none {v : View I} (h : v.Fits) (hst : v.state = none) :
    v = ⟨none, 0, none, none⟩ := by
  obtain ⟨state, running, held, armed⟩ := v
  obtain ⟨hrunning, hheld, harmed⟩ := h
  simp only at hst hrunning hheld harmed
  subst hst
  simp_all

theorem View.Fits.owes_manual {v : View I} (h : v.Fits) {st : PeerConnectionState}
    (hst : v.state = some st) {e : PeerConnectionEvent}
    (he : e = .manualStart ∨ e = .manualStartPassive ∨ e = .manualStop) :
    View.Owes (st.drive e).2 { v with state := some (st.drive e).1 } := by
  rcases h.cases hst with ⟨rfl, rfl⟩ | ⟨hst', id, rfl⟩ | ⟨rfl, g, rfl⟩ | ⟨hc, hes, hp, hb, rfl⟩
  · rcases he with rfl | rfl | rfl
    · exact .nothing _ h
    · exact .nothing _ h
    · exact .abandon 1
  · rcases hst' with rfl | rfl <;> rcases he with rfl | rfl | rfl
    · exact .nothing _ h
    · exact .nothing _ h
    · exact .close id
    · exact .reset id
    · exact .nothing _ h
    · exact .close id
  · rcases he with rfl | rfl | rfl
    · exact .nothing _ h
    · exact .nothing _ h
    · exact .cancel g
  · rcases he with rfl | rfl | rfl
    · cases st <;> first | exact .resolve | exact .nothing _ h | contradiction
    · cases st <;>
        first
        | exact .nothing _ h
        | exact .nothing _ (View.fits_bare (by decide) (by decide) (by decide) (by decide))
    · cases st <;>
        first
        | exact .nothing _ h
        | exact .nothing _ (View.fits_bare (by decide) (by decide) (by decide) (by decide))
        | exact .abandon 0
        | contradiction

theorem Matched.deliver_manual (h : Matched S s) (hfuel : 3 ≤ fuel) (lost : Bool)
    {e : PeerConnectionEvent} (he : e = .manualStart ∨ e = .manualStartPassive ∨ e = .manualStop)
    (key : K) :
    ∃ s', S.deliver fuel key e lost s = some s' ∧ Worked S key s s' ∧ Matched S s' := by
  rcases hst : s.planner.state key with _ | st
  · exact ⟨s, deliver_of_none lost fuel hst e, Worked.refl h.sound, h⟩
  · obtain ⟨s', hrun, hworked, hfits⟩ := deliver_of_owes h.sound lost hfuel hst e
      ((h.fits key).owes_manual hst he)
    exact ⟨s', hrun, hworked, hworked.matched (fun k _ => h.fits k) hfits⟩

/-! A peer is taken into the table. -/

/-- The idle peer whose entry a new peer is given. -/
def Setting.evicted (S : Setting K I T σ) (p : PeerPlanner K I) (key : K) : Option K :=
  if p.state key = none ∧ S.N ≤ p.entries.length then
    (p.entries.find? fun e => !e.2.inIntent).map Prod.fst
  else none

section Enter

variable {p p' : PeerPlanner K I}

/-- What is left of a table that took a peer in: the peer is idle in it, and a peer that made room for
it was idle. -/
structure Entered (S : Setting K I T σ) (key : K) (p p' : PeerPlanner K I) : Prop where
  keyed : Keyed p'.entries
  length_le : p'.entries.length ≤ S.N
  known : p'.state key ≠ none
  fresh : p.state key = none → p'.state key = some .idle
  same : p.state key ≠ none → p' = p
  others : ∀ k ≠ key, p'.state k = p.state k ∨
    (p.state k = some .idle ∧ p'.state k = none ∧ S.evicted p key = some k)
  books : p'.dials = p.dials ∧ p'.held = p.held ∧ p'.armed = p.armed ∧ p'.remotes = p.remotes

theorem wrote_concat {rows : List (K × PeerConnectionState)} (h : Keyed rows)
    (hlt : rows.length < S.N) (hnone : row rows key = none) :
    Wrote S.N rows key .idle (rows ++ [(key, .idle)]) := by
  have hset : (setRow S.N rows key .idle).1 = rows ++ [(key, .idle)] := by
    rcases findIdx_cases rows key with ⟨hidx, -⟩ | ⟨i, v, -, -, hrow⟩
    · simp [setRow, hidx, hlt]
    · simp [hnone] at hrow
  exact hset ▸ wrote_setRow h hlt.le (.inr hlt) .idle

theorem entered_of_takeEntry (h : Keyed p.entries) (hle : p.entries.length ≤ S.N)
    (hnone : p.state key = none) (htake : S.takeEntry p key = some p') : Entered S key p p' := by
  rw [Setting.takeEntry] at htake
  split_ifs at htake with hfull
  · rw [Option.map_eq_some_iff] at htake
    obtain ⟨i, hidx, rfl⟩ := htake
    obtain ⟨hi, hidle, hbefore⟩ := List.findIdx?_eq_some_iff_getElem.mp hidx
    have hget : p.entries[i]? = some ((p.entries[i]).1, (p.entries[i]).2) :=
      List.getElem?_eq_getElem hi
    have hvictim : (p.entries[i]).2 = .idle := by
      simpa [PeerConnectionState.inIntent] using hidle
    have hdrop := dropped_swapRemove h hget
    have hrow : p.state (p.entries[i]).1 = some .idle := by
      rw [PeerPlanner.state, row_eq_some_iff h, ← hvictim]
      exact List.getElem_mem hi
    have hkey : (p.entries[i]).1 ≠ key := fun heq => by simp [heq, hnone] at hrow
    have hlt : (swapRemove p.entries i).length < S.N := by
      have := (perm_swapRemove hget).length_eq
      rw [List.length_cons] at this
      omega
    have hmissing : row (swapRemove p.entries i) key = none :=
      (hdrop.row_ne key hkey.symm).trans hnone
    have hwrote := wrote_concat hdrop.keyed hlt hmissing
    refine ⟨hwrote.keyed, hwrote.length_le, ?_, fun _ => hwrote.row_self,
      fun hsome => absurd hnone hsome, fun k hk => ?_, rfl, rfl, rfl, rfl⟩
    · rw [PeerPlanner.state, hwrote.row_self]
      simp
    · rw [PeerPlanner.state, hwrote.row_ne k hk]
      by_cases hk' : k = (p.entries[i]).1
      · refine .inr ⟨hk' ▸ hrow, hk' ▸ hdrop.row_self, ?_⟩
        have hfind : p.entries.find? (fun e => !e.2.inIntent) = some p.entries[i] := by
          rw [List.find?_eq_some_iff_getElem]
          exact ⟨hidle, i, hi, rfl, fun j hj => by simpa using hbefore j hj⟩
        rw [Setting.evicted, if_pos ⟨hnone, hfull⟩, hfind, hk']
        rfl
      · exact .inl (hdrop.row_ne k hk')
  · cases htake
    have hwrote := wrote_concat h (Nat.lt_of_not_le hfull) hnone
    refine ⟨hwrote.keyed, hwrote.length_le, ?_, fun _ => hwrote.row_self,
      fun hsome => absurd hnone hsome, fun k hk => .inl (hwrote.row_ne k hk), rfl, rfl, rfl, rfl⟩
    rw [PeerPlanner.state, hwrote.row_self]
    simp

theorem entered_of_enter (h : Keyed p.entries) (hle : p.entries.length ≤ S.N)
    (henter : S.enter p key = some p') : Entered S key p p' := by
  rw [Setting.enter] at henter
  split_ifs at henter with hst
  · cases henter
    exact ⟨h, hle, hst, fun hnone => absurd hnone hst, fun _ => rfl, fun _ _ => .inl rfl, rfl, rfl, rfl,
      rfl⟩
  · exact entered_of_takeEntry h hle (not_not.mp hst) henter

theorem Entered.matched (hentered : Entered S key s.planner p') (h : Matched S s) :
    Matched S { s with planner := p' } := by
  obtain ⟨hdials, hheld, harmed, -⟩ := hentered.books
  have hfits : ∀ k, (p'.view k).Fits := fun k => by
    have hview : p'.view k = { s.planner.view k with state := p'.state k } := by
      simp only [PeerPlanner.view, hdials, hheld, harmed]
    by_cases hk : k = key
    · subst hk
      by_cases hst : s.planner.state k = none
      · rw [hview, (h.fits k).of_none hst, hentered.fresh hst]
        exact View.fits_bare (by decide) (by decide) (by decide) (by decide)
      · rw [hentered.same hst]
        exact h.fits k
    · rcases hentered.others k hk with hsame | ⟨hidle, hgone, -⟩
      · rw [hview, hsame]
        exact h.fits k
      · rcases (h.fits k).cases hidle with ⟨heq, -⟩ | ⟨heq, -⟩ | ⟨heq, -⟩ | ⟨-, -, -, -, heq⟩
        · simp at heq
        · simp at heq
        · simp at heq
        · rw [hview, heq, hgone]
          exact View.fits_bare (by decide) (by decide) (by decide) (by decide)
  refine ⟨{ h.sound with
      entries := hentered.keyed
      entries_le := hentered.length_le
      held := hheld ▸ h.sound.held
      held_le := hheld ▸ h.sound.held_le
      held_sub := fun k hk hnone => ?_
      armed := harmed ▸ h.sound.armed
      armed_le := harmed ▸ h.sound.armed_le
      armed_sub := fun k hk hnone => ?_
      faces := hdials ▸ h.sound.faces
      dials := hdials ▸ h.sound.dials
      retried := fun k g hg => h.sound.retried k g (harmed ▸ hg) }, hfits⟩
  · have hbare := (hfits k).of_none hnone
    exact hk (congrArg View.held hbare)
  · have hbare := (hfits k).of_none hnone
    exact hk (congrArg View.armed hbare)

end Enter

end WatchingZenoh.PeerPlanner
