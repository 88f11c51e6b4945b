import Mathlib.Data.List.Basic
import Mathlib.Data.List.Forall2

/-! Sequences of pattern items in which some items (`wide`) stand for any number of target
items. A target item may be `closed`: no wide item reaches across it, and a pattern item that
meets it meets nothing else. The last fact is what lets a search keep only its latest wide item
as a place to come back to (`Covers.of_later_frame`). -/

namespace WatchingZenoh.SuperWild

structure Alphabet (P T : Type*) where
  wide : P → Prop
  meets : P → T → Prop
  closed : T → Prop
  meets_closed : ∀ {p t t'}, meets p t → closed t → meets p t' → t' = t

variable {P T : Type*} {A : Alphabet P T}

/-- The target sequences a pattern sequence stands for. -/
inductive Covers (A : Alphabet P T) : List P → List T → Prop
  | nil : Covers A [] []
  | stop {p ps ts} : A.wide p → Covers A ps ts → Covers A (p :: ps) ts
  | take {p ps t ts} : A.wide p → ¬ A.closed t → Covers A (p :: ps) ts →
      Covers A (p :: ps) (t :: ts)
  | item {p ps t ts} : ¬ A.wide p → A.meets p t → Covers A ps ts → Covers A (p :: ps) (t :: ts)

theorem covers_nil_left {ts : List T} : Covers A [] ts ↔ ts = [] := by
  constructor
  · intro h
    cases h
    rfl
  · rintro rfl
    exact .nil

theorem covers_wide_cons {p : P} (hp : A.wide p) {ps : List P} {ts : List T} :
    Covers A (p :: ps) ts ↔
      Covers A ps ts ∨ ∃ t rest, ts = t :: rest ∧ ¬ A.closed t ∧ Covers A (p :: ps) rest := by
  constructor
  · intro h
    cases h with
    | stop _ h => exact .inl h
    | take _ ht h => exact .inr ⟨_, _, rfl, ht, h⟩
    | item hn _ _ => exact absurd hp hn
  · rintro (h | ⟨t, rest, rfl, ht, h⟩)
    · exact .stop hp h
    · exact .take hp ht h

theorem covers_item_cons {p : P} (hp : ¬ A.wide p) {ps : List P} {ts : List T} :
    Covers A (p :: ps) ts ↔ ∃ t rest, ts = t :: rest ∧ A.meets p t ∧ Covers A ps rest := by
  constructor
  · intro h
    cases h with
    | stop hw _ => exact absurd hw hp
    | take hw _ _ => exact absurd hw hp
    | item _ hm h => exact ⟨_, _, rfl, hm, h⟩
  · rintro ⟨t, rest, rfl, hm, h⟩
    exact .item hp hm h

theorem covers_item_cons_cons {p : P} (hp : ¬ A.wide p) {ps : List P} {t : T} {ts : List T} :
    Covers A (p :: ps) (t :: ts) ↔ A.meets p t ∧ Covers A ps ts := by
  rw [covers_item_cons hp]
  constructor
  · rintro ⟨_, _, h, hm, hc⟩
    obtain ⟨rfl, rfl⟩ := List.cons.inj h
    exact ⟨hm, hc⟩
  · rintro ⟨hm, hc⟩
    exact ⟨t, ts, rfl, hm, hc⟩

theorem covers_nil_right {ps : List P} : Covers A ps [] ↔ ∀ p ∈ ps, A.wide p := by
  induction ps with
  | nil => simp [covers_nil_left]
  | cons p ps ih =>
    by_cases hp : A.wide p
    · rw [covers_wide_cons hp, ih]
      simp [hp]
    · rw [covers_item_cons hp]
      simp [hp]

theorem covers_wide_split {p : P} (hp : A.wide p) {ps : List P} {ts : List T} :
    Covers A (p :: ps) ts ↔
      ∃ run rest, ts = run ++ rest ∧ (∀ t ∈ run, ¬ A.closed t) ∧ Covers A ps rest := by
  induction ts with
  | nil =>
    rw [covers_wide_cons hp]
    constructor
    · rintro (h | ⟨_, _, h, _⟩)
      · exact ⟨[], [], rfl, by simp, h⟩
      · simp at h
    · rintro ⟨run, rest, h, _, hc⟩
      obtain ⟨rfl, rfl⟩ : run = [] ∧ rest = [] := by simpa using h.symm
      exact .inl hc
  | cons t ts ih =>
    rw [covers_wide_cons hp]
    constructor
    · rintro (h | ⟨_, _, h, ht, hc⟩)
      · exact ⟨[], t :: ts, rfl, by simp, h⟩
      · obtain ⟨rfl, rfl⟩ := List.cons.inj h
        obtain ⟨run, rest, rfl, hr, hc⟩ := ih.mp hc
        exact ⟨t :: run, rest, rfl, by simpa using ⟨ht, hr⟩, hc⟩
    · rintro ⟨run, rest, h, hr, hc⟩
      cases run with
      | nil => exact .inl (by simpa [h] using hc)
      | cons t' run =>
        obtain ⟨rfl, rfl⟩ := List.cons.inj h
        refine .inr ⟨_, _, rfl, hr _ (by simp), ih.mpr ⟨run, rest, rfl, ?_, hc⟩⟩
        exact fun u hu => hr u (by simp [hu])

theorem covers_segment {seg ps : List P} (hseg : ∀ p ∈ seg, ¬ A.wide p) {ts : List T} :
    Covers A (seg ++ ps) ts ↔
      ∃ hit rest, ts = hit ++ rest ∧ List.Forall₂ A.meets seg hit ∧ Covers A ps rest := by
  induction seg generalizing ts with
  | nil => simp
  | cons p seg ih =>
    have hp : ¬ A.wide p := hseg p (by simp)
    have hrest : ∀ q ∈ seg, ¬ A.wide q := fun q hq => hseg q (by simp [hq])
    rw [List.cons_append, covers_item_cons hp]
    constructor
    · rintro ⟨t, rest, rfl, hm, hc⟩
      obtain ⟨hit, rest, rfl, hf, hc⟩ := (ih hrest).mp hc
      exact ⟨t :: hit, rest, rfl, .cons hm hf, hc⟩
    · rintro ⟨hit, rest, rfl, hf, hc⟩
      cases hf with
      | cons hm hf => exact ⟨_, _, rfl, hm, (ih hrest).mpr ⟨_, _, rfl, hf, hc⟩⟩

theorem segment_length_le {seg ps : List P} (hseg : ∀ p ∈ seg, ¬ A.wide p) {ts : List T}
    (h : Covers A (seg ++ ps) ts) : seg.length ≤ ts.length := by
  obtain ⟨hit, rest, rfl, hf, _⟩ := (covers_segment hseg).mp h
  simp [hf.length_eq]

/-- A segment met at the front of a sequence and met again behind a non-empty run without closed
items leaves no closed item in either: a closed item of the second meeting would repeat, one run
length further left, until it fell into the run. -/
theorem not_closed_of_shift {seg : List P} {hit hit' run ts rest : List T}
    (here : List.Forall₂ A.meets seg hit) (there : List.Forall₂ A.meets seg hit')
    (hrun : ∀ t ∈ run, ¬ A.closed t) (hne : run ≠ [])
    (same : hit ++ ts = run ++ (hit' ++ rest)) :
    ∀ t ∈ run ++ hit', ¬ A.closed t := by
  have hpos : 0 < run.length := List.length_pos_iff.mpr hne
  have key : ∀ (n : ℕ) (t : T), (run ++ hit')[n]? = some t → ¬ A.closed t := by
    intro n
    induction n using Nat.strongRecOn with
    | ind n ih =>
      intro t ht closed
      by_cases hn : n < run.length
      · rw [List.getElem?_append_left hn] at ht
        exact hrun t (List.mem_of_getElem? ht) closed
      · -- the item of the second meeting at `n` stands in the first one at `n - run.length`
        rw [List.getElem?_append_right (by omega)] at ht
        obtain ⟨hlt, rfl⟩ := List.getElem?_eq_some_iff.mp ht
        have hs : n - run.length < seg.length := there.length_eq ▸ hlt
        have hh : n - run.length < hit.length := here.length_eq ▸ hs
        have m' := there.get hs hlt
        have m := here.get hs hh
        have heq : hit[n - run.length] = hit'[n - run.length] := A.meets_closed m' closed m
        refine ih (n - run.length) (by omega) hit[n - run.length] ?_ (heq ▸ closed)
        have hinside : n - run.length < (run ++ hit').length := by
          simp only [List.length_append]
          omega
        have hsame : (hit ++ ts)[n - run.length]? = ((run ++ hit') ++ rest)[n - run.length]? := by
          rw [same, List.append_assoc]
        rw [List.getElem?_append_left hh, List.getElem?_append_left hinside] at hsame
        rw [← hsame, List.getElem?_eq_getElem hh]
  intro t ht
  obtain ⟨n, hn⟩ := List.mem_iff_getElem?.mp ht
  exact key n t hn

/-- Coming back to an earlier wide item never finds more than the latest one: if the segment
between the two has been met, whatever a later meeting of it leads to is already covered from the
first. -/
theorem Covers.of_later_frame {seg : List P} {hit hit' run ts rest : List T} {p : P} {ps : List P}
    (hp : A.wide p) (here : List.Forall₂ A.meets seg hit) (there : List.Forall₂ A.meets seg hit')
    (hrun : ∀ t ∈ run, ¬ A.closed t) (hne : run ≠ [])
    (same : hit ++ ts = run ++ (hit' ++ rest)) (h : Covers A (p :: ps) rest) :
    Covers A (p :: ps) ts := by
  have hopen := not_closed_of_shift here there hrun hne same
  have hlen : hit.length = hit'.length := here.length_eq ▸ there.length_eq
  obtain ⟨run', rfl⟩ : ∃ run', ts = run' ++ rest := by
    have hsuf : rest <:+ hit ++ ts := ⟨run ++ hit', by rw [same, List.append_assoc]⟩
    have hle : rest.length ≤ ts.length := by
      have := congrArg List.length same
      simp only [List.length_append] at this
      omega
    obtain ⟨run', h⟩ := List.suffix_of_suffix_length_le hsuf (List.suffix_append hit ts) hle
    exact ⟨run', h.symm⟩
  have hrun' : ∀ t ∈ run', ¬ A.closed t := by
    intro t ht
    apply hopen
    have : hit ++ run' = run ++ hit' := by
      have h3 : (hit ++ run') ++ rest = (run ++ hit') ++ rest := by
        simpa [List.append_assoc] using same
      exact List.append_cancel_right h3
    rw [← this]
    exact List.mem_append_right _ ht
  obtain ⟨more, tail, rfl, hmore, hc⟩ := (covers_wide_split hp).mp h
  refine (covers_wide_split hp).mpr ⟨run' ++ more, tail, by simp, ?_, hc⟩
  intro t ht
  rcases List.mem_append.mp ht with ht | ht
  · exact hrun' t ht
  · exact hmore t ht

section Rewriting

theorem covers_map {f : P → P} {ps : List P} {ts : List T} (hw : ∀ p ∈ ps, A.wide (f p) ↔ A.wide p)
    (hm : ∀ p ∈ ps, ∀ t ∈ ts, A.meets (f p) t ↔ A.meets p t) :
    Covers A (ps.map f) ts ↔ Covers A ps ts := by
  induction ps generalizing ts with
  | nil => rfl
  | cons p ps ih =>
    have hwp : A.wide (f p) ↔ A.wide p := hw p (by simp)
    have hrest : ∀ {us : List T}, (∀ u ∈ us, u ∈ ts) →
        (Covers A (ps.map f) us ↔ Covers A ps us) := fun hus =>
      ih (fun q hq => hw q (by simp [hq])) fun q hq u hu => hm q (by simp [hq]) u (hus u hu)
    rw [List.map_cons]
    by_cases hp : A.wide p
    · rw [covers_wide_split (hwp.mpr hp), covers_wide_split hp]
      refine exists_congr fun run => exists_congr fun rest => and_congr_right fun hts =>
        and_congr_right fun _ => hrest ?_
      exact fun u hu => by simp [hts, hu]
    · rw [covers_item_cons (mt hwp.mp hp), covers_item_cons hp]
      refine exists_congr fun t => exists_congr fun rest => and_congr_right fun hts =>
        and_congr (hm p (by simp) t (by simp [hts])) (hrest ?_)
      exact fun u hu => by simp [hts, hu]

theorem covers_append_congr {ps qs : List P} (h : ∀ ts, Covers A ps ts ↔ Covers A qs ts)
    (front : List P) (ts : List T) : Covers A (front ++ ps) ts ↔ Covers A (front ++ qs) ts := by
  induction front generalizing ts with
  | nil => exact h ts
  | cons p front ih =>
    rw [List.cons_append, List.cons_append]
    by_cases hp : A.wide p
    · simp only [covers_wide_split hp, ih]
    · simp only [covers_item_cons hp, ih]

theorem covers_wide_wide {p : P} (hp : A.wide p) {ps : List P} {ts : List T} :
    Covers A (p :: p :: ps) ts ↔ Covers A (p :: ps) ts := by
  constructor
  · intro h
    obtain ⟨run, rest, rfl, hrun, h⟩ := (covers_wide_split hp).mp h
    obtain ⟨more, rest, rfl, hmore, h⟩ := (covers_wide_split hp).mp h
    refine (covers_wide_split hp).mpr ⟨run ++ more, rest, by simp, ?_, h⟩
    exact fun t ht => (List.mem_append.mp ht).elim (hrun t) (hmore t)
  · exact .stop hp

/-- A wide item and an item that meets whatever is not closed change places: either way a
non-empty run is passed over. -/
theorem covers_swap {p q : P} (hp : A.wide p) (hq : ¬ A.wide q)
    (hmeets : ∀ t, A.meets q t ↔ ¬ A.closed t) {ps : List P} {ts : List T} :
    Covers A (p :: q :: ps) ts ↔ Covers A (q :: p :: ps) ts := by
  constructor
  · intro h
    obtain ⟨run, rest, rfl, hrun, h⟩ := (covers_wide_split hp).mp h
    obtain ⟨t, rest, rfl, ht, h⟩ := (covers_item_cons hq).mp h
    have hopen : ∀ u ∈ run ++ [t], ¬ A.closed u := by
      intro u hu
      rcases List.mem_append.mp hu with hu | hu
      · exact hrun u hu
      · rw [List.mem_singleton.mp hu]
        exact (hmeets t).mp ht
    obtain ⟨u, run', hrun'⟩ := List.exists_cons_of_ne_nil (show run ++ [t] ≠ [] by simp)
    rw [show run ++ t :: rest = u :: (run' ++ rest) by rw [← List.cons_append, ← hrun']; simp,
      covers_item_cons_cons hq, hmeets]
    rw [hrun'] at hopen
    exact ⟨hopen u (by simp),
      (covers_wide_split hp).mpr ⟨run', rest, rfl, fun v hv => hopen v (by simp [hv]), h⟩⟩
  · intro h
    obtain ⟨t, rest, rfl, ht, h⟩ := (covers_item_cons hq).mp h
    obtain ⟨run, rest, rfl, hrun, hc⟩ := (covers_wide_split hp).mp h
    rcases List.eq_nil_or_concat run with rfl | ⟨run, u, rfl⟩
    · exact .stop hp (.item hq ht hc)
    · refine (covers_wide_split hp).mpr ⟨t :: run, u :: rest, by simp, ?_, ?_⟩
      · intro v hv
        rcases List.mem_cons.mp hv with rfl | hv
        · exact (hmeets v).mp ht
        · exact hrun v (by simp [hv])
      · exact .item hq ((hmeets u).mpr (hrun u (by simp))) hc

end Rewriting

end WatchingZenoh.SuperWild
