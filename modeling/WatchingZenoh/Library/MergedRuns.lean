import Mathlib

/-! Sets of positions as runs: half-open stretches in rising order with a gap between each and the
next. A stretch is added by sorting it in and joining what touches. -/

namespace WatchingZenoh.MergedRuns

/-- A stretch, from its first position to the one past its last. -/
abbrev Stretch := ℕ × ℕ

def Covers (runs : List Stretch) (x : ℕ) : Prop := ∃ r ∈ runs, r.1 ≤ x ∧ x < r.2

instance instDecidableCovers (runs : List Stretch) (x : ℕ) : Decidable (Covers runs x) :=
  inferInstanceAs (Decidable (∃ _ ∈ _, _))

/-- Runs in rising order, with a gap between each and the next. -/
structure Apart (runs : List Stretch) : Prop where
  each : ∀ r ∈ runs, r.1 ≤ r.2
  gaps : runs.Pairwise fun r r' => r.2 < r'.1

def le (a b : Stretch) : Bool := decide (a.1 < b.1 ∨ (a.1 = b.1 ∧ a.2 ≤ b.2))

/-- A stretch in rising order is joined to the last one where it touches it. -/
def join (runs : List Stretch) (r : Stretch) : List Stretch :=
  match runs.getLast? with
  | some last => if r.1 ≤ last.2 then runs.dropLast ++ [(last.1, max last.2 r.2)] else runs ++ [r]
  | none => runs ++ [r]

def add (runs : List Stretch) (r : Stretch) : List Stretch :=
  ((runs ++ [r]).mergeSort le).foldl join []

/-- What joining keeps of the stretches it is given. -/
structure Joined (given runs : List Stretch) : Prop where
  apart : Apart runs
  covers : ∀ x, Covers runs x → Covers given x
  within : ∀ g ∈ given, ∃ r ∈ runs, r.1 ≤ g.1 ∧ g.2 ≤ r.2
  start : ∀ r ∈ runs, ∃ g ∈ given, g.1 = r.1
  stop : ∀ r ∈ runs, ∃ g ∈ given, g.2 = r.2

theorem joined_nil : Joined [] [] :=
  ⟨⟨by simp, by simp⟩, by simp [Covers], by simp, by simp, by simp⟩

theorem Covers.mono {runs runs' : List Stretch} {x : ℕ} (h : Covers runs x) (hsub : runs ⊆ runs') :
    Covers runs' x := by
  obtain ⟨r, hr, hx⟩ := h
  exact ⟨r, hsub hr, hx⟩

section Join

variable {given front : List Stretch} {r last : Stretch}

theorem Joined.push {runs : List Stretch} (h : Joined given runs) (hr : r.1 ≤ r.2)
    (hfar : ∀ p ∈ runs, p.2 < r.1) : Joined (given ++ [r]) (runs ++ [r]) := by
  have hgiven : given ⊆ given ++ [r] := List.subset_append_left _ _
  refine ⟨⟨fun p hp => ?_, ?_⟩, fun x hx => ?_, fun g hg => ?_, fun p hp => ?_, fun p hp => ?_⟩
  · rcases List.mem_append.mp hp with hp | hp
    · exact h.apart.each p hp
    · cases List.mem_singleton.mp hp
      exact hr
  · refine List.pairwise_append.mpr ⟨h.apart.gaps, List.pairwise_singleton _ _, fun p hp q hq => ?_⟩
    cases List.mem_singleton.mp hq
    exact hfar p hp
  · obtain ⟨p, hp, hx⟩ := hx
    rcases List.mem_append.mp hp with hp | hp
    · exact (h.covers x ⟨p, hp, hx⟩).mono hgiven
    · exact ⟨p, List.mem_append_right _ hp, hx⟩
  · rcases List.mem_append.mp hg with hg | hg
    · obtain ⟨p, hp, hin⟩ := h.within g hg
      exact ⟨p, List.mem_append_left _ hp, hin⟩
    · exact ⟨g, List.mem_append_right _ hg, le_rfl, le_rfl⟩
  · rcases List.mem_append.mp hp with hp | hp
    · obtain ⟨g, hg, heq⟩ := h.start p hp
      exact ⟨g, hgiven hg, heq⟩
    · exact ⟨p, List.mem_append_right _ hp, rfl⟩
  · rcases List.mem_append.mp hp with hp | hp
    · obtain ⟨g, hg, heq⟩ := h.stop p hp
      exact ⟨g, hgiven hg, heq⟩
    · exact ⟨p, List.mem_append_right _ hp, rfl⟩

theorem Joined.extend (h : Joined given (front ++ [last])) (hrising : ∀ g ∈ given, g.1 ≤ r.1)
    (htouch : r.1 ≤ last.2) : Joined (given ++ [r]) (front ++ [(last.1, max last.2 r.2)]) := by
  have hgiven : given ⊆ given ++ [r] := List.subset_append_left _ _
  have hlast : last ∈ front ++ [last] := by simp
  obtain ⟨hfront, -, hgap⟩ := List.pairwise_append.mp h.apart.gaps
  refine ⟨⟨fun p hp => ?_, ?_⟩, fun x hx => ?_, fun g hg => ?_, fun p hp => ?_, fun p hp => ?_⟩
  · rcases List.mem_append.mp hp with hp | hp
    · exact h.apart.each p (List.mem_append_left _ hp)
    · cases List.mem_singleton.mp hp
      exact (h.apart.each last hlast).trans (le_max_left _ _)
  · refine List.pairwise_append.mpr ⟨hfront, List.pairwise_singleton _ _, fun p hp q hq => ?_⟩
    cases List.mem_singleton.mp hq
    exact hgap p hp last (by simp)
  · obtain ⟨p, hp, hx₁, hx₂⟩ := hx
    rcases List.mem_append.mp hp with hp | hp
    · exact (h.covers x ⟨p, List.mem_append_left _ hp, hx₁, hx₂⟩).mono hgiven
    · cases List.mem_singleton.mp hp
      rcases Nat.lt_or_ge x last.2 with hlt | hge
      · exact (h.covers x ⟨last, hlast, hx₁, hlt⟩).mono hgiven
      · refine ⟨r, by simp, by omega, ?_⟩
        simp only [lt_max_iff] at hx₂
        omega
  · rcases List.mem_append.mp hg with hg | hg
    · obtain ⟨p, hp, hp₁, hp₂⟩ := h.within g hg
      rcases List.mem_append.mp hp with hp | hp
      · exact ⟨p, List.mem_append_left _ hp, hp₁, hp₂⟩
      · cases List.mem_singleton.mp hp
        exact ⟨(last.1, max last.2 r.2), by simp, hp₁, hp₂.trans (le_max_left _ _)⟩
    · cases List.mem_singleton.mp hg
      obtain ⟨g', hg', heq⟩ := h.start last hlast
      exact ⟨(last.1, max last.2 r.2), by simp, heq ▸ hrising g' hg', le_max_right _ _⟩
  · rcases List.mem_append.mp hp with hp | hp
    · obtain ⟨g, hg, heq⟩ := h.start p (List.mem_append_left _ hp)
      exact ⟨g, hgiven hg, heq⟩
    · cases List.mem_singleton.mp hp
      obtain ⟨g, hg, heq⟩ := h.start last hlast
      exact ⟨g, hgiven hg, heq⟩
  · rcases List.mem_append.mp hp with hp | hp
    · obtain ⟨g, hg, heq⟩ := h.stop p (List.mem_append_left _ hp)
      exact ⟨g, hgiven hg, heq⟩
    · cases List.mem_singleton.mp hp
      rcases le_total last.2 r.2 with hle | hle
      · exact ⟨r, by simp, (max_eq_right hle).symm⟩
      · obtain ⟨g, hg, heq⟩ := h.stop last hlast
        exact ⟨g, hgiven hg, heq.trans (max_eq_left hle).symm⟩

theorem Joined.join {runs : List Stretch} (h : Joined given runs) (hr : r.1 ≤ r.2)
    (hrising : ∀ g ∈ given, g.1 ≤ r.1) : Joined (given ++ [r]) (join runs r) := by
  rcases List.eq_nil_or_concat runs with rfl | ⟨front, last, rfl⟩
  · exact h.push hr (by simp)
  · rw [List.concat_eq_append] at h ⊢
    by_cases htouch : r.1 ≤ last.2
    · have hjoin : MergedRuns.join (front ++ [last]) r = front ++ [(last.1, max last.2 r.2)] := by
        simp [MergedRuns.join, htouch]
      rw [hjoin]
      exact h.extend hrising htouch
    · have hjoin : MergedRuns.join (front ++ [last]) r = front ++ [last] ++ [r] := by
        simp [MergedRuns.join, htouch]
      rw [hjoin]
      refine h.push hr fun p hp => ?_
      have hlastLe := h.apart.each last (by simp)
      rcases List.mem_append.mp hp with hp | hp
      · have := (List.pairwise_append.mp h.apart.gaps).2.2 p hp last (by simp)
        omega
      · cases List.mem_singleton.mp hp
        omega

theorem joined_foldl {rest : List Stretch} {runs : List Stretch} (h : Joined given runs)
    (hsorted : (given ++ rest).Pairwise fun a b => a.1 ≤ b.1) (heach : ∀ g ∈ rest, g.1 ≤ g.2) :
    Joined (given ++ rest) (rest.foldl MergedRuns.join runs) := by
  induction rest generalizing given runs with
  | nil => simpa using h
  | cons r rest ih =>
    obtain ⟨hr, heach⟩ := List.forall_mem_cons.mp heach
    have hrising : ∀ g ∈ given, g.1 ≤ r.1 := fun g hg =>
      (List.pairwise_append.mp hsorted).2.2 g hg r List.mem_cons_self
    have hsplit : given ++ r :: rest = given ++ [r] ++ rest := by simp
    rw [hsplit] at hsorted ⊢
    exact ih (h.join hr hrising) hsorted heach

end Join

theorem joined_add {runs : List Stretch} (h : Apart runs) {r : Stretch} (hr : r.1 ≤ r.2) :
    Joined (runs ++ [r]) (add runs r) := by
  have hperm : ((runs ++ [r]).mergeSort le).Perm (runs ++ [r]) := List.mergeSort_perm _ _
  have hsorted : ((runs ++ [r]).mergeSort le).Pairwise fun a b => a.1 ≤ b.1 := by
    have htrans : ∀ a b c, le a b → le b c → le a c := fun a b c => by
      simp only [le, decide_eq_true_eq]
      omega
    have htotal : ∀ a b, le a b || le b a := fun a b => by
      simp only [le, Bool.or_eq_true, decide_eq_true_eq]
      omega
    refine (List.pairwise_mergeSort htrans htotal (runs ++ [r])).imp fun hab => ?_
    simp only [le, decide_eq_true_eq] at hab
    omega
  have heach : ∀ g ∈ (runs ++ [r]).mergeSort le, g.1 ≤ g.2 := fun g hg => by
    rcases List.mem_append.mp (hperm.mem_iff.mp hg) with hg | hg
    · exact h.each g hg
    · cases List.mem_singleton.mp hg
      exact hr
  have hjoined := joined_foldl joined_nil (by simpa using hsorted) heach
  rw [List.nil_append] at hjoined
  have hmem : ∀ g, g ∈ (runs ++ [r]).mergeSort le ↔ g ∈ runs ++ [r] := fun g => hperm.mem_iff
  refine ⟨hjoined.apart, fun x hx => (hjoined.covers x hx).mono fun g => (hmem g).mp,
    fun g hg => hjoined.within g ((hmem g).mpr hg), fun p hp => ?_, fun p hp => ?_⟩
  · obtain ⟨g, hg, heq⟩ := hjoined.start p hp
    exact ⟨g, (hmem g).mp hg, heq⟩
  · obtain ⟨g, hg, heq⟩ := hjoined.stop p hp
    exact ⟨g, (hmem g).mp hg, heq⟩

theorem Joined.covers_iff {given runs : List Stretch} (h : Joined given runs) (x : ℕ) :
    Covers runs x ↔ Covers given x := by
  refine ⟨h.covers x, ?_⟩
  rintro ⟨g, hg, hx₁, hx₂⟩
  obtain ⟨r, hr, hr₁, hr₂⟩ := h.within g hg
  exact ⟨r, hr, hr₁.trans hx₁, hx₂.trans_le hr₂⟩

theorem covers_add_iff {runs : List Stretch} (h : Apart runs) {r : Stretch} (hr : r.1 ≤ r.2) (x : ℕ) :
    Covers (add runs r) x ↔ Covers runs x ∨ (r.1 ≤ x ∧ x < r.2) := by
  rw [(joined_add h hr).covers_iff]
  simp [Covers, List.mem_append, or_and_right, exists_or]

theorem stop_le_add_iff {runs : List Stretch} (h : Apart runs) {r : Stretch} (hr : r.1 ≤ r.2)
    (n : ℕ) : (∀ p ∈ add runs r, p.2 ≤ n) ↔ (∀ p ∈ runs, p.2 ≤ n) ∧ r.2 ≤ n := by
  have hjoined := joined_add h hr
  have hgiven : (∀ p ∈ runs ++ [r], p.2 ≤ n) ↔ (∀ p ∈ runs, p.2 ≤ n) ∧ r.2 ≤ n := by
    simp only [List.forall_mem_append, List.forall_mem_singleton]
  rw [← hgiven]
  constructor
  · intro hle g hg
    obtain ⟨p, hp, -, hstop⟩ := hjoined.within g hg
    exact hstop.trans (hle p hp)
  · intro hle p hp
    obtain ⟨g, hg, hstop⟩ := hjoined.stop p hp
    exact hstop ▸ hle g hg

theorem Apart.stop_le_iff {runs : List Stretch} (h : Apart runs) (n : ℕ) :
    (∀ p ∈ runs, p.2 ≤ n) ↔ ∀ last, runs.getLast? = some last → last.2 ≤ n := by
  rcases List.eq_nil_or_concat runs with rfl | ⟨front, last, rfl⟩
  · simp
  · rw [List.concat_eq_append] at h ⊢
    have hlast := h.each last (by simp)
    simp only [List.getLast?_concat, Option.some.injEq, forall_eq']
    refine ⟨fun hle => hle last (by simp), fun hle p hp => ?_⟩
    rcases List.mem_append.mp hp with hp | hp
    · have := (List.pairwise_append.mp h.gaps).2.2 p hp last (by simp)
      omega
    · cases List.mem_singleton.mp hp
      exact hle

theorem add_ne_nil (runs : List Stretch) (h : Apart runs) {r : Stretch} (hr : r.1 ≤ r.2) :
    add runs r ≠ [] := by
  obtain ⟨p, hp, -⟩ := (joined_add h hr).within r (by simp)
  exact List.ne_nil_of_mem hp

theorem eq_singleton_iff {runs : List Stretch} (h : Apart runs) (hne : runs ≠ []) {t : ℕ}
    (hbound : ∀ r ∈ runs, r.2 ≤ t) : runs = [(0, t)] ↔ ∀ x < t, Covers runs x := by
  constructor
  · rintro rfl x hx
    exact ⟨(0, t), by simp, Nat.zero_le _, hx⟩
  · intro hall
    obtain ⟨r, runs, rfl⟩ := List.exists_cons_of_ne_nil hne
    obtain ⟨hgap, -⟩ := List.pairwise_cons.mp h.gaps
    have hr := h.each r List.mem_cons_self
    have hrt := hbound r List.mem_cons_self
    have hrest : runs = [] := by
      rcases runs with - | ⟨r', runs⟩
      · rfl
      -- the position where the first run stops is in no run
      have hr' := h.each r' (by simp)
      have hrt' := hbound r' (by simp)
      have hgap' := hgap r' List.mem_cons_self
      obtain ⟨p, hp, hp₁, hp₂⟩ := hall r.2 (by omega)
      rcases List.mem_cons.mp hp with rfl | hp
      · omega
      · have := hgap p hp
        omega
    subst hrest
    have hpos : ∀ x < t, r.1 ≤ x ∧ x < r.2 := fun x hx => by simpa [Covers] using hall x hx
    rcases Nat.eq_zero_or_pos t with ht | ht
    · rw [List.singleton_inj, Prod.ext_iff]
      exact ⟨by omega, by omega⟩
    · have hfirst := hpos 0 ht
      have hlast := hpos (t - 1) (by omega)
      rw [List.singleton_inj, Prod.ext_iff]
      exact ⟨by omega, by omega⟩

def positions (runs : List Stretch) : Finset ℕ :=
  runs.foldr (fun r covered => Finset.Ico r.1 r.2 ∪ covered) ∅

theorem mem_positions {runs : List Stretch} {x : ℕ} : x ∈ positions runs ↔ Covers runs x := by
  induction runs with
  | nil => simp [positions, Covers]
  | cons r runs ih =>
    rw [positions, List.foldr_cons, Finset.mem_union, Finset.mem_Ico]
    rw [positions] at ih
    rw [ih]
    simp [Covers]

theorem card_positions {runs : List Stretch} (h : Apart runs) :
    (positions runs).card = (runs.map fun r => r.2 - r.1).sum := by
  induction runs with
  | nil => rfl
  | cons r runs ih =>
    obtain ⟨hgap, hgaps⟩ := List.pairwise_cons.mp h.gaps
    have hapart : Apart runs := ⟨fun p hp => h.each p (List.mem_cons_of_mem _ hp), hgaps⟩
    have hdisjoint : Disjoint (Finset.Ico r.1 r.2) (positions runs) := by
      refine Finset.disjoint_left.mpr fun x hx hin => ?_
      obtain ⟨p, hp, hp₁, -⟩ := mem_positions.mp hin
      have := (Finset.mem_Ico.mp hx).2
      have := hgap p hp
      omega
    calc (positions (r :: runs)).card
        = (Finset.Ico r.1 r.2 ∪ positions runs).card := rfl
      _ = (r.2 - r.1) + (positions runs).card := by
          rw [Finset.card_union_of_disjoint hdisjoint, Nat.card_Ico]
      _ = _ := by rw [ih hapart, List.map_cons, List.sum_cons]

end WatchingZenoh.MergedRuns
