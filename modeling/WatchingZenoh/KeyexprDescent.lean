import WatchingZenoh.KeyexprLanguage
import WatchingZenoh.Library.SuperWildPairs

/-! The two descents over a pair of patterns, memory and all, decide the walks of the abstract
layer: a memory that holds refuted pairs only never changes an answer, and every answer leaves
such a memory. -/

namespace WatchingZenoh.KeyexprDescent

open SuperWild KeyexprMatch KeyexprLanguage

structure Sound (width : ℕ) (spec : ℕ → ℕ → Prop) (r : Refuted) : Prop where
  columns : r.columns = width + 1
  refuted : ∀ i j, j ≤ width → r.holds i j = true → ¬ spec i j

/-- From any sound memory the descent answers `answer` and leaves a sound memory. -/
def Answers (width : ℕ) (spec : ℕ → ℕ → Prop) (answer : Prop) (f : Refuted → Bool × Refuted) :
    Prop :=
  ∀ r, Sound width spec r → ((f r).1 = true ↔ answer) ∧ Sound width spec (f r).2

variable {width : ℕ} {spec : ℕ → ℕ → Prop}

theorem sound_new (aLen width : ℕ) : Sound width spec (Refuted.new aLen width) :=
  ⟨rfl, fun i j _ h => by simp [Refuted.holds, Refuted.new] at h⟩

theorem pair_index_inj {i j i' j' : ℕ} (hj : j ≤ width) (hj' : j' ≤ width)
    (h : i * (width + 1) + j = i' * (width + 1) + j') : i = i' ∧ j = j' := by
  have hdiv := congrArg (· / (width + 1)) h
  have hmod := congrArg (· % (width + 1)) h
  simp only [Nat.mul_add_mod', Nat.mod_eq_of_lt (Nat.lt_succ_of_le hj),
    Nat.mod_eq_of_lt (Nat.lt_succ_of_le hj')] at hmod
  subst hmod
  have := Nat.add_right_cancel h
  exact ⟨Nat.eq_of_mul_eq_mul_right (by omega) this, rfl⟩

theorem holds_insert {r : Refuted} {i j i' j' : ℕ} (h : (r.insert i j).holds i' j' = true) :
    r.holds i' j' = true ∨ i' * r.columns + j' = i * r.columns + j := by
  rcases r with ⟨rows, columns, cleared, bits⟩
  cases cleared
  · simp only [Refuted.insert, Refuted.holds, Refuted.clear, Bool.false_eq_true, if_false,
      Bool.true_and, Nat.testBit_or, Nat.zero_testBit, Bool.false_or, Nat.one_shiftLeft,
      Nat.testBit_two_pow] at h
    exact .inr (by simpa using h : _ = _).symm
  · simp only [Refuted.insert, Refuted.holds, if_true, Bool.true_and, Nat.testBit_or,
      Nat.one_shiftLeft, Nat.testBit_two_pow, Bool.or_eq_true, decide_eq_true_eq] at h ⊢
    exact h.imp_right Eq.symm

theorem columns_insert (r : Refuted) (i j : ℕ) : (r.insert i j).columns = r.columns := by
  rcases r with ⟨rows, columns, cleared, bits⟩
  cases cleared <;> rfl

theorem sound_insert {r : Refuted} (h : Sound width spec r) {i j : ℕ} (hj : j ≤ width)
    (hno : ¬ spec i j) : Sound width spec (r.insert i j) := by
  refine ⟨by rw [columns_insert, h.columns], ?_⟩
  intro i' j' hj' hheld
  rcases holds_insert hheld with hheld | hindex
  · exact h.refuted i' j' hj' hheld
  · rw [h.columns] at hindex
    obtain ⟨rfl, rfl⟩ := pair_index_inj hj' hj hindex
    exact hno

theorem answers_expand {i j : ℕ} (hj : j ≤ width) {stop take : Prop}
    {stops takes : Refuted → Bool × Refuted} (hspec : spec i j ↔ stop ∨ take)
    (hstops : Answers width spec stop stops) (htakes : Answers width spec take takes) :
    Answers width spec (spec i j) (fun r => r.expand i j stops takes) := by
  intro r hr
  obtain ⟨hstop, hr1⟩ := hstops r hr
  obtain ⟨htake, hr2⟩ := htakes _ hr1
  simp only [Refuted.expand]
  split_ifs with hheld hfirst hsecond
  · exact ⟨by simpa using hr.refuted i j hj hheld, hr⟩
  · exact ⟨iff_of_true hfirst (hspec.mpr (.inl (hstop.mp hfirst))), hr1⟩
  · exact ⟨iff_of_true hsecond (hspec.mpr (.inr (htake.mp hsecond))), hr2⟩
  · have hno : ¬ spec i j := by
      rw [hspec]
      rintro (h | h)
      · exact hfirst (hstop.mpr h)
      · exact hsecond (htake.mpr h)
    exact ⟨by simpa using hno, sound_insert hr2 hj hno⟩

theorem answers_refusal {answer : Prop} (h : ¬ answer) :
    Answers width spec answer (fun r => (false, r)) :=
  fun _ hr => ⟨by simp [h], hr⟩

/-- The verbatim chunks are the reserved ones, and the two chunk tests are the pair's own. -/
def pairing : Pairing alphabet where
  reserved p := isVerbatimChunk p = true
  compat p q := chunkIntersects p q = true
  includes p q := chunkIncludes p q = true
  wide_not_reserved := by
    rintro p rfl
    decide
  closed_iff_reserved := by
    rintro p t (⟨rfl, h⟩ | h)
    · simp only [alphabet, h]
      decide
    · rcases (chunkMatches_iff p t).mp h with rfl | ⟨hp, ht, _⟩
      · rfl
      · simp [alphabet, hp, ht]

theorem answers_guarded {cond : Bool} {answer : Prop} (answer' : Prop) {f : Refuted → Bool × Refuted}
    (hyes : cond = true → (answer ↔ answer')) (hno : cond = false → ¬ answer)
    (hf : cond = true → Answers width spec answer' f) :
    Answers width spec answer (fun r => if cond then f r else (false, r)) := by
  cases cond with
  | false => simpa using answers_refusal (hno rfl)
  | true =>
    intro r hr
    rw [hyes rfl]
    simpa using hf rfl r hr

theorem drop_eq_nil_of_getElem? {α : Type*} {l : List α} {n : ℕ} (h : l[n]? = none) :
    l.drop n = [] :=
  List.drop_eq_nil_of_le (List.getElem?_eq_none_iff.mp h)

/-- A `**` moves on over the next chunk of the other side, unless there is none or it is
verbatim. -/
theorem answers_take {cs : List Chunk} {n : ℕ} (rest : List Chunk → Prop)
    {f : Refuted → Bool × Refuted}
    (hf : n < cs.length → Answers width spec (rest (cs.drop (n + 1))) f) :
    Answers width spec (∃ q tail, cs.drop n = q :: tail ∧ ¬ pairing.reserved q ∧ rest tail)
      (fun r => if (cs[n]?).any (!isVerbatimChunk ·) then f r else (false, r)) := by
  rcases hn : cs[n]? with _ | q
  · refine answers_guarded False (by simp) (fun _ => ?_) (by simp)
    simp [drop_eq_nil_of_getElem? hn]
  · have hlen : n < cs.length := (List.getElem?_eq_some_iff.mp hn).1
    refine answers_guarded (rest (cs.drop (n + 1))) (fun h => ?_) (fun h => ?_) fun _ => hf hlen
    · have hq : isVerbatimChunk q = false := by simpa using h
      rw [drop_eq_cons hn]
      simp [pairing, hq]
    · have hq : isVerbatimChunk q = true := by simpa using h
      rw [drop_eq_cons hn]
      simp [pairing, hq]

theorem not_wide_head {cs : List Chunk} {n : ℕ} (h : ¬ cs[n]? = some doubleStar) :
    ∀ p ∈ (cs.drop n).head?, ¬ alphabet.wide p := by
  intro p hp
  rw [List.head?_drop] at hp
  rintro rfl
  exact h hp

theorem intersectFrom_answers (a b : List Chunk) (i j : ℕ) (hj : j ≤ b.length) :
    Answers b.length (fun i j => Meet pairing (a.drop i) (b.drop j))
      (Meet pairing (a.drop i) (b.drop j)) (intersectFrom a b i j) := by
  induction h : (a.length - i) + (b.length - j) using Nat.strongRecOn generalizing i j with
  | ind n ih =>
    subst h
    by_cases hwa : a[i]? = some doubleStar
    · have hi := (List.getElem?_eq_some_iff.mp hwa).1
      have hstep : intersectFrom a b i j = fun r => r.expand i j (intersectFrom a b (i + 1) j)
          fun r => if (b[j]?).any (!isVerbatimChunk ·) then intersectFrom a b i (j + 1) r
            else (false, r) := by
        funext r
        rw [intersectFrom]
        simp [hwa]
      rw [hstep]
      refine answers_expand hj ?_ (ih _ (by omega) (i + 1) j hj rfl)
        (answers_take (Meet pairing (a.drop i) ·) fun hj' => ih _ (by omega) i (j + 1) hj' rfl)
      rw [drop_eq_cons hwa, meet_wide_left rfl]
    by_cases hwb : b[j]? = some doubleStar
    · have hj' := (List.getElem?_eq_some_iff.mp hwb).1
      have hstep : intersectFrom a b i j = fun r => r.expand i j (intersectFrom a b i (j + 1))
          fun r => if (a[i]?).any (!isVerbatimChunk ·) then intersectFrom a b (i + 1) j r
            else (false, r) := by
        funext r
        rw [intersectFrom]
        simp [hwa, hwb]
      rw [hstep]
      refine answers_expand hj ?_ (ih _ (by omega) i (j + 1) hj' rfl)
        (answers_take (Meet pairing · (b.drop j)) fun hi => ih _ (by omega) (i + 1) j hj rfl)
      rw [drop_eq_cons hwb, meet_wide_right (not_wide_head hwa) rfl]
    rcases ha : a[i]? with _ | p <;> rcases hb : b[j]? with _ | q
    · have hstep : intersectFrom a b i j = fun r => (true, r) := by
        funext r
        rw [intersectFrom]
        simp [ha, hb]
      rw [hstep, drop_eq_nil_of_getElem? ha, drop_eq_nil_of_getElem? hb]
      exact fun r hr => ⟨iff_of_true rfl .nil, hr⟩
    · have hq : q ≠ doubleStar := by simpa [hb] using hwb
      have hstep : intersectFrom a b i j = fun r => (false, r) := by
        funext r
        rw [intersectFrom]
        simp [ha, hb, hq]
      rw [hstep, drop_eq_nil_of_getElem? ha, drop_eq_cons hb]
      exact answers_refusal (not_meet_nil_cons hq)
    · have hp : p ≠ doubleStar := by simpa [ha] using hwa
      have hstep : intersectFrom a b i j = fun r => (false, r) := by
        funext r
        rw [intersectFrom]
        simp [ha, hb, hp]
      rw [hstep, drop_eq_nil_of_getElem? hb, drop_eq_cons ha]
      exact answers_refusal (not_meet_cons_nil hp)
    · have hp : p ≠ doubleStar := by simpa [ha] using hwa
      have hq : q ≠ doubleStar := by simpa [hb] using hwb
      have hj' := (List.getElem?_eq_some_iff.mp hb).1
      have hstep : intersectFrom a b i j = fun r =>
          if chunkIntersects p q then intersectFrom a b (i + 1) (j + 1) r else (false, r) := by
        funext r
        rw [intersectFrom]
        simp [ha, hb, hp, hq]
      have hmeet : Meet pairing (a.drop i) (b.drop j) ↔ chunkIntersects p q = true ∧
          Meet pairing (a.drop (i + 1)) (b.drop (j + 1)) := by
        rw [drop_eq_cons ha, drop_eq_cons hb, meet_item hp hq]
        rfl
      rw [hstep]
      refine answers_guarded (Meet pairing (a.drop (i + 1)) (b.drop (j + 1))) (fun h => ?_)
        (fun h => ?_) fun _ => ih _ (by omega) (i + 1) (j + 1) hj' rfl
      · rw [hmeet, and_iff_right h]
      · rw [hmeet]
        simp [h]

theorem includesFrom_answers (a b : List Chunk) (i j : ℕ) (hj : j ≤ b.length) :
    Answers b.length (fun i j => Includes pairing (a.drop i) (b.drop j))
      (Includes pairing (a.drop i) (b.drop j)) (includesFrom a b i j) := by
  induction h : (a.length - i) + (b.length - j) using Nat.strongRecOn generalizing i j with
  | ind n ih =>
    subst h
    by_cases hwa : a[i]? = some doubleStar
    · have hi := (List.getElem?_eq_some_iff.mp hwa).1
      have hstep : includesFrom a b i j = fun r => r.expand i j (includesFrom a b (i + 1) j)
          fun r => if (b[j]?).any (!isVerbatimChunk ·) then includesFrom a b i (j + 1) r
            else (false, r) := by
        funext r
        rw [includesFrom]
        simp [hwa]
      rw [hstep]
      refine answers_expand hj ?_ (ih _ (by omega) (i + 1) j hj rfl)
        (answers_take (Includes pairing (a.drop i) ·) fun hj' =>
          ih _ (by omega) i (j + 1) hj' rfl)
      rw [drop_eq_cons hwa, includes_wide rfl]
    rcases ha : a[i]? with _ | p <;> rcases hb : b[j]? with _ | q
    · have hstep : includesFrom a b i j = fun r => (true, r) := by
        funext r
        rw [includesFrom]
        simp [ha, hb]
      rw [hstep, drop_eq_nil_of_getElem? ha, drop_eq_nil_of_getElem? hb]
      exact fun r hr => ⟨iff_of_true rfl .nil, hr⟩
    · have hstep : includesFrom a b i j = fun r => (false, r) := by
        funext r
        rw [includesFrom]
        simp [ha, hb]
      rw [hstep, drop_eq_nil_of_getElem? ha, drop_eq_cons hb]
      exact answers_refusal not_includes_nil_cons
    · have hp : p ≠ doubleStar := by simpa [ha] using hwa
      have hstep : includesFrom a b i j = fun r => (false, r) := by
        funext r
        rw [includesFrom]
        simp [ha, hb, hp]
      rw [hstep, drop_eq_nil_of_getElem? hb, drop_eq_cons ha]
      exact answers_refusal (not_includes_cons_nil hp)
    · have hp : p ≠ doubleStar := by simpa [ha] using hwa
      have hj' := (List.getElem?_eq_some_iff.mp hb).1
      have hstep : includesFrom a b i j = fun r =>
          if q != doubleStar && chunkIncludes p q then includesFrom a b (i + 1) (j + 1) r
          else (false, r) := by
        funext r
        rw [includesFrom]
        by_cases hq : q = doubleStar
        · simp [ha, hb, hp, hq]
        · simp [ha, hb, hp, hq]
      have hincl : Includes pairing (a.drop i) (b.drop j) ↔
          (q != doubleStar && chunkIncludes p q) = true ∧
            Includes pairing (a.drop (i + 1)) (b.drop (j + 1)) := by
        rw [drop_eq_cons ha, drop_eq_cons hb, includes_item hp, Bool.and_eq_true, bne_iff_ne,
          and_assoc]
        rfl
      rw [hstep]
      refine answers_guarded (Includes pairing (a.drop (i + 1)) (b.drop (j + 1))) (fun h => ?_)
        (fun h => ?_) fun _ => ih _ (by omega) (i + 1) (j + 1) hj' rfl
      · rw [hincl, and_iff_right h]
      · rw [hincl]
        simp [h]

theorem keyexprIntersectPatterns_eq_true_iff (a b : List Chunk) :
    keyexprIntersectPatterns a b = true ↔
      Refuted.fits a.length b.length = true ∧ Meet pairing a b := by
  have h := (intersectFrom_answers a b 0 0 (by omega) _ (sound_new a.length b.length)).1
  simp only [List.drop_zero] at h
  unfold keyexprIntersectPatterns
  split_ifs with hfits
  · have hfits' : Refuted.fits a.length b.length = false := by simpa using hfits
    simp [hfits']
  · have hfits' : Refuted.fits a.length b.length = true := by simpa using hfits
    rw [h, hfits', and_iff_right rfl]

theorem keyexprIncludesPatterns_eq_true_iff (a b : List Chunk) :
    keyexprIncludesPatterns a b = true ↔
      Refuted.fits a.length b.length = true ∧ Includes pairing a b := by
  have h := (includesFrom_answers a b 0 0 (by omega) _ (sound_new a.length b.length)).1
  simp only [List.drop_zero] at h
  unfold keyexprIncludesPatterns
  split_ifs with hfits
  · have hfits' : Refuted.fits a.length b.length = false := by simpa using hfits
    simp [hfits']
  · have hfits' : Refuted.fits a.length b.length = true := by simpa using hfits
    rw [h, hfits', and_iff_right rfl]

end WatchingZenoh.KeyexprDescent
