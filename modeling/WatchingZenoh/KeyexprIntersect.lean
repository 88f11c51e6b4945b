import Mathlib.Data.List.Chain
import WatchingZenoh.KeyexprCommonChunk

/-! What the intersection test decides for two canonical key expressions: whether some key lies
under both. A verbatim chunk meets nothing but itself, so where both sides have one in the same
place the key repeats it, `$*` tokens and all. -/

namespace WatchingZenoh.KeyexprIntersect

open SuperWild KeyexprMatch KeyexprLanguage KeyexprGrammar KeyexprParts KeyexprDescent
open KeyexprCommonChunk KeyexprCanon KeyexprValidate

/-- The descent of `intersectFrom` with no memory to consult or to keep. -/
def intersectUnremembered (a b : List Chunk) (i j : ℕ) : Bool :=
  if a[i]? = none ∧ b[j]? = none then true
  else if a[i]? = some doubleStar then
    intersectUnremembered a b (i + 1) j ||
      if (b[j]?).any (!isVerbatimChunk ·) then intersectUnremembered a b i (j + 1) else false
  else if b[j]? = some doubleStar then
    intersectUnremembered a b i (j + 1) ||
      if (a[i]?).any (!isVerbatimChunk ·) then intersectUnremembered a b (i + 1) j else false
  else match a[i]?, b[j]? with
    | some x, some y =>
      if chunkIntersects x y then intersectUnremembered a b (i + 1) (j + 1) else false
    | _, _ => false
termination_by (a.length - i) + (b.length - j)
decreasing_by
  all_goals grind

theorem guarded_take_iff {cs : List Chunk} {n : ℕ} (rest : List Chunk → Prop) {met : Bool}
    (h : (cs[n]?).any (!isVerbatimChunk ·) = true → (met = true ↔ rest (cs.drop (n + 1)))) :
    (if (cs[n]?).any (!isVerbatimChunk ·) then met else false) = true ↔
      ∃ q tail, cs.drop n = q :: tail ∧ ¬ pairing.reserved q ∧ rest tail := by
  rcases hn : cs[n]? with _ | q
  · simp [drop_eq_nil_of_getElem? hn]
  · rw [hn] at h
    rw [drop_eq_cons hn]
    by_cases hq : isVerbatimChunk q = true
    · simp [hq, pairing]
    · rw [Bool.not_eq_true] at hq
      simpa [hq, pairing] using h

theorem intersectUnremembered_iff (a b : List Chunk) (i j : ℕ) :
    intersectUnremembered a b i j = true ↔ Meet pairing (a.drop i) (b.drop j) := by
  fun_induction intersectUnremembered a b i j with
  | case1 i j hnone =>
    rw [drop_eq_nil_of_getElem? hnone.1, drop_eq_nil_of_getElem? hnone.2]
    exact iff_of_true rfl .nil
  | case2 i j _ ha ih2 ih1 =>
    rw [Bool.or_eq_true, ih2, guarded_take_iff (Meet pairing (a.drop i) ·) ih1, drop_eq_cons ha,
      meet_wide_left rfl]
  | case3 i j _ ha hb ih2 ih1 =>
    rw [Bool.or_eq_true, ih2, guarded_take_iff (Meet pairing · (b.drop j)) ih1, drop_eq_cons hb,
      meet_wide_right (not_wide_head ha) rfl]
  | case4 i j _ ha hb p q hq hp hmeet ih =>
    have hpw : ¬ alphabet.wide p := not_wide_head ha p (by simp [hp])
    have hqw : ¬ alphabet.wide q := fun h => hb (by rw [hq, h])
    rw [ih, drop_eq_cons hp, drop_eq_cons hq, meet_item hpw hqw]
    exact (and_iff_right hmeet).symm
  | case5 i j _ ha hb p q hq hp hmeet =>
    have hpw : ¬ alphabet.wide p := not_wide_head ha p (by simp [hp])
    have hqw : ¬ alphabet.wide q := fun h => hb (by rw [hq, h])
    rw [drop_eq_cons hp, drop_eq_cons hq, meet_item hpw hqw]
    exact iff_of_false (by simp) fun h => hmeet h.1
  | case6 i j hnone ha hb hpair =>
    refine iff_of_false (by simp) ?_
    rcases hp : a[i]? with _ | p
    · rcases hq : b[j]? with _ | q
      · exact absurd ⟨hp, hq⟩ hnone
      · rw [drop_eq_nil_of_getElem? hp, drop_eq_cons hq]
        exact not_meet_nil_cons fun h => hb (by rw [hq, h])
    · rcases hq : b[j]? with _ | q
      · rw [drop_eq_nil_of_getElem? hq, drop_eq_cons hp]
        exact not_meet_cons_nil (not_wide_head ha p (by simp [hp]))
      · exact absurd hq fun hq => hpair p q hp hq

/-- A chunk of a key that may lie under two key expressions: a concrete one, or a verbatim chunk
that both have. -/
def SharedChunk (as bs : List Chunk) (c : Chunk) : Prop :=
  concreteChunk c = true ∨ (isVerbatimChunk c = true ∧ c ∈ as ∧ c ∈ bs)

def SharedKey (a b k : Bytes) : Prop :=
  ∀ c ∈ Text.chunks k, SharedChunk (Text.chunks a) (Text.chunks b) c

/-- What the key is built from: shared chunks that can stand in a text. -/
structure Good (a b : Bytes) (t : Chunk) : Prop where
  shared : SharedChunk (Text.chunks a) (Text.chunks b) t
  nonempty : t ≠ []
  free : slash ∉ t
  encoded : Utf8.Encoded a → Utf8.Encoded b → Utf8.Encoded t

variable {a b : Bytes}

theorem good_of_concrete {t : Chunk} (h : concreteChunk t = true)
    (henc : Utf8.Encoded a → Utf8.Encoded b → Utf8.Encoded t) : Good a b t := by
  refine ⟨.inl h, ne_nil_of_concrete h, fun hs => ?_, henc⟩
  exact absurd (plain_of_concrete h hs) (by decide)

theorem good_of_common {p q t : Chunk} (h : Common p q t)
    (hp : Utf8.Encoded a → Utf8.Encoded b → Utf8.Encoded p)
    (hq : Utf8.Encoded a → Utf8.Encoded b → Utf8.Encoded q) : Good a b t :=
  good_of_concrete h.concrete fun ha hb => h.encoded (hp ha hb) (hq ha hb)

theorem exists_good_cover (ha : Canonical (Text.chunks a)) (hb : Canonical (Text.chunks b))
    (h : Meet pairing (Text.chunks a) (Text.chunks b)) :
    ∃ ts, (∀ t ∈ ts, Good a b t) ∧ Covers alphabet (Text.chunks a) ts ∧
      Covers alphabet (Text.chunks b) ts := by
  have henc : ∀ p, p ∈ Text.chunks a ∨ p ∈ Text.chunks b →
      Utf8.Encoded a → Utf8.Encoded b → Utf8.Encoded p :=
    fun p hp ha hb => hp.elim (encoded_chunks ha p) (encoded_chunks hb p)
  refine h.exists_common ?_ ?_
  · intro p hp hw hres
    have hc : canonChunk p = true := hp.elim (ha.chunk p) (hb.chunk p)
    obtain ⟨t, ht⟩ := exists_common_self hc hw (by simpa [pairing] using hres)
    exact ⟨t, good_of_common ht (henc p hp) (henc p hp), ht.left⟩
  · intro p hp q hq hpw hqw hmeet
    by_cases hv : isVerbatimChunk p = true ∨ isVerbatimChunk q = true
    · -- a verbatim chunk passes the test only against itself
      obtain rfl : p = q := by
        by_contra hne
        have hno : chunkIntersects p q = false := by
          unfold chunkIntersects
          rw [if_neg hne, if_pos (by simpa using hv)]
        exact absurd hmeet (by simp [pairing, hno])
      have hgood : Good a b p :=
        ⟨.inr ⟨hv.elim id id, hp, hq⟩, ne_nil_of_canonChunk (ha.chunk p hp),
          Text.slash_not_mem_of_mem_chunks hp, henc p (.inl hp)⟩
      exact ⟨p, hgood, meets_self p, meets_self p⟩
    · obtain ⟨t, ht⟩ := exists_common (ha.chunk p hp) (hb.chunk q hq) hpw hqw
        (by simpa using fun h => hv (.inl h)) (by simpa using fun h => hv (.inr h)) hmeet
      exact ⟨t, good_of_common ht (henc p (.inl hp)) (henc q (.inr hq)), ht.left, ht.right⟩

theorem exists_good_cover_nonempty (ha : Canonical (Text.chunks a)) (hb : Canonical (Text.chunks b))
    (h : Meet pairing (Text.chunks a) (Text.chunks b)) :
    ∃ ts, ts ≠ [] ∧ (∀ t ∈ ts, Good a b t) ∧ Covers alphabet (Text.chunks a) ts ∧
      Covers alphabet (Text.chunks b) ts := by
  obtain ⟨ts, hgood, hl, hr⟩ := exists_good_cover ha hb h
  by_cases hne : ts = []
  · subst hne
    have hcover : ∀ {cs : List Chunk}, cs ≠ [] → Covers alphabet cs [] →
        Covers alphabet cs [[filler]] := by
      intro cs hcs hc
      obtain ⟨p, ps, rfl⟩ := List.exists_cons_of_ne_nil hcs
      exact .take (covers_nil_right.mp hc p (by simp)) (by simp [alphabet, isVerbatimChunk]; decide)
        hc
    have hfiller : Good a b [filler] :=
      good_of_concrete (by decide) fun _ _ => ⟨['x'], by decide⟩
    exact ⟨[[filler]], by simp, by simpa using hfiller, hcover ha.nonempty hl,
      hcover hb.nonempty hr⟩
  · exact ⟨ts, hne, hgood, hl, hr⟩

theorem exists_sharedKey (ha : Canonical (Text.chunks a)) (hb : Canonical (Text.chunks b))
    (h : Meet pairing (Text.chunks a) (Text.chunks b)) :
    ∃ k, SharedKey a b k ∧ (Utf8.Encoded a → Utf8.Encoded b → Utf8.Encoded k) ∧
      keyexprPatternMatches (Text.chunks a) k = true ∧
      keyexprPatternMatches (Text.chunks b) k = true := by
  obtain ⟨ts, hne, hgood, hl, hr⟩ := exists_good_cover_nonempty ha hb h
  have hchunks : Text.chunks (Text.join ts) = ts :=
    Text.chunks_join (fun t ht => (hgood t ht).free) hne
  refine ⟨Text.join ts, ?_, ?_, ?_, ?_⟩
  · rw [SharedKey, hchunks]
    exact fun t ht => (hgood t ht).shared
  · exact fun hea heb => encoded_join fun t ht => (hgood t ht).encoded hea heb
  · rw [keyexprPatternMatches_iff, hchunks]
    exact ⟨fun t ht => (hgood t ht).nonempty, hl⟩
  · rw [keyexprPatternMatches_iff, hchunks]
    exact ⟨fun t ht => (hgood t ht).nonempty, hr⟩

theorem meet_of_key {k : Bytes} (ha : keyexprPatternMatches (Text.chunks a) k = true)
    (hb : keyexprPatternMatches (Text.chunks b) k = true) :
    Meet pairing (Text.chunks a) (Text.chunks b) :=
  meet_of_common (fun _ _ => chunkIntersects_of_meets) ((keyexprPatternMatches_iff _ _).mp ha).2
    ((keyexprPatternMatches_iff _ _).mp hb).2

theorem fits_comm (m n : ℕ) : Refuted.fits m n = Refuted.fits n m := by
  simp only [Refuted.fits, Nat.mul_comm (m + 1), Bool.and_comm (decide (m + 1 ≤ usizeMax))]

theorem intersect_iff_sharedKey (ha : Canonical (Text.chunks a)) (hb : Canonical (Text.chunks b)) :
    keyexprIntersectPatterns (Text.chunks a) (Text.chunks b) = true ↔
      Refuted.fits (Text.chunks a).length (Text.chunks b).length = true ∧
        ∃ k, SharedKey a b k ∧ (Utf8.Encoded a → Utf8.Encoded b → Utf8.Encoded k) ∧
          keyexprPatternMatches (Text.chunks a) k = true ∧
          keyexprPatternMatches (Text.chunks b) k = true := by
  rw [keyexprIntersectPatterns_eq_true_iff]
  refine and_congr_right fun _ => ⟨exists_sharedKey ha hb, ?_⟩
  rintro ⟨k, _, _, hka, hkb⟩
  exact meet_of_key hka hkb

theorem meet_comm (ha : Canonical (Text.chunks a)) (hb : Canonical (Text.chunks b)) :
    Meet pairing (Text.chunks a) (Text.chunks b) ↔
      Meet pairing (Text.chunks b) (Text.chunks a) := by
  constructor
  · intro h
    obtain ⟨k, _, _, hka, hkb⟩ := exists_sharedKey ha hb h
    exact meet_of_key hkb hka
  · intro h
    obtain ⟨k, _, _, hkb, hka⟩ := exists_sharedKey hb ha h
    exact meet_of_key hka hkb

/-- The intersection test on canonical key expressions: a key under both, symmetry, and no trace of
the memory, as long as the pairs of suffixes can be counted. -/
theorem keyexprIntersectPatterns_iff (a b : Bytes) (ha : validateKeyexpr a = .ok ())
    (hb : validateKeyexpr b = .ok ()) :
    (keyexprIntersectPatterns (Text.chunks a) (Text.chunks b) = true ↔
        Refuted.fits (Text.chunks a).length (Text.chunks b).length = true ∧
          ∃ k, SharedKey a b k ∧ (Utf8.Encoded a → Utf8.Encoded b → Utf8.Encoded k) ∧
            keyexprPatternMatches (Text.chunks a) k = true ∧
            keyexprPatternMatches (Text.chunks b) k = true) ∧
      keyexprIntersectPatterns (Text.chunks a) (Text.chunks b) =
        keyexprIntersectPatterns (Text.chunks b) (Text.chunks a) ∧
      keyexprIntersectPatterns (Text.chunks a) (Text.chunks b) =
        (Refuted.fits (Text.chunks a).length (Text.chunks b).length &&
          intersectUnremembered (Text.chunks a) (Text.chunks b) 0 0) := by
  rw [validateKeyexpr_ok_iff] at ha hb
  refine ⟨intersect_iff_sharedKey ha hb, ?_, ?_⟩
  · rw [Bool.eq_iff_iff, keyexprIntersectPatterns_eq_true_iff,
      keyexprIntersectPatterns_eq_true_iff, fits_comm, meet_comm ha hb]
  · rw [Bool.eq_iff_iff, keyexprIntersectPatterns_eq_true_iff, Bool.and_eq_true,
      intersectUnremembered_iff]
    rfl

/-- `a$*` and `$*b` meet, for one at a key made of both anchors. -/
theorem keyexprIntersectPatterns_iff_anchors :
    validateKeyexpr [0x61, dollar, star] = .ok () ∧ validateKeyexpr [dollar, star, 0x62] = .ok () ∧
      ∃ k, SharedKey [0x61, dollar, star] [dollar, star, 0x62] k ∧
        keyexprPatternMatches (Text.chunks [0x61, dollar, star]) k = true ∧
        keyexprPatternMatches (Text.chunks [dollar, star, 0x62]) k = true := by
  have ha : validateKeyexpr [0x61, dollar, star] = .ok () := by decide +kernel
  have hb : validateKeyexpr [dollar, star, 0x62] = .ok () := by decide +kernel
  have htrue : keyexprIntersectPatterns (Text.chunks [0x61, dollar, star])
      (Text.chunks [dollar, star, 0x62]) = true := by decide +kernel
  obtain ⟨_, k, hk, _, hka, hkb⟩ := (keyexprIntersectPatterns_iff _ _ ha hb).1.mp htrue
  exact ⟨ha, hb, k, hk, hka, hkb⟩

/-- A key of `n` one-byte chunks. -/
def longKey (n : ℕ) : Bytes := Text.join (List.replicate n [filler])

theorem chunks_longKey {n : ℕ} (hn : n ≠ 0) : Text.chunks (longKey n) = List.replicate n [filler] := by
  refine Text.chunks_join (fun c hc => ?_) (by simp [hn])
  rw [List.eq_of_mem_replicate hc]
  decide

theorem validate_longKey {n : ℕ} (hn : n ≠ 0) : validateKeyexpr (longKey n) = .ok () := by
  have hmem : ∀ c ∈ List.replicate n [filler], c = [filler] := fun c => List.eq_of_mem_replicate
  rw [validateKeyexpr_ok_iff, chunks_longKey hn]
  refine ⟨by simp [hn], fun c hc => ?_, ?_⟩
  · rw [hmem c hc]
    decide
  · refine List.isChain_replicate_of_rel n ?_
    intro h
    exact absurd h (by decide)

theorem concreteKey_longKey {n : ℕ} (hn : n ≠ 0) : ConcreteKey (longKey n) := by
  intro c hc
  rw [chunks_longKey hn] at hc
  rw [List.eq_of_mem_replicate hc]
  decide

theorem matches_longKey {n : ℕ} (hn : n ≠ 0) :
    keyexprPatternMatches (Text.chunks (longKey n)) (longKey n) = true := by
  rw [keyexprPatternMatches_iff]
  refine ⟨fun c hc => ne_nil_of_concrete (concreteKey_longKey hn c hc), ?_⟩
  rw [chunks_longKey hn]
  clear hn
  induction n with
  | zero => exact .nil
  | succ n ih =>
    rw [List.replicate_succ]
    exact .item (by simp [alphabet]) (meets_self _) ih

/-- The two ways the test and the concrete keys part: the verbatim chunk `@$*` meets itself though
no concrete key lies under it, and a key of `2 ^ 32` chunks has too many pairs to be counted. -/
theorem not_keyexprIntersectPatterns_iff_concrete :
    (¬ ∀ a b, validateKeyexpr a = .ok () → validateKeyexpr b = .ok () →
      keyexprIntersectPatterns (Text.chunks a) (Text.chunks b) = true →
        ∃ k, ConcreteKey k ∧ keyexprPatternMatches (Text.chunks a) k = true ∧
          keyexprPatternMatches (Text.chunks b) k = true) ∧
      ¬ ∀ a b, validateKeyexpr a = .ok () → validateKeyexpr b = .ok () →
        (∃ k, ConcreteKey k ∧ keyexprPatternMatches (Text.chunks a) k = true ∧
          keyexprPatternMatches (Text.chunks b) k = true) →
          keyexprIntersectPatterns (Text.chunks a) (Text.chunks b) = true := by
  constructor
  · intro h
    have hv : validateKeyexpr [atSign, dollar, star] = .ok () := by decide +kernel
    have htrue : keyexprIntersectPatterns (Text.chunks [atSign, dollar, star])
        (Text.chunks [atSign, dollar, star]) = true := by decide +kernel
    obtain ⟨k, hk, hmatch, _⟩ := h _ _ hv hv htrue
    have hcovers := ((keyexprPatternMatches_iff _ _).mp hmatch).2
    rw [Text.chunks_of_free (by decide), covers_item_cons (by simp [alphabet])] at hcovers
    obtain ⟨t, rest, hchunks, hmeets, _⟩ := hcovers
    have ht : concreteChunk t = true := hk t (by simp [hchunks])
    rcases meets_cases hmeets with rfl | ⟨hverb, _⟩
    · exact absurd ht (by decide)
    · exact absurd hverb (by decide)
  · intro h
    have hn : 2 ^ 32 ≠ 0 := by decide
    have hv := validate_longKey hn
    have hmatch := matches_longKey hn
    have htrue := h _ _ hv hv ⟨longKey (2 ^ 32), concreteKey_longKey hn, hmatch, hmatch⟩
    rw [keyexprIntersectPatterns_eq_true_iff, chunks_longKey hn, List.length_replicate] at htrue
    exact absurd htrue.1 (by decide +kernel)

end WatchingZenoh.KeyexprIntersect
