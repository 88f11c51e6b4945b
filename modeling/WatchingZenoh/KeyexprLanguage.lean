import Mathlib.Data.List.TakeWhile
import WatchingZenoh.KeyexprMatch
import WatchingZenoh.Library.SuperWild

/-! What the matcher decides. A chunk with `$*` spells the words made of its parts in order; a
pattern covers the chunk sequences in which each `**` absorbs a run without a verbatim chunk.
`matchesChunks` answers exactly the second, for every pattern, canonical or not. -/

namespace WatchingZenoh.KeyexprLanguage

open KeyexprMatch Gaps SuperWild

theorem splitDsl_ne_nil (c : Chunk) : splitDsl c ≠ [] := by
  fun_induction splitDsl c with
  | case1 => simp
  | case2 a b rest _ ih => simpa using ih
  | case3 => simp
  | case4 => simp

theorem splitDsl_of_not_containsDsl {c : Chunk} (h : containsDsl c = false) :
    splitDsl c = [c] := by
  fun_induction splitDsl c with
  | case1 a b rest hab => simp [containsDsl, hab.1, hab.2] at h
  | case2 a b rest _ ih =>
    simp only [containsDsl, Bool.or_eq_false_iff] at h
    simp [ih h.2]
  | case3 => rfl
  | case4 => rfl

theorem exists_parts_of_containsDsl {c : Chunk} (h : containsDsl c = true) :
    ∃ lead mids trail, splitDsl c = lead :: (mids ++ [trail]) := by
  have two : ∃ p q rest, splitDsl c = p :: q :: rest := by
    fun_induction splitDsl c with
    | case1 a b rest _ =>
      obtain ⟨q, rest', hs⟩ := List.exists_cons_of_ne_nil (splitDsl_ne_nil rest)
      exact ⟨[], q, rest', by rw [hs]⟩
    | case2 a b rest hab ih =>
      have hrest : containsDsl (b :: rest) = true := by
        simpa [containsDsl, hab] using h
      obtain ⟨p, q, rest', hs⟩ := ih hrest
      exact ⟨a :: p, q, rest', by rw [hs]; rfl⟩
    | case3 => simp [containsDsl] at h
    | case4 => simp [containsDsl] at h
  obtain ⟨p, q, rest, hs⟩ := two
  exact ⟨p, (q :: rest).dropLast, (q :: rest).getLast (by simp), by
    rw [hs, List.dropLast_append_getLast]⟩

theorem matchParts_iff {parts : List Bytes} (hne : parts ≠ []) (w : Bytes) :
    matchParts parts w = true ↔ Trails parts w := by
  fun_induction matchParts parts w with
  | case1 => exact absurd rfl hne
  | case2 part remaining =>
    rw [trails_singleton]
    constructor
    · intro h
      rcases (Bool.or_eq_true _ _).mp h with h | h
      · simp [List.isEmpty_iff.mp h]
      · exact List.isSuffixOf_iff_suffix.mp (by simp_all)
    · intro h
      simp [List.isSuffixOf_iff_suffix.mpr h, h.length_le]
  | case3 part next parts remaining hpart ih =>
    obtain rfl := List.isEmpty_iff.mp hpart
    have hnext : next :: parts ≠ [] := by simp
    rw [ih hnext, trails_cons hnext]
    constructor
    · intro h
      exact ⟨[], remaining, rfl, h⟩
    · rintro ⟨gap, v, rfl, h⟩
      exact Trails.mono h ⟨gap, rfl⟩
  | case4 part next parts remaining _ pos hpos ih =>
    rw [ih (by simp), trails_of_firstAt (by simp) hpos]
  | case5 part next parts remaining _ hpos =>
    simpa using not_trails_of_firstAt (by simp) hpos

theorem chunkMatchesWithDsl_iff {pattern : Chunk} (h : containsDsl pattern = true)
    (target : Chunk) :
    chunkMatchesWithDsl pattern target = true ↔ Spells (splitDsl pattern) target := by
  obtain ⟨lead, mids, trail, hs⟩ := exists_parts_of_containsDsl h
  have hne : mids ++ [trail] ≠ [] := by simp
  simp only [chunkMatchesWithDsl, hs]
  rw [spells_cons hne]
  split_ifs with hlead hpre
  · obtain rfl := List.isEmpty_iff.mp hlead
    simp [matchParts_iff hne]
  · obtain ⟨rest, rfl⟩ := List.isPrefixOf_iff_prefix.mp hpre
    simp [matchParts_iff hne]
  · rw [List.isPrefixOf_iff_prefix] at hpre
    simp only [false_iff]
    rintro ⟨v, rfl, _⟩
    exact hpre (List.prefix_append lead v)

theorem chunkMatches_iff (pattern target : Chunk) :
    chunkMatches pattern target = true ↔
      pattern = target ∨ (isVerbatimChunk pattern = false ∧ isVerbatimChunk target = false ∧
        containsDsl pattern = true ∧ Spells (splitDsl pattern) target) := by
  unfold chunkMatches
  split_ifs with heq hverb hdsl
  · simp [heq]
  · simp only [Bool.or_eq_true] at hverb
    simp only [heq, false_or, false_iff]
    rintro ⟨h, h', _⟩
    simp [h, h'] at hverb
  · simp only [Bool.or_eq_true, not_or, Bool.not_eq_true] at hverb
    simp [heq, hverb, hdsl, chunkMatchesWithDsl_iff hdsl]
  · simp [heq, hdsl]

/-- The pattern alphabet of key expressions: `**` is wide, a verbatim chunk is closed. -/
def alphabet : Alphabet Chunk Chunk where
  wide p := p = doubleStar
  meets p t := (p = singleStar ∧ isVerbatimChunk t = false) ∨ chunkMatches p t = true
  closed t := isVerbatimChunk t = true
  meets_closed := by
    rintro p t t' (⟨_, h⟩ | h) closed hm
    · simp [h] at closed
    · rcases (chunkMatches_iff p t).mp h with rfl | ⟨_, h, _⟩
      · rcases hm with ⟨rfl, _⟩ | hm
        · exact absurd closed (by decide)
        · rcases (chunkMatches_iff p t').mp hm with rfl | ⟨h, _⟩
          · rfl
          · simp [h] at closed
      · simp [h] at closed

/-- What the walk may still find by letting the frame absorb one more chunk. -/
def FrameCovers (pattern target : List Chunk) (savedPi starStarTi : ℕ) : Prop :=
  ∃ t rest, target.drop starStarTi = t :: rest ∧ isVerbatimChunk t = false ∧
    Covers alphabet (pattern.drop savedPi) rest

/-- The frame stands at a `**`, and the chunks between it and the cursors have met one by one. -/
structure FrameAt (pattern target : List Chunk) (pi ti savedPi starStarTi : ℕ) : Prop where
  saved : pattern[savedPi]? = some doubleStar
  met : ∃ seg hit, pattern.drop (savedPi + 1) = seg ++ pattern.drop pi ∧
    target.drop starStarTi = hit ++ target.drop ti ∧
    (∀ p ∈ seg, ¬ alphabet.wide p) ∧ List.Forall₂ alphabet.meets seg hit

theorem drop_eq_cons {α : Type*} {l : List α} {n : ℕ} {x : α} (h : l[n]? = some x) :
    l.drop n = x :: l.drop (n + 1) := by
  obtain ⟨hn, rfl⟩ := List.getElem?_eq_some_iff.mp h
  exact List.drop_eq_getElem_cons hn

theorem FrameAt.advance {pattern target : List Chunk} {pi ti savedPi starStarTi : ℕ} {p t : Chunk}
    (h : FrameAt pattern target pi ti savedPi starStarTi) (hp : pattern[pi]? = some p)
    (ht : target[ti]? = some t) (hw : ¬ alphabet.wide p) (hm : alphabet.meets p t) :
    FrameAt pattern target (pi + 1) (ti + 1) savedPi starStarTi := by
  obtain ⟨seg, hit, hpat, htar, hseg, hmet⟩ := h.met
  refine ⟨h.saved, seg ++ [p], hit ++ [t], ?_, ?_, ?_, ?_⟩
  · rw [hpat, drop_eq_cons hp]
    simp
  · rw [htar, drop_eq_cons ht]
    simp
  · intro q hq
    rcases List.mem_append.mp hq with hq | hq
    · exact hseg q hq
    · simpa [List.mem_singleton.mp hq] using hw
  · exact List.rel_append hmet (.cons hm .nil)

theorem FrameAt.covers_of_frame {pattern target : List Chunk} {pi ti savedPi starStarTi : ℕ}
    (h : FrameAt pattern target pi ti savedPi starStarTi)
    (hp : pattern[pi]? = some doubleStar)
    (hf : FrameCovers pattern target savedPi starStarTi) :
    Covers alphabet (pattern.drop pi) (target.drop ti) := by
  obtain ⟨seg, hit, hpat, htar, hseg, hmet⟩ := h.met
  obtain ⟨t, rest, ht, hv, hc⟩ := hf
  rw [drop_eq_cons h.saved, covers_wide_split rfl] at hc
  obtain ⟨run, tail, rfl, hrun, hc⟩ := hc
  rw [hpat, covers_segment hseg] at hc
  obtain ⟨hit', rest', rfl, hmet', hc⟩ := hc
  rw [drop_eq_cons hp] at hc ⊢
  have hrun' : ∀ u ∈ t :: run, ¬ alphabet.closed u := by
    intro u hu
    rcases List.mem_cons.mp hu with rfl | hu
    · simp [alphabet, hv]
    · exact hrun u hu
  have same : hit ++ target.drop ti = (t :: run) ++ (hit' ++ rest') := by
    rw [← htar, ht]
    simp
  exact hc.of_later_frame rfl hmet hmet' hrun' (by simp) same

theorem FrameAt.not_frameCovers {pattern target : List Chunk} {pi ti savedPi starStarTi : ℕ}
    (h : FrameAt pattern target pi ti savedPi starStarTi) (hti : target.length ≤ ti) :
    ¬ FrameCovers pattern target savedPi starStarTi := by
  obtain ⟨seg, hit, hpat, htar, hseg, hmet⟩ := h.met
  rintro ⟨t, rest, ht, hv, hc⟩
  rw [drop_eq_cons h.saved, covers_wide_split rfl] at hc
  obtain ⟨run, tail, rfl, hrun, hc⟩ := hc
  rw [hpat] at hc
  have hlen := segment_length_le hseg hc
  rw [htar, List.drop_eq_nil_of_le hti, List.append_nil] at ht
  have := congrArg List.length ht
  have := hmet.length_eq
  simp only [List.length_cons, List.length_append] at *
  omega

theorem covers_at_doubleStar {pattern target : List Chunk} {pi : ℕ} (ti : ℕ)
    (hp : pattern[pi]? = some doubleStar) :
    Covers alphabet (pattern.drop pi) (target.drop ti) ↔
      Covers alphabet (pattern.drop (pi + 1)) (target.drop ti) ∨ FrameCovers pattern target pi ti := by
  rw [FrameCovers, drop_eq_cons hp, covers_wide_cons rfl]
  simp [alphabet]

theorem not_covers_of_mismatch {pattern target : List Chunk} {pi ti : ℕ} (hti : ti < target.length)
    (hp : pattern[pi]? ≠ some doubleStar)
    (hm : ¬ ((pattern[pi]?).any fun pat =>
      (pat == singleStar && !isVerbatimChunk target[ti]) || chunkMatches pat target[ti]) = true) :
    ¬ Covers alphabet (pattern.drop pi) (target.drop ti) := by
  rw [List.drop_eq_getElem_cons hti]
  rcases hpi : pattern[pi]? with _ | p
  · rw [List.drop_eq_nil_of_le (List.getElem?_eq_none_iff.mp hpi), covers_nil_left]
    exact List.cons_ne_nil _ _
  · have hw : ¬ alphabet.wide p := fun h => hp (by rw [hpi, show p = doubleStar from h])
    rw [drop_eq_cons hpi, covers_item_cons_cons hw]
    intro h
    apply hm
    simpa [hpi, alphabet] using h.1

theorem matchesLoop_iff (pattern target : List Chunk) (pi ti : ℕ) (starStarPi : Option ℕ)
    (starStarTi : ℕ) (behind : starStarTi ≤ ti)
    (frame : ∀ savedPi ∈ starStarPi, FrameAt pattern target pi ti savedPi starStarTi) :
    matchesLoop pattern target pi ti starStarPi starStarTi behind = true ↔
      Covers alphabet (pattern.drop pi) (target.drop ti) ∨
        ∃ savedPi ∈ starStarPi, FrameCovers pattern target savedPi starStarTi := by
  fun_induction matchesLoop pattern target pi ti starStarPi starStarTi behind with
  | case1 pi ti starStarPi starStarTi behind inside hpat ih =>
    have fresh : FrameAt pattern target (pi + 1) ti pi ti :=
      ⟨hpat, [], [], rfl, rfl, by simp, .nil⟩
    rw [ih (by simpa using fresh)]
    simp only [Option.mem_def, Option.some.injEq, exists_eq_left', ← covers_at_doubleStar ti hpat]
    constructor
    · exact .inl
    · rintro (h | ⟨savedPi, hs, h⟩)
      · exact h
      · exact (frame savedPi hs).covers_of_frame hpat h
  | case2 pi ti starStarPi starStarTi behind inside hpat hany ih =>
    obtain ⟨p, hp, hm⟩ := (Option.any_eq_true _ _).mp hany
    have hw : ¬ alphabet.wide p := fun h => hpat (by rw [hp, show p = doubleStar from h])
    have hmeet : alphabet.meets p target[ti] := by simpa [alphabet] using hm
    have ht := List.getElem?_eq_getElem inside
    rw [ih fun savedPi hs => (frame savedPi hs).advance hp ht hw hmeet]
    rw [drop_eq_cons hp, drop_eq_cons ht, covers_item_cons_cons hw]
    simp only [hmeet, true_and]
  | case3 pi ti starStarTi behind inside hpat hany savedPi hverb =>
    have miss := not_covers_of_mismatch inside hpat hany
    have spent : ¬ FrameCovers pattern target savedPi starStarTi := by
      rintro ⟨t, rest, ht, hv, _⟩
      rw [List.drop_eq_getElem_cons (by omega)] at ht
      obtain ⟨rfl, _⟩ := List.cons.inj ht
      simp [hv] at hverb
    simp [miss, spent]
  | case4 pi ti starStarTi behind inside hpat hany savedPi hverb ih =>
    have miss := not_covers_of_mismatch inside hpat hany
    have saved := (frame savedPi rfl).saved
    have again : FrameAt pattern target (savedPi + 1) (starStarTi + 1) savedPi (starStarTi + 1) :=
      ⟨saved, [], [], rfl, rfl, by simp, .nil⟩
    rw [ih (by simpa using again)]
    simp only [miss, false_or, Option.mem_def, Option.some.injEq, exists_eq_left',
      ← covers_at_doubleStar (starStarTi + 1) saved]
    have hlt : starStarTi < target.length := by omega
    constructor
    · intro h
      exact ⟨_, _, List.drop_eq_getElem_cons hlt, by simpa using hverb, h⟩
    · rintro ⟨t, rest, ht, _, h⟩
      rw [List.drop_eq_getElem_cons hlt] at ht
      obtain ⟨_, rfl⟩ := List.cons.inj ht
      exact h
  | case5 pi ti starStarTi behind inside hpat hany =>
    simp [not_covers_of_mismatch inside hpat hany]
  | case6 pi ti starStarPi starStarTi behind outside =>
    have hti : target.length ≤ ti := Nat.le_of_not_lt outside
    have spent : ¬ ∃ savedPi ∈ starStarPi, FrameCovers pattern target savedPi starStarTi := by
      rintro ⟨savedPi, hs, h⟩
      exact (frame savedPi hs).not_frameCovers hti h
    rw [or_iff_left spent, List.drop_eq_nil_of_le hti, covers_nil_right]
    simp [alphabet]

theorem matchesChunks_iff (pattern target : List Chunk) :
    matchesChunks pattern target = true ↔ Covers alphabet pattern target := by
  rw [matchesChunks, matchesLoop_iff pattern target 0 0 none 0 le_rfl (by simp)]
  simp

theorem targetChunksWellFormed_iff (cs : List Chunk) :
    targetChunksWellFormed cs = true ↔ ∀ c ∈ cs, c ≠ [] := by
  simp [targetChunksWellFormed]

theorem keyexprPatternMatches_iff (pattern : List Chunk) (target : Bytes) :
    keyexprPatternMatches pattern target = true ↔
      (∀ c ∈ Text.chunks target, c ≠ []) ∧ Covers alphabet pattern (Text.chunks target) := by
  unfold keyexprPatternMatches
  split_ifs with h
  · rw [Bool.not_eq_true', ← Bool.not_eq_true, targetChunksWellFormed_iff] at h
    simp only [false_iff]
    exact fun hm => h hm.1
  · rw [Bool.not_eq_true', Bool.not_eq_false, targetChunksWellFormed_iff] at h
    rw [matchesChunks_iff]
    exact (and_iff_right h).symm

end WatchingZenoh.KeyexprLanguage
