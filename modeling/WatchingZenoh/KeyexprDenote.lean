import WatchingZenoh.KeyexprCanonize
import WatchingZenoh.KeyexprParts

/-! Canonization keeps the keys a text stands for: neither the collapse of `$*` runs, nor the
respelling of a lone `$*`, nor the sorting of a wild run changes what a concrete key meets. -/

namespace WatchingZenoh.KeyexprDenote

open SuperWild Gaps KeyexprMatch KeyexprLanguage KeyexprCanon KeyexprGrammar KeyexprCollapse
open KeyexprParts KeyexprRewrite KeyexprCanonize

section Collapse

theorem head?_collapse (c : Chunk) : (collapseDslRuns c).head? = c.head? := by
  induction c using collapse_induction with
  | nil => simp
  | dslDsl c ih => rw [collapseDslRuns_dsl_dsl, ih]; rfl
  | dsl c hno _ => rw [collapseDslRuns_dsl hno]; rfl
  | cons a c hno _ => rw [collapseDslRuns_cons hno]; rfl

theorem not_startsDsl_cons_collapse {a : UInt8} {c : Chunk} (h : ¬ startsDsl (a :: c)) :
    ¬ startsDsl (a :: collapseDslRuns c) := by
  rwa [startsDsl_cons, head?_collapse, ← startsDsl_cons]

theorem containsDsl_collapse (c : Chunk) : containsDsl (collapseDslRuns c) = containsDsl c := by
  induction c using collapse_induction with
  | nil => simp
  | dslDsl c ih => rw [collapseDslRuns_dsl_dsl, ih, containsDsl_dsl, containsDsl_dsl]
  | dsl c hno _ => rw [collapseDslRuns_dsl hno, containsDsl_dsl, containsDsl_dsl]
  | cons a c hno ih =>
    rw [collapseDslRuns_cons hno, containsDsl_cons (not_startsDsl_cons_collapse hno), ih,
      containsDsl_cons hno]

theorem spells_nil_nil {parts : List Bytes} (hne : parts ≠ []) {w : Bytes} :
    Spells ([] :: [] :: parts) w ↔ Spells ([] :: parts) w := by
  rw [spells_cons (by simp), spells_cons hne]
  simp only [List.nil_append, exists_eq_left']
  rw [trails_cons hne]
  constructor
  · rintro ⟨gap, v, rfl, h⟩
    exact h.mono ⟨gap, rfl⟩
  · intro h
    exact ⟨[], w, rfl, h⟩

theorem spells_collapse (c : Chunk) (w : Bytes) :
    Spells (splitDsl (collapseDslRuns c)) w ↔ Spells (splitDsl c) w := by
  induction c using collapse_induction generalizing w with
  | nil => simp
  | dslDsl c ih =>
    rw [collapseDslRuns_dsl_dsl, ih, splitDsl_dsl, splitDsl_dsl, splitDsl_dsl,
      spells_nil_nil (splitDsl_ne_nil c)]
  | dsl c hno ih =>
    rw [collapseDslRuns_dsl hno, splitDsl_dsl, splitDsl_dsl, spells_cons (splitDsl_ne_nil _),
      spells_cons (splitDsl_ne_nil _)]
    simp only [Trails, ih]
  | cons a c hno ih =>
    rw [collapseDslRuns_cons hno, spells_splitDsl_cons (not_startsDsl_cons_collapse hno),
      spells_splitDsl_cons hno]
    simp only [ih]

theorem collapse_of_not_containsDsl {c : Chunk} (h : containsDsl c = false) :
    collapseDslRuns c = c := by
  induction c using collapse_induction with
  | nil => simp
  | dslDsl c _ => simp [containsDsl_dsl] at h
  | dsl c _ _ => simp [containsDsl_dsl] at h
  | cons a c hno ih =>
    rw [containsDsl_cons hno] at h
    rw [collapseDslRuns_cons hno, ih h]

theorem collapse_eq_iff {c d : Chunk} (hd : dollar ∉ d) : collapseDslRuns c = d ↔ c = d := by
  by_cases hc : containsDsl c = true
  · have hne : ∀ {e : Chunk}, containsDsl e = true → e ≠ d := by
      rintro e he rfl
      simp [containsDsl_of_not_mem hd] at he
    have hcol : containsDsl (collapseDslRuns c) = true := by rw [containsDsl_collapse, hc]
    simp [hne hc, hne hcol]
  · rw [collapse_of_not_containsDsl (by simpa using hc)]

theorem chunkMatches_collapse {t : Chunk} (ht : dollar ∉ t) (c : Chunk) :
    chunkMatches (collapseDslRuns c) t = chunkMatches c t := by
  rw [Bool.eq_iff_iff, chunkMatches_iff, chunkMatches_iff, spells_collapse, collapse_eq_iff ht,
    containsDsl_collapse]
  simp [isVerbatimChunk, head?_collapse]

theorem meets_collapse {t : Chunk} (ht : concreteChunk t = true) (c : Chunk) :
    alphabet.meets (collapseDslRuns c) t ↔ alphabet.meets c t := by
  simp only [alphabet]
  rw [chunkMatches_collapse (dollar_not_mem_of_concrete ht), collapse_eq_iff (by decide)]

theorem covers_collapse {cs ts : List Chunk} (ht : ∀ t ∈ ts, concreteChunk t = true) :
    Covers alphabet (cs.map collapseDslRuns) ts ↔ Covers alphabet cs ts :=
  covers_map (fun _ _ => collapse_eq_iff (by decide)) fun c _ t hmem => meets_collapse (ht t hmem) c

end Collapse

section Respell

/-- A `*` meets whatever is not verbatim. -/
theorem meets_singleStar (t : Chunk) :
    alphabet.meets singleStar t ↔ isVerbatimChunk t = false := by
  simp only [alphabet, chunkMatches_iff, true_and]
  constructor
  · rintro (h | rfl | ⟨_, h, _⟩)
    · exact h
    · decide
    · exact h
  · exact .inl

theorem spells_dollarStar (w : Bytes) : Spells (splitDsl dollarStar) w := by
  rw [splitDsl_dsl, spells_cons (splitDsl_ne_nil [])]
  exact ⟨w, rfl, trails_singleton.mpr (List.nil_suffix)⟩

theorem meets_dollarStar {t : Chunk} (ht : concreteChunk t = true) :
    alphabet.meets dollarStar t ↔ isVerbatimChunk t = false := by
  have hne : dollarStar ≠ t := by
    rintro rfl
    simp [concreteChunk, plain] at ht
  have hdsl : containsDsl dollarStar = true := containsDsl_dsl []
  have hverb : isVerbatimChunk dollarStar = false := by decide
  simp only [alphabet, chunkMatches_iff, hne, hdsl, hverb, spells_dollarStar, true_and, and_true,
    false_or]
  simp [show dollarStar ≠ singleStar by decide]

theorem meets_respell {t : Chunk} (ht : concreteChunk t = true) (c : Chunk) :
    alphabet.meets (respell c) t ↔ alphabet.meets c t := by
  unfold respell
  split_ifs with hc
  · rw [hc, meets_singleStar, meets_dollarStar ht]
  · rfl

theorem wide_respell (c : Chunk) : alphabet.wide (respell c) ↔ alphabet.wide c := by
  unfold respell
  split_ifs with hc
  · subst hc
    simp [alphabet, show dollar ≠ star by decide]
  · rfl

theorem covers_respell {cs ts : List Chunk} (ht : ∀ t ∈ ts, concreteChunk t = true) :
    Covers alphabet (cs.map respell) ts ↔ Covers alphabet cs ts :=
  covers_map (fun c _ => wide_respell c) fun c _ t hmem => meets_respell (ht t hmem) c

end Respell

section Sorting

theorem covers_doubleStar_singleStar (cs ts : List Chunk) :
    Covers alphabet (doubleStar :: singleStar :: cs) ts ↔
      Covers alphabet (singleStar :: doubleStar :: cs) ts := by
  refine covers_swap rfl (by simp [alphabet]) (fun t => ?_)
  rw [meets_singleStar]
  simp [alphabet]

theorem covers_flushRun_singleStar (singles : ℕ) (hasDouble : Bool) (cs ts : List Chunk) :
    Covers alphabet (flushRun (singles + 1) hasDouble ++ cs) ts ↔
      Covers alphabet (flushRun singles hasDouble ++ singleStar :: cs) ts := by
  rw [flushRun, flushRun, List.replicate_succ', List.append_assoc, List.append_assoc,
    List.append_assoc]
  refine covers_append_congr (fun us => ?_) _ ts
  cases hasDouble
  · rfl
  · exact (covers_doubleStar_singleStar cs us).symm

theorem covers_flushRun_doubleStar (singles : ℕ) (hasDouble : Bool) (cs ts : List Chunk) :
    Covers alphabet (flushRun singles true ++ cs) ts ↔
      Covers alphabet (flushRun singles hasDouble ++ doubleStar :: cs) ts := by
  rw [flushRun, flushRun, List.append_assoc, List.append_assoc]
  refine covers_append_congr (fun us => ?_) _ ts
  cases hasDouble
  · rfl
  · exact (covers_wide_wide rfl).symm

/-- Sorting the runs changes no key, whatever run is open in front. -/
theorem covers_sortRuns (cs : List Chunk) (singles : ℕ) (hasDouble : Bool) (ts : List Chunk) :
    Covers alphabet (sortRuns cs singles hasDouble) ts ↔
      Covers alphabet (flushRun singles hasDouble ++ cs) ts := by
  induction cs generalizing singles hasDouble ts with
  | nil => simp [sortRuns]
  | cons c cs ih =>
    rw [sortRuns]
    split_ifs with hs hd
    · rw [ih, hs, covers_flushRun_singleStar]
    · rw [ih, hd, covers_flushRun_doubleStar singles hasDouble]
    · refine covers_append_congr (fun us => ?_) _ ts
      have hrest : ∀ vs, Covers alphabet (sortRuns cs 0 false) vs ↔ Covers alphabet cs vs := by
        intro vs
        simpa [flushRun] using ih 0 false vs
      exact covers_append_congr hrest [c] us

theorem covers_rewrite (dialect : KeyexprDialect) {cs ts : List Chunk}
    (ht : ∀ t ∈ ts, concreteChunk t = true) :
    Covers alphabet (rewrite dialect cs 0 false) ts ↔ Covers alphabet cs ts := by
  cases dialect with
  | pico => rw [rewrite, covers_respell ht, covers_sortRuns]; rfl
  | zenohC => rw [rewrite, covers_sortRuns]; exact covers_respell ht

end Sorting

/-- A text and its canonical form, in either dialect, match the same concrete keys. -/
theorem canonize_preserves_keys (s : Bytes) (dialect : KeyexprDialect) (c : Bytes)
    (h : canonizeKeyexprIn s dialect = .ok c) (k : Bytes) (hk : ConcreteKey k) :
    keyexprPatternMatches (Text.chunks s) k = keyexprPatternMatches (Text.chunks c) k := by
  obtain ⟨_, hc⟩ := (canonizeKeyexprIn_ok_iff s dialect c).mp h
  rw [Bool.eq_iff_iff, keyexprPatternMatches_iff, keyexprPatternMatches_iff, hc,
    covers_rewrite dialect hk, chunks_collapseDslRuns, covers_collapse hk]

/-- `**` / `$*$*` / `a` and its zenoh-c form `*` / `**` / `a` at the key `x` / `a`. -/
theorem canonize_preserves_keys_double_star :
    canonizeKeyexprIn [star, star, slash, dollar, star, dollar, star, slash, 0x61] .zenohC =
        .ok [star, slash, star, star, slash, 0x61] ∧
      keyexprPatternMatches (Text.chunks
          [star, star, slash, dollar, star, dollar, star, slash, 0x61]) [0x78, slash, 0x61] =
        keyexprPatternMatches (Text.chunks [star, slash, star, star, slash, 0x61])
          [0x78, slash, 0x61] := by
  have h : canonizeKeyexprIn [star, star, slash, dollar, star, dollar, star, slash, 0x61] .zenohC =
      .ok [star, slash, star, star, slash, 0x61] := by decide +kernel
  have hk : ConcreteKey [0x78, slash, 0x61] := by decide +kernel
  exact ⟨h, canonize_preserves_keys _ _ _ h _ hk⟩

end WatchingZenoh.KeyexprDenote
