import WatchingZenoh.KeyexprRewrite
import WatchingZenoh.KeyexprValidate

/-! The canonizer as a whole, and how its two dialects stand to the validator: both leave exactly
the canonical texts alone, zenoh-c always lands on one, and zenoh-pico lands on one unless it
respells a lone `$*` behind the `**` of the same run. -/

namespace WatchingZenoh.KeyexprCanonize

open KeyexprCanon KeyexprGrammar KeyexprCollapse KeyexprRewrite KeyexprValidate

theorem not_canonChunk_dollarStar : canonChunk dollarStar = false := by decide

theorem canonChunk_respell {c : Chunk} (h : accepted c = true) : canonChunk (respell c) = true := by
  by_cases hc : c = dollarStar
  · subst hc
    decide
  · simpa [respell, accepted, hc] using h

theorem respell_of_canonChunk {c : Chunk} (h : canonChunk c = true) : respell c = c := by
  unfold respell
  split_ifs with hc
  · rw [hc, not_canonChunk_dollarStar] at h
    simp at h
  · rfl

theorem map_respell_of_canonChunk {cs : List Chunk} (h : ∀ c ∈ cs, canonChunk c = true) :
    cs.map respell = cs :=
  (List.map_congr_left fun c hc => respell_of_canonChunk (h c hc)).trans (List.map_id cs)

theorem canonChunk_sortRuns {cs : List Chunk} (h : ∀ c ∈ cs, canonChunk c = true) {singles : ℕ}
    {hasDouble : Bool} : ∀ c ∈ sortRuns cs singles hasDouble, canonChunk c = true := by
  intro c hc
  rcases mem_sortRuns hc with hc | rfl | rfl
  · exact h c hc
  · decide
  · decide

theorem accepted_sortRuns {cs : List Chunk} (h : ∀ c ∈ cs, accepted c = true) {singles : ℕ}
    {hasDouble : Bool} : ∀ c ∈ sortRuns cs singles hasDouble, accepted c = true := by
  intro c hc
  rcases mem_sortRuns hc with hc | rfl | rfl
  · exact h c hc
  · decide
  · decide

theorem canonChunk_rewrite (dialect : KeyexprDialect) {cs : List Chunk}
    (h : ∀ c ∈ cs, accepted c = true) : ∀ c ∈ rewrite dialect cs 0 false, canonChunk c = true := by
  intro c hc
  cases dialect with
  | pico =>
    obtain ⟨d, hd, rfl⟩ := List.mem_map.mp hc
    exact canonChunk_respell (accepted_sortRuns h d hd)
  | zenohC =>
    refine canonChunk_sortRuns (fun d hd => ?_) c hc
    obtain ⟨e, he, rfl⟩ := List.mem_map.mp hd
    exact canonChunk_respell (h e he)

theorem rewrite_of_canonChunk (dialect : KeyexprDialect) {cs : List Chunk}
    (h : ∀ c ∈ cs, canonChunk c = true) : rewrite dialect cs 0 false = sortRuns cs 0 false := by
  cases dialect with
  | pico => exact map_respell_of_canonChunk (canonChunk_sortRuns h)
  | zenohC => rw [rewrite, map_respell_of_canonChunk h]

theorem rewrite_ne_nil (dialect : KeyexprDialect) {cs : List Chunk} (h : cs ≠ []) :
    rewrite dialect cs 0 false ≠ [] := by
  cases dialect with
  | pico => simpa [rewrite] using sortRuns_ne_nil (.inl h)
  | zenohC => exact sortRuns_ne_nil (.inl (by simpa using h))

theorem canonical_sortRuns {cs : List Chunk} (hne : cs ≠ []) (h : ∀ c ∈ cs, canonChunk c = true) :
    Canonical (sortRuns cs 0 false) :=
  ⟨sortRuns_ne_nil (.inl hne), canonChunk_sortRuns h, isChain_sortRuns cs 0 false⟩

theorem rewrite_of_canonical (dialect : KeyexprDialect) {cs : List Chunk} (h : Canonical cs) :
    rewrite dialect cs 0 false = cs := by
  rw [rewrite_of_canonChunk dialect h.chunk, sortRuns_of_isChain h.order 0 (by simp)]
  simp [flushRun]

theorem slash_not_mem_of_mixedTail {c : Chunk} {after : Bool} (h : mixedTail after c = true) :
    slash ∉ c := by
  fun_induction mixedTail after c with
  | case1 => simp
  | case2 after c rest ih =>
    simp only [Bool.and_eq_true, beq_iff_eq] at h
    obtain ⟨⟨_, rfl⟩, h⟩ := h
    simpa [show slash ≠ dollar by decide, show slash ≠ star by decide] using ih h
  | case3 => simp at h
  | case4 after b rest hb ih =>
    rw [Bool.and_eq_true] at h
    have hslash : slash ≠ b := by
      rintro rfl
      simp [plain] at h
    simpa [hslash] using ih h.2

theorem slash_not_mem_of_canonChunk {c : Chunk} (h : canonChunk c = true) : slash ∉ c := by
  simp only [canonChunk, Bool.or_eq_true, beq_iff_eq, mixedChunk, Bool.and_eq_true] at h
  rcases h with (rfl | rfl) | ⟨_, h⟩
  · decide
  · decide
  · exact slash_not_mem_of_mixedTail h

theorem canonizeInTwoPasses_ok_iff (s : Bytes) (dialect : KeyexprDialect) (c : Bytes) :
    canonizeInTwoPasses s dialect = .ok c ↔
      (∀ x ∈ Text.chunks (collapseDslRuns s), accepted x = true) ∧
        c = Text.join (rewrite dialect (Text.chunks (collapseDslRuns s)) 0 false) := by
  have hfree : ∀ x ∈ Text.chunks (collapseDslRuns s), slash ∉ x :=
    fun x => Text.slash_not_mem_of_mem_chunks
  have hloop := canonizeLoop_ok_iff dialect hfree [] 0 false
  rw [canonizeInTwoPasses, canonizeChunks]
  rcases h : canonizeLoop dialect (Text.chunks (collapseDslRuns s)) [] 0 false with e | out
  · simp only [reduceCtorEq, false_iff, not_and]
    intro hacc
    have := (hloop _).mpr ⟨hacc, rfl⟩
    simp [h] at this
  · obtain ⟨hacc, rfl⟩ := (hloop out).mp h
    rw [List.nil_append, and_iff_right hacc]
    constructor
    · intro hc
      exact (Except.ok.inj hc).symm
    · rintro rfl
      rfl

theorem collapseDslRuns_of_not_mem {s : Bytes} (h : dollar ∉ s) : collapseDslRuns s = s := by
  induction s with
  | nil => simp
  | cons a s ih =>
    have hno : ¬ startsDsl (a :: s) := by
      rintro ⟨rest, heq⟩
      exact h (by simp [heq])
    rw [collapseDslRuns_cons hno, ih fun hs => h (by simp [hs])]

theorem isChain_of_no_doubleStar {cs : List Chunk} (h : ∀ c ∈ cs, c ≠ doubleStar) :
    cs.IsChain inOrder := by
  induction cs with
  | nil => simp
  | cons c cs ih =>
    rw [List.isChain_cons]
    exact ⟨fun _ _ hc => absurd hc (h c (by simp)), ih fun d hd => h d (by simp [hd])⟩

theorem canonical_of_not_wild {s : Bytes} (hs : star ∉ s)
    (hacc : ∀ c ∈ Text.chunks s, accepted c = true) : Canonical (Text.chunks s) := by
  have hwild : ∀ c ∈ Text.chunks s, star ∉ c := fun c hc hb => hs (Text.mem_of_mem_chunks hc hb)
  refine ⟨Text.chunks_ne_nil s, ?_, ?_⟩
  · intro c hc
    have hne : c ≠ dollarStar := by
      rintro rfl
      exact hwild _ hc (by simp)
    simpa [accepted, hne] using hacc c hc
  · refine isChain_of_no_doubleStar fun c hc => ?_
    rintro rfl
    exact hwild _ hc (by simp)

theorem canonizeKeyexprIn_eq (s : Bytes) (dialect : KeyexprDialect) :
    canonizeKeyexprIn s dialect = canonizeInTwoPasses s dialect := by
  unfold canonizeKeyexprIn
  split_ifs with hplain
  · have hnone : ∀ b ∈ s, b ≠ dollar ∧ b ≠ star := by simpa using hplain
    have hd : dollar ∉ s := fun h => (hnone _ h).1 rfl
    have hs : star ∉ s := fun h => (hnone _ h).2 rfl
    have hfree : ∀ c ∈ Text.chunks s, slash ∉ c := fun c => Text.slash_not_mem_of_mem_chunks
    rcases h : analyzeAll (Text.chunks s) with e | _
    · rw [canonizeInTwoPasses, collapseDslRuns_of_not_mem hd, canonizeChunks,
        canonizeLoop_error dialect h]
    · have hacc := (analyzeAll_ok_iff hfree).mp h
      refine ((canonizeInTwoPasses_ok_iff s dialect s).mpr ?_).symm
      rw [collapseDslRuns_of_not_mem hd,
        rewrite_of_canonical dialect (canonical_of_not_wild hs hacc), Text.join_chunks]
      exact ⟨hacc, rfl⟩
  · rfl

theorem canonizeKeyexprIn_ok_iff (s : Bytes) (dialect : KeyexprDialect) (c : Bytes) :
    canonizeKeyexprIn s dialect = .ok c ↔
      (∀ x ∈ Text.chunks (collapseDslRuns s), accepted x = true) ∧
        Text.chunks c = rewrite dialect (Text.chunks (collapseDslRuns s)) 0 false := by
  rw [canonizeKeyexprIn_eq, canonizeInTwoPasses_ok_iff]
  refine and_congr_right fun hacc => ?_
  have hfree : ∀ x ∈ rewrite dialect (Text.chunks (collapseDslRuns s)) 0 false, slash ∉ x :=
    fun x hx => slash_not_mem_of_canonChunk (canonChunk_rewrite dialect hacc x hx)
  constructor
  · rintro rfl
    exact Text.chunks_join hfree (rewrite_ne_nil dialect (Text.chunks_ne_nil _))
  · intro h
    rw [← h, Text.join_chunks]

theorem canonizeKeyexprIn_self_iff (s : Bytes) (dialect : KeyexprDialect) :
    canonizeKeyexprIn s dialect = .ok s ↔ Canonical (Text.chunks s) := by
  rw [canonizeKeyexprIn_ok_iff]
  constructor
  · rintro ⟨hacc, hs⟩
    have hcanon : ∀ c ∈ Text.chunks s, canonChunk c = true := by
      rw [hs]
      exact canonChunk_rewrite dialect hacc
    rw [collapseDslRuns_of_canonChunks hcanon, rewrite_of_canonChunk dialect hcanon] at hs
    rw [hs]
    exact canonical_sortRuns (Text.chunks_ne_nil s) hcanon
  · intro h
    rw [collapseDslRuns_of_canonChunks h.chunk, rewrite_of_canonical dialect h]
    exact ⟨fun c hc => by simp [accepted, h.chunk c hc], rfl⟩

theorem canonical_rewrite_zenohC {cs : List Chunk} (hne : cs ≠ [])
    (h : ∀ c ∈ cs, accepted c = true) : Canonical (rewrite .zenohC cs 0 false) :=
  ⟨rewrite_ne_nil .zenohC hne, canonChunk_rewrite .zenohC h, isChain_sortRuns _ _ _⟩

/-- A lone `$*` ends the run of wild chunks in front. -/
def LoneEndsRun (cs : List Chunk) : Prop :=
  ∃ run rest, cs = run ++ dollarStar :: rest ∧ ∀ c ∈ run, c = singleStar ∨ c = doubleStar

/-- Somewhere a lone `$*` ends a run of wild chunks that has a `**` in it. -/
def LoneAfterDouble (cs : List Chunk) : Prop :=
  ∃ front rest, cs = front ++ doubleStar :: rest ∧ LoneEndsRun rest

theorem loneEndsRun_nil : ¬ LoneEndsRun [] := by
  rintro ⟨run, rest, h, _⟩
  simp at h

theorem loneEndsRun_cons (c : Chunk) (cs : List Chunk) :
    LoneEndsRun (c :: cs) ↔
      c = dollarStar ∨ ((c = singleStar ∨ c = doubleStar) ∧ LoneEndsRun cs) := by
  constructor
  · rintro ⟨_ | ⟨d, run⟩, rest, h, hrun⟩
    · exact .inl (List.cons.inj h).1
    · obtain ⟨rfl, rfl⟩ := List.cons.inj h
      exact .inr ⟨hrun c (by simp), run, rest, rfl, fun d hd => hrun d (by simp [hd])⟩
  · rintro (rfl | ⟨hc, run, rest, rfl, hrun⟩)
    · exact ⟨[], cs, rfl, by simp⟩
    · exact ⟨c :: run, rest, rfl, by simpa using ⟨hc, hrun⟩⟩

theorem loneAfterDouble_nil : ¬ LoneAfterDouble [] := by
  rintro ⟨front, rest, h, _⟩
  simp at h

theorem loneAfterDouble_cons (c : Chunk) (cs : List Chunk) :
    LoneAfterDouble (c :: cs) ↔ (c = doubleStar ∧ LoneEndsRun cs) ∨ LoneAfterDouble cs := by
  constructor
  · rintro ⟨_ | ⟨d, front⟩, rest, h, hrest⟩
    · obtain ⟨rfl, rfl⟩ := List.cons.inj h
      exact .inl ⟨rfl, hrest⟩
    · obtain ⟨rfl, rfl⟩ := List.cons.inj h
      exact .inr ⟨front, rest, rfl, hrest⟩
  · rintro (⟨rfl, h⟩ | ⟨front, rest, rfl, h⟩)
    · exact ⟨[], cs, rfl, h⟩
    · exact ⟨c :: front, rest, rfl, h⟩

theorem isChain_respell_sortRuns (cs : List Chunk) (singles : ℕ) (hasDouble : Bool) :
    ((sortRuns cs singles hasDouble).map respell).IsChain inOrder ↔
      ¬ ((hasDouble = true ∧ LoneEndsRun cs) ∨ LoneAfterDouble cs) := by
  induction cs generalizing singles hasDouble with
  | nil =>
    rw [sortRuns, map_respell_flushRun]
    simp [isChain_flushRun, loneEndsRun_nil, loneAfterDouble_nil]
  | cons c cs ih =>
    rw [sortRuns, loneEndsRun_cons, loneAfterDouble_cons]
    have hstars : singleStar ≠ dollarStar ∧ doubleStar ≠ dollarStar ∧ singleStar ≠ doubleStar := by
      decide
    split_ifs with hs hd
    · subst hs
      rw [ih]
      simp [hstars]
    · subst hd
      rw [ih]
      simp only [hstars.2.1, or_true, true_and, false_or]
      tauto
    · have hd' : respell c ≠ doubleStar := by
        unfold respell
        split_ifs
        · exact hstars.2.2
        · exact hd
      have hs' : respell c ≠ singleStar ↔ c ≠ dollarStar := by
        unfold respell
        split_ifs with hl <;> simp [hl, hs]
      have hfirst : ∀ d ∈ ((sortRuns cs 0 false).map respell).head?, inOrder (respell c) d :=
        fun _ _ h => absurd h hd'
      rw [List.map_append, map_respell_flushRun, List.map_cons, isChain_flushRun_append,
        List.isChain_cons, ih, and_iff_right hfirst, and_iff_left hd', hs']
      simp only [hs, hd, or_self, false_and, or_false, false_or, Bool.false_eq_true]
      tauto

theorem canonical_rewrite_pico_iff {cs : List Chunk} (hne : cs ≠ [])
    (h : ∀ c ∈ cs, accepted c = true) :
    Canonical (rewrite .pico cs 0 false) ↔ ¬ LoneAfterDouble cs := by
  have hchain := isChain_respell_sortRuns cs 0 false
  simp only [Bool.false_eq_true, false_and, false_or] at hchain
  rw [← hchain]
  exact ⟨fun hc => hc.order, fun ho => ⟨rewrite_ne_nil .pico hne, canonChunk_rewrite .pico h, ho⟩⟩

theorem validate_of_canonize_zenohC {s c : Bytes} (h : canonizeKeyexprIn s .zenohC = .ok c) :
    validateKeyexpr c = .ok () := by
  obtain ⟨hacc, hc⟩ := (canonizeKeyexprIn_ok_iff s .zenohC c).mp h
  rw [validateKeyexpr_ok_iff, hc]
  exact canonical_rewrite_zenohC (Text.chunks_ne_nil _) hacc

theorem validate_iff_canonize_self (s : Bytes) (dialect : KeyexprDialect) :
    validateKeyexpr s = .ok () ↔ canonizeKeyexprIn s dialect = .ok s := by
  rw [validateKeyexpr_ok_iff, canonizeKeyexprIn_self_iff]

theorem validate_of_canonize_pico_iff {s c : Bytes} (h : canonizeKeyexpr s = .ok c) :
    validateKeyexpr c = .ok () ↔ ¬ LoneAfterDouble (Text.chunks (collapseDslRuns s)) := by
  obtain ⟨hacc, hc⟩ := (canonizeKeyexprIn_ok_iff s .pico c).mp h
  rw [validateKeyexpr_ok_iff, hc]
  exact canonical_rewrite_pico_iff (Text.chunks_ne_nil _) hacc

theorem canonize_twice {s c : Bytes} (h : canonizeKeyexpr s = .ok c) :
    ∃ c', canonizeKeyexpr c = .ok c' ∧ validateKeyexpr c' = .ok () := by
  obtain ⟨hacc, hc⟩ := (canonizeKeyexprIn_ok_iff s .pico c).mp h
  have hcanon : ∀ x ∈ Text.chunks c, canonChunk x = true := by
    rw [hc]
    exact canonChunk_rewrite .pico hacc
  have hcanonical := canonical_sortRuns (Text.chunks_ne_nil c) hcanon
  have hchunks : Text.chunks (Text.join (sortRuns (Text.chunks c) 0 false)) =
      sortRuns (Text.chunks c) 0 false :=
    Text.chunks_join (fun x hx => slash_not_mem_of_canonChunk (hcanonical.chunk x hx))
      hcanonical.nonempty
  refine ⟨Text.join (sortRuns (Text.chunks c) 0 false), ?_, ?_⟩
  · refine (canonizeKeyexprIn_ok_iff c .pico _).mpr ?_
    rw [collapseDslRuns_of_canonChunks hcanon, rewrite_of_canonChunk .pico hcanon]
    exact ⟨fun x hx => by simp [accepted, hcanon x hx], hchunks⟩
  · rw [validateKeyexpr_ok_iff, hchunks]
    exact hcanonical

/-- The validator and the canonizer are one judgement: a text is valid when canonization, in either
dialect, leaves it alone; zenoh-c always reaches such a text; and a refusal stands at the end of
the longest start that could still have become valid. -/
theorem validate_agrees_with_canonize (s : Bytes) :
    (∀ dialect, validateKeyexpr s = .ok () ↔ canonizeKeyexprIn s dialect = .ok s) ∧
      (∀ c, canonizeKeyexprIn s .zenohC = .ok c →
        validateKeyexpr c = .ok () ∧ canonizeKeyexprIn c .zenohC = .ok c) ∧
      ∀ r, validateKeyexpr s = .error r →
        r.offset ≤ s.length ∧ r.chunk = (s.take r.offset).count slash ∧
          ∃ t, s.take r.offset <+: t ∧ validateKeyexpr t = .ok () ∧
            (Utf8.Encoded s → Utf8.Encoded t) := by
  refine ⟨validate_iff_canonize_self s, ?_, ?_⟩
  · intro c hc
    have hvalid := validate_of_canonize_zenohC hc
    exact ⟨hvalid, (validate_iff_canonize_self c .zenohC).mp hvalid⟩
  · intro r hr
    obtain ⟨hlen, hchunk, hok⟩ := validateKeyexpr_refusal hr
    exact ⟨hlen, hchunk, _, List.prefix_append _ _, hok, encoded_before_refusal hr⟩

theorem validate_agrees_with_canonize_double_star_star :
    validateKeyexpr [star, star, slash, star] = .error ⟨1, 3, .singleStarAfterDoubleStar⟩ ∧
      (1 : ℕ) = ([star, star, slash, star].take 3).count slash ∧
      validateKeyexpr [star, slash, star, star] = .ok () := by
  have hr : validateKeyexpr [star, star, slash, star] =
      .error ⟨1, 3, .singleStarAfterDoubleStar⟩ := by decide +kernel
  have hc : canonizeKeyexprIn [star, star, slash, star] .zenohC =
      .ok [star, slash, star, star] := by decide +kernel
  have h := validate_agrees_with_canonize [star, star, slash, star]
  exact ⟨hr, (h.2.2 _ hr).2.1, (h.2.1 _ hc).1⟩

/-- The default dialect is idempotent, and its output valid, exactly when no lone `$*` ends a run
of wild chunks that has a `**` in it; from any text two passes are enough. -/
theorem canonizeKeyexpr_idempotent_iff (s c : Bytes) (h : canonizeKeyexpr s = .ok c) :
    ((canonizeKeyexpr c = .ok c ∧ validateKeyexpr c = .ok ()) ↔
        ¬ LoneAfterDouble (Text.chunks (collapseDslRuns s))) ∧
      ∃ c', canonizeKeyexpr c = .ok c' ∧ canonizeKeyexpr c' = .ok c' ∧
        validateKeyexpr c' = .ok () := by
  constructor
  · rw [← validate_of_canonize_pico_iff h]
    exact ⟨And.right, fun hv => ⟨(validate_iff_canonize_self c .pico).mp hv, hv⟩⟩
  · obtain ⟨c', hc', hv⟩ := canonize_twice h
    exact ⟨c', hc', (validate_iff_canonize_self c' .pico).mp hv, hv⟩

theorem canonizeKeyexpr_idempotent_lone_dollar_star :
    canonizeKeyexpr [dollar, star] = .ok [star] ∧ canonizeKeyexpr [star] = .ok [star] := by
  have h : canonizeKeyexpr [dollar, star] = .ok [star] := by decide +kernel
  refine ⟨h, ?_⟩
  have hno : ¬ LoneAfterDouble (Text.chunks (collapseDslRuns [dollar, star])) := by
    rw [show Text.chunks (collapseDslRuns [dollar, star]) = [dollarStar] by decide +kernel,
      loneAfterDouble_cons]
    rintro (⟨h, _⟩ | h)
    · exact absurd h (by decide)
    · exact loneAfterDouble_nil h
  exact ((canonizeKeyexpr_idempotent_iff _ _ h).1.mpr hno).1

/-- Not in general: zenoh-pico respells the `$*` of `**` / `$*` where it stands. -/
theorem not_canonizeKeyexpr_idempotent :
    ¬ ∀ s c, canonizeKeyexpr s = .ok c →
      canonizeKeyexpr c = .ok c ∧ validateKeyexpr c = .ok () := by
  intro h
  have hs : canonizeKeyexpr [star, star, slash, dollar, star] = .ok [star, star, slash, star] := by
    decide +kernel
  have hc : canonizeKeyexpr [star, star, slash, star] = .ok [star, slash, star, star] := by
    decide +kernel
  have hsame := (h _ _ hs).1.symm.trans hc
  simp [show slash ≠ star by decide] at hsame

end WatchingZenoh.KeyexprCanonize
