import WatchingZenoh.KeyexprGrammar

/-! The canonizer's first pass: what it does to a text is what it does to each chunk, and a
canonical text has nothing to collapse. -/

namespace WatchingZenoh.KeyexprCollapse

open KeyexprCanon KeyexprGrammar

def startsDsl (text : Bytes) : Prop := ∃ rest, text = dollar :: star :: rest

theorem skipDsl_dsl (text : Bytes) : skipDsl (dollar :: star :: text) = skipDsl text := by
  rw [skipDsl.eq_def]
  simp

theorem skipDsl_of_not_startsDsl {text : Bytes} (h : ¬ startsDsl text) : skipDsl text = text := by
  rcases text with _ | ⟨a, _ | ⟨b, rest⟩⟩
  · rfl
  · rfl
  · rw [skipDsl, if_neg]
    rintro ⟨rfl, rfl⟩
    exact h ⟨rest, rfl⟩

theorem collapseDslRuns_skipDsl (text : Bytes) :
    collapseDslRuns (dollar :: star :: text) =
      dollar :: star :: collapseDslRuns (skipDsl text) := by
  rw [collapseDslRuns]
  simp

theorem collapseDslRuns_dsl_dsl (text : Bytes) :
    collapseDslRuns (dollar :: star :: dollar :: star :: text) =
      collapseDslRuns (dollar :: star :: text) := by
  rw [collapseDslRuns_skipDsl, collapseDslRuns_skipDsl, skipDsl_dsl]

theorem collapseDslRuns_dsl {text : Bytes} (h : ¬ startsDsl text) :
    collapseDslRuns (dollar :: star :: text) = dollar :: star :: collapseDslRuns text := by
  rw [collapseDslRuns_skipDsl, skipDsl_of_not_startsDsl h]

theorem collapseDslRuns_cons {a : UInt8} {text : Bytes} (h : ¬ startsDsl (a :: text)) :
    collapseDslRuns (a :: text) = a :: collapseDslRuns text := by
  rcases text with _ | ⟨b, rest⟩
  · simp [collapseDslRuns]
  · rw [collapseDslRuns, if_neg]
    rintro ⟨rfl, rfl⟩
    exact h ⟨rest, rfl⟩

@[simp] theorem collapseDslRuns_nil : collapseDslRuns [] = [] := by
  simp [collapseDslRuns]

/-- The pass in three steps: a `$*` that a `$*` follows goes, one that none follows stays, and so
does any other byte. -/
theorem collapse_induction {motive : Bytes → Prop} (nil : motive [])
    (dslDsl : ∀ text, motive (dollar :: star :: text) →
      motive (dollar :: star :: dollar :: star :: text))
    (dsl : ∀ text, ¬ startsDsl text → motive text → motive (dollar :: star :: text))
    (cons : ∀ a text, ¬ startsDsl (a :: text) → motive text → motive (a :: text))
    (text : Bytes) : motive text := by
  induction h : text.length using Nat.strongRecOn generalizing text with
  | ind n ih =>
    subst h
    by_cases hd : startsDsl text
    · obtain ⟨rest, rfl⟩ := hd
      by_cases hdd : startsDsl rest
      · obtain ⟨rest, rfl⟩ := hdd
        exact dslDsl rest (ih _ (by simp) _ rfl)
      · exact dsl rest hdd (ih _ (by simp only [List.length_cons]; omega) _ rfl)
    · rcases text with _ | ⟨a, text⟩
      · exact nil
      · exact cons a text hd (ih _ (by simp) _ rfl)

theorem startsDsl_of_chunks {text : Bytes} {c : Chunk} {cs : List Chunk}
    (h : Text.chunks text = c :: cs) : startsDsl c ↔ startsDsl text := by
  constructor
  · rintro ⟨rest, rfl⟩
    have htext : text = Text.join ((dollar :: star :: rest) :: cs) := by rw [← h, Text.join_chunks]
    rcases cs with _ | ⟨d, cs⟩
    · exact ⟨rest, by rw [htext, Text.join_singleton]⟩
    · exact ⟨_, by rw [htext, Text.join_cons (by simp)]; rfl⟩
  · rintro ⟨rest, rfl⟩
    obtain ⟨d, ds, hrest⟩ := List.exists_cons_of_ne_nil (Text.chunks_ne_nil rest)
    rw [chunks_dollarStar hrest] at h
    exact ⟨d, (List.cons.inj h).1.symm⟩

theorem chunks_collapseDslRuns (text : Bytes) :
    Text.chunks (collapseDslRuns text) = (Text.chunks text).map collapseDslRuns := by
  induction text using collapse_induction with
  | nil => simp
  | dslDsl text ih =>
    obtain ⟨c, cs, h⟩ := List.exists_cons_of_ne_nil (Text.chunks_ne_nil text)
    rw [collapseDslRuns_dsl_dsl, ih, chunks_dollarStar h,
      chunks_dollarStar (chunks_dollarStar h), List.map_cons, List.map_cons,
      collapseDslRuns_dsl_dsl]
  | dsl text hno ih =>
    obtain ⟨c, cs, h⟩ := List.exists_cons_of_ne_nil (Text.chunks_ne_nil text)
    have hc : ¬ startsDsl c := mt (startsDsl_of_chunks h).mp hno
    rw [h, List.map_cons] at ih
    rw [collapseDslRuns_dsl hno, chunks_dollarStar ih, chunks_dollarStar h, List.map_cons,
      collapseDslRuns_dsl hc]
  | cons a text hno ih =>
    rw [collapseDslRuns_cons hno]
    by_cases ha : a = slash
    · subst ha
      rw [Text.chunks_slash_cons, Text.chunks_slash_cons, List.map_cons, ih, collapseDslRuns_nil]
    · obtain ⟨c, cs, h, hac⟩ := chunks_cons_cases ha text
      have hc : ¬ startsDsl (a :: c) := mt (startsDsl_of_chunks hac).mp hno
      rw [hac, List.map_cons, collapseDslRuns_cons hc, Text.chunks_cons ha, ih, h]
      rfl

theorem collapseDslRuns_of_mixedTail {c : Chunk} {after : Bool} (h : mixedTail after c = true) :
    collapseDslRuns c = c := by
  fun_induction mixedTail after c with
  | case1 => simp
  | case2 after c rest ih =>
    simp only [Bool.and_eq_true, beq_iff_eq] at h
    obtain ⟨⟨_, rfl⟩, h⟩ := h
    have hno : ¬ startsDsl rest := by
      rintro ⟨rest, rfl⟩
      exact ((mixedTail_true_iff _).mp h).1 rfl
    rw [collapseDslRuns_dsl hno, ih h]
  | case3 => simp at h
  | case4 after b rest hb ih =>
    have hno : ¬ startsDsl (b :: rest) := by
      rintro ⟨_, heq⟩
      exact hb (List.cons.inj heq).1
    rw [collapseDslRuns_cons hno, ih (Bool.and_eq_true _ _ ▸ h).2]

theorem collapseDslRuns_of_canonChunk {c : Chunk} (h : canonChunk c = true) :
    collapseDslRuns c = c := by
  simp only [canonChunk, Bool.or_eq_true, beq_iff_eq] at h
  rcases h with (rfl | rfl) | h
  · decide +kernel
  · decide +kernel
  · simp only [mixedChunk, Bool.and_eq_true] at h
    exact collapseDslRuns_of_mixedTail h.2

theorem collapseDslRuns_of_canonChunks {text : Bytes}
    (h : ∀ c ∈ Text.chunks text, canonChunk c = true) : collapseDslRuns text = text := by
  have hmap : (Text.chunks text).map collapseDslRuns = Text.chunks text := by
    refine (List.map_congr_left fun c hc => ?_).trans (List.map_id _)
    exact collapseDslRuns_of_canonChunk (h c hc)
  rw [← Text.join_chunks (collapseDslRuns text), chunks_collapseDslRuns, hmap, Text.join_chunks]

end WatchingZenoh.KeyexprCollapse
