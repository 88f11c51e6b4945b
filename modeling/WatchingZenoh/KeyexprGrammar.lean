import WatchingZenoh.KeyexprCanon

/-! What a key expression is, said once in terms of chunks: each chunk is `*`, `**` or a mixed
chunk of plain bytes and `$*` tokens, and no `**` stands right before a `*` or a `**`. The
validator accepts exactly these texts. -/

namespace WatchingZenoh.KeyexprGrammar

open KeyexprCanon

/-- A byte without a meaning of its own inside a chunk. -/
def plain (b : UInt8) : Bool :=
  b != slash && b != star && b != dollar && b != sharp && b != question

/-- What may follow inside a mixed chunk; `after` says that a `$*` has just been completed, which
no `$` may follow. -/
def mixedTail : Bool → Chunk → Bool
  | _, [] => true
  | after, b :: rest =>
    if b = dollar then
      match rest with
      | c :: rest => !after && c == star && mixedTail true rest
      | [] => false
    else plain b && mixedTail false rest

def mixedChunk (c : Chunk) : Bool := !c.isEmpty && c != dollarStar && mixedTail false c

def canonChunk (c : Chunk) : Bool := c == singleStar || c == doubleStar || mixedChunk c

/-- A `**` is not followed by a wild chunk. -/
def inOrder (c d : Chunk) : Prop := c = doubleStar → d ≠ singleStar ∧ d ≠ doubleStar

structure Canonical (cs : List Chunk) : Prop where
  nonempty : cs ≠ []
  chunk : ∀ c ∈ cs, canonChunk c = true
  order : cs.IsChain inOrder

theorem canonical_singleton {c : Chunk} : Canonical [c] ↔ canonChunk c = true := by
  constructor
  · intro h
    exact h.chunk c (by simp)
  · intro h
    exact ⟨by simp, by simpa using h, by simp⟩

theorem canonical_cons_cons {c d : Chunk} {cs : List Chunk} :
    Canonical (c :: d :: cs) ↔ canonChunk c = true ∧ inOrder c d ∧ Canonical (d :: cs) := by
  constructor
  · intro h
    have order := List.isChain_cons_cons.mp h.order
    exact ⟨h.chunk c (by simp), order.1, by simp, fun e he => h.chunk e (by simp [he]), order.2⟩
  · rintro ⟨hc, hcd, h⟩
    refine ⟨by simp, ?_, List.isChain_cons_cons.mpr ⟨hcd, h.order⟩⟩
    intro e he
    rcases List.mem_cons.mp he with rfl | he
    · exact hc
    · exact h.chunk e he

theorem mixedTail_plain_cons {b : UInt8} (hb : b ≠ dollar) (after : Bool) (c : Chunk) :
    mixedTail after (b :: c) = (plain b && mixedTail false c) := by
  rw [mixedTail.eq_def]
  simp only [hb, if_false]

theorem mixedTail_dollarStar (c : Chunk) :
    mixedTail false (dollar :: star :: c) = mixedTail true c := by
  rw [mixedTail.eq_def]
  simp

theorem mixedTail_true_of_head {c : Chunk} (h : c.head? ≠ some dollar) :
    mixedTail true c = mixedTail false c := by
  rcases c with _ | ⟨b, c⟩
  · rfl
  · have hb : b ≠ dollar := by simpa using h
    rw [mixedTail_plain_cons hb, mixedTail_plain_cons hb]

theorem mixedChunk_cons {b : UInt8} (hb : b ≠ dollar) (c : Chunk) :
    mixedChunk (b :: c) = (plain b && mixedTail false c) := by
  simp [mixedChunk, mixedTail_plain_cons hb, hb]

theorem mixedChunk_dollarStar (c : Chunk) :
    mixedChunk (dollar :: star :: c) = (!c.isEmpty && mixedTail true c) := by
  rcases c with _ | ⟨b, c⟩ <;> simp [mixedChunk, mixedTail_dollarStar]

theorem not_mixedChunk_star (c : Chunk) : mixedChunk (star :: c) = false := by
  rw [mixedChunk_cons (by decide)]
  simp [plain]

theorem canonical_cons_of_head {c : Chunk} {cs : List Chunk} (hc : c.head? ≠ some star) :
    Canonical (c :: cs) ↔ mixedChunk c = true ∧ (cs = [] ∨ Canonical cs) := by
  have hs : c ≠ singleStar := by rintro rfl; simp at hc
  have hd : c ≠ doubleStar := by rintro rfl; simp at hc
  have hcanon : canonChunk c = mixedChunk c := by simp [canonChunk, hs, hd]
  rcases cs with _ | ⟨d, cs⟩
  · simp [canonical_singleton, hcanon]
  · simp [canonical_cons_cons, hcanon, inOrder, hd]

/-- The texts from the middle of a chunk on. -/
def ContinuesChunk (rest : Bytes) : Prop :=
  ∃ c cs, Text.chunks rest = c :: cs ∧ mixedTail false c = true ∧ (cs = [] ∨ Canonical cs)

theorem chunks_cons_cases {b : UInt8} (hb : b ≠ slash) (text : Bytes) :
    ∃ c cs, Text.chunks text = c :: cs ∧ Text.chunks (b :: text) = (b :: c) :: cs := by
  obtain ⟨c, cs, h⟩ := List.exists_cons_of_ne_nil (Text.chunks_ne_nil text)
  exact ⟨c, cs, h, by rw [Text.chunks_cons hb, h]; rfl⟩

theorem head?_of_chunks {text : Bytes} {c : Chunk} {cs : List Chunk}
    (h : Text.chunks text = c :: cs) {b : UInt8} (hb : b ≠ slash) :
    c.head? = some b ↔ text.head? = some b := by
  rcases text with _ | ⟨a, text⟩
  · obtain ⟨rfl, _⟩ := List.cons.inj (Text.chunks_nil.symm.trans h)
    simp
  · by_cases ha : a = slash
    · subst ha
      rw [Text.chunks_slash_cons] at h
      obtain ⟨rfl, _⟩ := List.cons.inj h
      simp [Ne.symm hb]
    · obtain ⟨d, ds, _, h'⟩ := chunks_cons_cases ha text
      obtain ⟨rfl, _⟩ := List.cons.inj (h'.symm.trans h)
      simp

theorem continuesChunk_nil : ContinuesChunk [] :=
  ⟨[], [], Text.chunks_nil, rfl, .inl rfl⟩

theorem not_canonical_nil : ¬ Canonical (Text.chunks []) := by
  rw [Text.chunks_nil, canonical_cons_of_head (by simp)]
  simp [mixedChunk]

theorem continuesChunk_slash (t : Bytes) :
    ContinuesChunk (slash :: t) ↔ Canonical (Text.chunks t) := by
  constructor
  · rintro ⟨c, cs, h, _, hcs⟩
    rw [Text.chunks_slash_cons] at h
    obtain ⟨_, rfl⟩ := List.cons.inj h
    exact hcs.resolve_left (Text.chunks_ne_nil t)
  · intro h
    exact ⟨[], Text.chunks t, Text.chunks_slash_cons t, rfl, .inr h⟩

theorem not_canonical_slash (t : Bytes) : ¬ Canonical (Text.chunks (slash :: t)) := by
  rw [Text.chunks_slash_cons, canonical_cons_of_head (by simp)]
  simp [mixedChunk]

theorem continuesChunk_cons {b : UInt8} (hs : b ≠ slash) (hd : b ≠ dollar) (t : Bytes) :
    ContinuesChunk (b :: t) ↔ plain b = true ∧ ContinuesChunk t := by
  obtain ⟨c, cs, ht, hbt⟩ := chunks_cons_cases hs t
  simp only [ContinuesChunk, ht, hbt, List.cons.injEq]
  constructor
  · rintro ⟨_, _, ⟨rfl, rfl⟩, hm, hcs⟩
    rw [mixedTail_plain_cons hd, Bool.and_eq_true] at hm
    exact ⟨hm.1, c, cs, ⟨rfl, rfl⟩, hm.2, hcs⟩
  · rintro ⟨hp, _, _, ⟨rfl, rfl⟩, hm, hcs⟩
    exact ⟨b :: c, cs, ⟨rfl, rfl⟩, by simp [mixedTail_plain_cons hd, hp, hm], hcs⟩

theorem canonical_cons {b : UInt8} (hs : b ≠ slash) (hd : b ≠ dollar) (hstar : b ≠ star)
    (t : Bytes) : Canonical (Text.chunks (b :: t)) ↔ plain b = true ∧ ContinuesChunk t := by
  obtain ⟨c, cs, ht, hbt⟩ := chunks_cons_cases hs t
  rw [hbt, canonical_cons_of_head (by simpa using hstar), mixedChunk_cons hd, Bool.and_eq_true,
    and_assoc]
  simp [ContinuesChunk, ht]

theorem continuesChunk_of_chunks {t : Bytes} {c : Chunk} {cs : List Chunk}
    (ht : Text.chunks t = c :: cs) :
    ContinuesChunk t ↔ mixedTail false c = true ∧ (cs = [] ∨ Canonical cs) := by
  simp [ContinuesChunk, ht]

theorem chunks_dollarStar {t : Bytes} {c : Chunk} {cs : List Chunk}
    (ht : Text.chunks t = c :: cs) :
    Text.chunks (dollar :: star :: t) = (dollar :: star :: c) :: cs := by
  rw [Text.chunks_cons (by decide), Text.chunks_cons (by decide), ht]
  rfl

theorem mixedTail_true_iff (c : Chunk) :
    mixedTail true c = true ↔ c.head? ≠ some dollar ∧ mixedTail false c = true := by
  by_cases hc : c.head? = some dollar
  · obtain ⟨c, rfl⟩ := List.head?_eq_some_iff.mp hc
    rw [mixedTail.eq_def]
    rcases c with _ | ⟨d, c⟩ <;> simp
  · simp [mixedTail_true_of_head hc, hc]

theorem continuesChunk_dollarStar (t : Bytes) :
    ContinuesChunk (dollar :: star :: t) ↔ t.head? ≠ some dollar ∧ ContinuesChunk t := by
  obtain ⟨c, cs, ht⟩ := List.exists_cons_of_ne_nil (Text.chunks_ne_nil t)
  rw [continuesChunk_of_chunks (chunks_dollarStar ht), continuesChunk_of_chunks ht,
    mixedTail_dollarStar, mixedTail_true_iff, Ne, head?_of_chunks ht (by decide), and_assoc]

theorem chunks_head_nil_iff {t : Bytes} {c : Chunk} {cs : List Chunk}
    (ht : Text.chunks t = c :: cs) : c = [] ↔ t = [] ∨ t.head? = some slash := by
  rcases t with _ | ⟨b, t⟩
  · obtain ⟨rfl, _⟩ := List.cons.inj (Text.chunks_nil.symm.trans ht)
    simp
  · by_cases hb : b = slash
    · subst hb
      rw [Text.chunks_slash_cons] at ht
      simp [(List.cons.inj ht).1.symm]
    · obtain ⟨d, ds, _, h⟩ := chunks_cons_cases hb t
      obtain ⟨rfl, _⟩ := List.cons.inj (h.symm.trans ht)
      simp [hb]

theorem canonical_dollarStar (t : Bytes) :
    Canonical (Text.chunks (dollar :: star :: t)) ↔
      ¬ (t = [] ∨ t.head? = some slash) ∧ t.head? ≠ some dollar ∧ ContinuesChunk t := by
  obtain ⟨c, cs, ht⟩ := List.exists_cons_of_ne_nil (Text.chunks_ne_nil t)
  have hhead : (dollar :: star :: c).head? ≠ some star := by
    simp [show dollar ≠ star by decide]
  rw [chunks_dollarStar ht, canonical_cons_of_head hhead, mixedChunk_dollarStar,
    continuesChunk_of_chunks ht, ← chunks_head_nil_iff ht, Ne,
    ← head?_of_chunks ht (by decide), Bool.and_eq_true, mixedTail_true_iff, and_assoc, and_assoc]
  simp

theorem not_mixedTail_dollar {c : Chunk} (hc : c.head? ≠ some star) (after : Bool) :
    mixedTail after (dollar :: c) = false := by
  rw [mixedTail.eq_def]
  rcases c with _ | ⟨d, c⟩
  · simp
  · have hd : d ≠ star := by simpa using hc
    simp [hd]

theorem not_continuesChunk_dollar {t : Bytes} (h : t.head? ≠ some star) :
    ¬ ContinuesChunk (dollar :: t) := by
  obtain ⟨c, cs, ht, hdt⟩ := chunks_cons_cases (by decide : dollar ≠ slash) t
  have hc : c.head? ≠ some star := by rwa [Ne, head?_of_chunks ht (by decide)]
  simp [continuesChunk_of_chunks hdt, not_mixedTail_dollar hc]

theorem not_canonical_dollar {t : Bytes} (h : t.head? ≠ some star) :
    ¬ Canonical (Text.chunks (dollar :: t)) := by
  obtain ⟨c, cs, ht, hdt⟩ := chunks_cons_cases (by decide : dollar ≠ slash) t
  have hc : c.head? ≠ some star := by rwa [Ne, head?_of_chunks ht (by decide)]
  have hhead : (dollar :: c).head? ≠ some star := by
    simp [show dollar ≠ star by decide]
  rw [hdt, canonical_cons_of_head hhead]
  simp [mixedChunk, not_mixedTail_dollar hc]

theorem not_continuesChunk_star (t : Bytes) : ¬ ContinuesChunk (star :: t) := by
  rw [continuesChunk_cons (by decide) (by decide)]
  simp [plain]

theorem canonical_singleStar_slash (t : Bytes) :
    Canonical (Text.chunks (star :: slash :: t)) ↔ Canonical (Text.chunks t) := by
  obtain ⟨d, ds, ht⟩ := List.exists_cons_of_ne_nil (Text.chunks_ne_nil t)
  have h : Text.chunks (star :: slash :: t) = singleStar :: d :: ds := by
    rw [Text.chunks_cons (by decide), Text.chunks_slash_cons, ht]
    rfl
  rw [h, ht, canonical_cons_cons]
  simp [canonChunk, inOrder]

/-- A `**` reads the start of the chunk behind it: no chunk may start with `*` there, wild or
not. -/
theorem canonical_doubleStar_slash (t : Bytes) :
    Canonical (Text.chunks (star :: star :: slash :: t)) ↔
      t.head? ≠ some star ∧ Canonical (Text.chunks t) := by
  obtain ⟨d, ds, ht⟩ := List.exists_cons_of_ne_nil (Text.chunks_ne_nil t)
  have h : Text.chunks (star :: star :: slash :: t) = doubleStar :: d :: ds := by
    rw [Text.chunks_cons (by decide), Text.chunks_cons (by decide), Text.chunks_slash_cons, ht]
    rfl
  have hdouble : canonChunk doubleStar = true := by decide
  rw [h, ht, canonical_cons_cons, Ne, ← head?_of_chunks ht (by decide)]
  constructor
  · rintro ⟨_, horder, hd⟩
    refine ⟨?_, hd⟩
    intro hhead
    obtain ⟨e, rfl⟩ := List.head?_eq_some_iff.mp hhead
    have hcanon := hd.chunk (star :: e) (by simp)
    obtain ⟨hs, hd⟩ := horder rfl
    simp only [canonChunk, not_mixedChunk_star, Bool.or_false, Bool.or_eq_true, beq_iff_eq] at hcanon
    exact hcanon.elim hs hd
  · rintro ⟨hhead, hd⟩
    refine ⟨hdouble, ?_, hd⟩
    rintro -
    constructor <;> rintro rfl <;> simp at hhead

theorem not_canonical_star {t : Bytes} {c : Chunk} {cs : List Chunk}
    (ht : Text.chunks t = c :: cs) (hne : c ≠ []) (hstar : c ≠ [star]) :
    ¬ Canonical (Text.chunks (star :: t)) := by
  intro h
  rw [Text.chunks_cons (by decide), ht, List.modifyHead_cons] at h
  have hcanon := h.chunk (star :: c) (by simp)
  simp [canonChunk, not_mixedChunk_star, hne, hstar] at hcanon

end WatchingZenoh.KeyexprGrammar
