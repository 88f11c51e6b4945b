import WatchingZenoh.KeyexprIntersect

/-! What the inclusion test promises: it is sound for the keys of its right side, and a preorder as
far as pairs of suffixes can be counted. The chunk test looks for the parts of one chunk in the raw
text of the other; a part has no byte of a `$*` token, so it is found inside a single part of the
other chunk and stays there in every word that chunk spells. -/

namespace WatchingZenoh.KeyexprInclude

open SuperWild Gaps KeyexprMatch KeyexprLanguage KeyexprGrammar KeyexprCollapse KeyexprParts
open KeyexprDescent KeyexprCommonChunk KeyexprIntersect KeyexprCanon KeyexprValidate

section Spelling

theorem spells_splitDsl_dsl (c : Chunk) (w : Bytes) :
    Spells (splitDsl (dollar :: star :: c)) w ↔ ∃ gap v, w = gap ++ v ∧ Spells (splitDsl c) v := by
  rw [splitDsl_dsl, spells_cons (splitDsl_ne_nil c)]
  simp [Trails]

theorem spells_append_plain {front : Bytes} (hfront : dollar ∉ front) {c : Chunk} {w : Bytes}
    (h : Spells (splitDsl (front ++ c)) w) : ∃ v, w = front ++ v ∧ Spells (splitDsl c) v := by
  induction front generalizing w with
  | nil => exact ⟨w, rfl, h⟩
  | cons a front ih =>
    have hno : ¬ startsDsl (a :: (front ++ c)) := by
      rw [startsDsl_cons]
      rintro ⟨rfl, _⟩
      simp at hfront
    obtain ⟨u, rfl, hu⟩ := (spells_splitDsl_cons hno).mp h
    obtain ⟨v, rfl, hv⟩ := ih (fun hf => hfront (by simp [hf])) hu
    exact ⟨v, rfl, hv⟩

/-- What follows any start of a chunk follows some start of every word, if no `$*` is cut in
two. -/
theorem spells_append_gap {front : Bytes} {c : Chunk} (hc : c.head? ≠ some star) {w : Bytes}
    (h : Spells (splitDsl (front ++ c)) w) : ∃ gap v, w = gap ++ v ∧ Spells (splitDsl c) v := by
  induction front using dsl_induction generalizing w with
  | nil => exact ⟨[], w, rfl, h⟩
  | dsl front ih =>
    obtain ⟨gap, u, rfl, hu⟩ := (spells_splitDsl_dsl _ w).mp h
    obtain ⟨gap', v, rfl, hv⟩ := ih hu
    exact ⟨gap ++ gap', v, by simp, hv⟩
  | cons a front hno ih =>
    have hno' : ¬ startsDsl (a :: (front ++ c)) := by
      rw [startsDsl_cons] at hno ⊢
      rintro ⟨ha, hhead⟩
      rcases front with _ | ⟨b, front⟩
      · exact hc hhead
      · exact hno ⟨ha, hhead⟩
    obtain ⟨u, rfl, hu⟩ := (spells_splitDsl_cons hno').mp h
    obtain ⟨gap, v, rfl, hv⟩ := ih hu
    exact ⟨a :: gap, v, rfl, hv⟩

/-- Parts that can be looked for in the text of a chunk: no byte of a `$*`, and only the last part
may be empty. -/
structure Searchable (parts : List Bytes) : Prop where
  plain : ∀ part ∈ parts, ∀ b ∈ part, plain b = true
  inner : ∀ part ∈ parts.dropLast, part ≠ []

theorem dollar_not_mem_of_plain {part : Bytes} (h : ∀ b ∈ part, plain b = true) : dollar ∉ part :=
  fun hb => absurd (h dollar hb) (by decide)

theorem head?_ne_star_of_plain {part c : Bytes} (h : ∀ b ∈ part, plain b = true)
    (hne : part ≠ []) : (part ++ c).head? ≠ some star := by
  obtain ⟨b, part, rfl⟩ := List.exists_cons_of_ne_nil hne
  intro hhead
  have hb : b = star := by simpa using hhead
  exact absurd (h b (by simp)) (by rw [hb]; decide)

theorem trails_of_spells {parts : List Bytes} (hne : parts ≠ []) (hparts : Searchable parts)
    {c : Chunk} {w : Bytes} (h : Trails parts c) (hw : Spells (splitDsl c) w) : Trails parts w := by
  induction parts generalizing c w with
  | nil => exact absurd rfl hne
  | cons p parts ih =>
    have hp : ∀ b ∈ p, KeyexprGrammar.plain b = true := hparts.plain p (by simp)
    rcases parts with _ | ⟨q, parts⟩
    · obtain ⟨front, rfl⟩ := trails_singleton.mp h
      rw [trails_singleton]
      by_cases hpe : p = []
      · subst hpe
        exact List.nil_suffix
      · have hhead : p.head? ≠ some star := by
          simpa using @head?_ne_star_of_plain p [] hp hpe
        obtain ⟨gap, u, rfl, hu⟩ := spells_append_gap hhead hw
        rw [← List.append_nil p] at hu
        obtain ⟨v, rfl, hv⟩ := spells_append_plain (dollar_not_mem_of_plain hp) hu
        obtain rfl : v = [] := hv
        exact ⟨gap, by simp⟩
    · have hpe : p ≠ [] := hparts.inner p (by simp)
      rw [trails_cons (by simp)] at h ⊢
      obtain ⟨front, rest, rfl, hrest⟩ := h
      have hparts' : Searchable (q :: parts) :=
        ⟨fun part hm => hparts.plain part (by simp [hm]),
          fun part hm => hparts.inner part (by simp [hm])⟩
      obtain ⟨gap, u, rfl, hu⟩ := spells_append_gap (head?_ne_star_of_plain hp hpe) hw
      obtain ⟨v, rfl, hv⟩ := spells_append_plain (dollar_not_mem_of_plain hp) hu
      exact ⟨gap, v, rfl, ih (by simp) hparts' hrest hv⟩

theorem inner_parts_ne_nil {c : Chunk} {after : Bool} (h : mixedTail after c = true) :
    (∀ part ∈ (splitDsl c).tail.dropLast, part ≠ []) ∧
      (after = true → (splitDsl c).tail ≠ [] → (splitDsl c).headD [] ≠ []) := by
  fun_induction mixedTail after c with
  | case1 => simp [splitDsl]
  | case2 after c rest ih =>
    simp only [Bool.and_eq_true, beq_iff_eq, Bool.not_eq_true'] at h
    obtain ⟨⟨rfl, rfl⟩, h⟩ := h
    obtain ⟨hinner, hhead⟩ := ih h
    rw [splitDsl_dsl]
    refine ⟨?_, by simp⟩
    obtain ⟨p, parts, hs⟩ := List.exists_cons_of_ne_nil (splitDsl_ne_nil rest)
    rw [hs] at hinner hhead ⊢
    rcases parts with _ | ⟨q, parts⟩
    · simp
    · intro part hm
      rcases List.mem_cons.mp (by simpa using hm : part ∈ p :: (q :: parts).dropLast) with rfl | hm
      · simpa using hhead rfl (by simp)
      · exact hinner part hm
  | case3 => simp at h
  | case4 after b rest hb ih =>
    rw [Bool.and_eq_true] at h
    have hno : ¬ startsDsl (b :: rest) := fun hs => hb (startsDsl_cons.mp hs).1
    obtain ⟨p, parts, hs⟩ := List.exists_cons_of_ne_nil (splitDsl_ne_nil rest)
    have hinner := (ih h.2).1
    rw [hs] at hinner
    rw [splitDsl_cons hno, hs, List.modifyHead_cons]
    exact ⟨hinner, by simp⟩

theorem searchable_parts {c : Chunk} (h : mixedTail false c = true) :
    Searchable (splitDsl c).tail :=
  ⟨fun part hm => plain_of_mem_parts h part (List.mem_of_mem_tail hm), (inner_parts_ne_nil h).1⟩

theorem spells_trans {p q : Chunk} (hp : mixedTail false p = true) (hdsl : containsDsl p = true)
    {w : Bytes} (hpq : Spells (splitDsl p) q) (hw : Spells (splitDsl q) w) :
    Spells (splitDsl p) w := by
  obtain ⟨lead, mids, trail, hs⟩ := exists_parts_of_containsDsl hdsl
  have hlead : ∀ b ∈ lead, KeyexprGrammar.plain b = true :=
    plain_of_mem_parts hp lead (by simp [hs])
  have hrest := searchable_parts hp
  rw [hs, List.tail_cons] at hrest
  rw [hs, spells_cons (by simp)] at hpq ⊢
  obtain ⟨rest, rfl, htrails⟩ := hpq
  obtain ⟨v, rfl, hv⟩ := spells_append_plain (dollar_not_mem_of_plain hlead) hw
  exact ⟨v, rfl, trails_of_spells (by simp) hrest htrails hv⟩

end Spelling

section Chunks

variable {p q r t : Chunk}

theorem chunkIncludes_self (p : Chunk) : chunkIncludes p p = true := by
  simp [chunkIncludes]

/-- How one chunk includes another: it is the same, or neither is verbatim and it is `*`, or its
parts are found in the text of the other. -/
theorem chunkIncludes_cases (h : chunkIncludes p q = true) :
    p = q ∨ (isVerbatimChunk p = false ∧ isVerbatimChunk q = false ∧
      (p = singleStar ∨ (q ≠ singleStar ∧ containsDsl p = true ∧ Spells (splitDsl p) q))) := by
  unfold chunkIncludes at h
  split_ifs at h with heq hverb hp hq hdsl hdsl'
  · exact .inl heq
  · simp only [Bool.or_eq_true, not_or, Bool.not_eq_true] at hverb
    exact .inr ⟨hverb.1, hverb.2, .inl hp⟩
  · simp only [Bool.or_eq_true, not_or, Bool.not_eq_true] at hverb
    exact .inr ⟨hverb.1, hverb.2, .inr ⟨hq, hdsl, (chunkMatchesWithDsl_iff hdsl q).mp h⟩⟩
  · exact .inl (by simpa using h)

theorem chunkIncludes_star (hp : p = singleStar) (hq : isVerbatimChunk q = false) :
    chunkIncludes p q = true := by
  have hvp : isVerbatimChunk p = false := by
    subst hp
    decide
  unfold chunkIncludes
  split_ifs <;> simp_all

theorem chunkIncludes_of_spells (hvp : isVerbatimChunk p = false) (hvq : isVerbatimChunk q = false)
    (hq : q ≠ singleStar) (hdsl : containsDsl p = true) (h : Spells (splitDsl p) q) :
    chunkIncludes p q = true := by
  have hm := (chunkMatchesWithDsl_iff hdsl q).mpr h
  unfold chunkIncludes
  split_ifs <;> simp_all

theorem mixedTail_of_containsDsl (hc : canonChunk p = true) (hdsl : containsDsl p = true) :
    mixedTail false p = true := by
  refine mixedTail_of_canonChunk hc ?_ ?_
  · rintro rfl
    exact absurd hdsl (by decide)
  · rintro rfl
    exact absurd hdsl (by decide)

theorem meets_of_chunkIncludes (hc : canonChunk p = true) (h : chunkIncludes p q = true)
    (ht : alphabet.meets q t) : alphabet.meets p t := by
  rcases chunkIncludes_cases h with rfl | ⟨hvp, hvq, hp⟩
  · exact ht
  have hvt : isVerbatimChunk t = false := by
    rw [← Bool.not_eq_true]
    intro hclosed
    have hres := (pairing.closed_iff_reserved ht).mp hclosed
    simp [pairing, hvq] at hres
  rcases hp with rfl | ⟨hq, hdsl, hspells⟩
  · exact .inl ⟨rfl, hvt⟩
  refine .inr ((chunkMatches_iff p t).mpr (.inr ⟨hvp, hvt, hdsl, ?_⟩))
  rcases meets_cases ht with rfl | ⟨_, _, hstar | ⟨_, hqt⟩⟩
  · exact hspells
  · exact absurd hstar hq
  · exact spells_trans (mixedTail_of_containsDsl hc hdsl) hdsl hspells hqt

theorem chunkIncludes_trans (hc : canonChunk p = true) (hpq : chunkIncludes p q = true)
    (hqr : chunkIncludes q r = true) : chunkIncludes p r = true := by
  rcases chunkIncludes_cases hpq with rfl | ⟨hvp, hvq, hp⟩
  · exact hqr
  rcases chunkIncludes_cases hqr with rfl | ⟨_, hvr, hq⟩
  · exact hpq
  rcases hp with hp | ⟨hqs, hdsl, hspells⟩
  · exact chunkIncludes_star hp hvr
  rcases hq with hq | ⟨hrs, _, hqr⟩
  · exact absurd hq hqs
  exact chunkIncludes_of_spells hvp hvr hrs hdsl
    (spells_trans (mixedTail_of_containsDsl hc hdsl) hdsl hspells hqr)

theorem not_verbatim_of_chunkIncludes (hq : isVerbatimChunk q = false)
    (h : chunkIncludes q r = true) : isVerbatimChunk r = false := by
  rcases chunkIncludes_cases h with rfl | ⟨_, hr, _⟩
  · exact hq
  · exact hr

end Chunks

theorem includes_refl (cs : List Chunk) : Includes pairing cs cs :=
  Includes.refl chunkIncludes_self cs

theorem includes_trans {as bs cs : List Chunk} (ha : ∀ p ∈ as, canonChunk p = true)
    (hab : Includes pairing as bs) (hbc : Includes pairing bs cs) : Includes pairing as cs := by
  refine hab.trans ?_ hbc fun p hp q _ r _ => chunkIncludes_trans (ha p hp)
  intro q r hq hqr
  simpa [pairing] using not_verbatim_of_chunkIncludes (by simpa [pairing] using hq) hqr

/-- The inclusion test under a canonical key expression: whatever key the right side matches the
left side matches, and as far as the pairs of suffixes can be counted it is a preorder. -/
theorem keyexprIncludesPatterns_preorder (a b c : Bytes) (ha : validateKeyexpr a = .ok ()) :
    (keyexprIncludesPatterns (Text.chunks a) (Text.chunks b) = true →
      ∀ k, ConcreteKey k → keyexprPatternMatches (Text.chunks b) k = true →
        keyexprPatternMatches (Text.chunks a) k = true) ∧
      (keyexprIncludesPatterns (Text.chunks a) (Text.chunks a) = true ↔
        Refuted.fits (Text.chunks a).length (Text.chunks a).length = true) ∧
      (keyexprIncludesPatterns (Text.chunks a) (Text.chunks b) = true →
        keyexprIncludesPatterns (Text.chunks b) (Text.chunks c) = true →
        (keyexprIncludesPatterns (Text.chunks a) (Text.chunks c) = true ↔
          Refuted.fits (Text.chunks a).length (Text.chunks c).length = true)) := by
  rw [validateKeyexpr_ok_iff] at ha
  simp only [keyexprIncludesPatterns_eq_true_iff]
  refine ⟨?_, ?_, ?_⟩
  · rintro ⟨_, hab⟩ k _ hk
    rw [keyexprPatternMatches_iff] at hk ⊢
    refine ⟨hk.1, hab.covers ?_ hk.2⟩
    exact fun p hp q _ hpq t => meets_of_chunkIncludes (ha.chunk p hp) hpq
  · exact and_iff_left (includes_refl _)
  · rintro ⟨_, hab⟩ ⟨_, hbc⟩
    exact and_iff_left (includes_trans ha.chunk hab hbc)

/-- `**` over `a$*` over `ab`. -/
theorem keyexprIncludesPatterns_preorder_three :
    validateKeyexpr [star, star] = .ok () ∧
      keyexprPatternMatches (Text.chunks [star, star]) [0x61, 0x62] = true ∧
      keyexprIncludesPatterns (Text.chunks [star, star]) (Text.chunks [star, star]) = true ∧
      keyexprIncludesPatterns (Text.chunks [star, star]) (Text.chunks [0x61, 0x62]) = true := by
  have ha : validateKeyexpr [star, star] = .ok () := by decide +kernel
  have hab : keyexprIncludesPatterns (Text.chunks [star, star])
      (Text.chunks [0x61, dollar, star]) = true := by decide +kernel
  have hbc : keyexprIncludesPatterns (Text.chunks [0x61, dollar, star])
      (Text.chunks [0x61, 0x62]) = true := by decide +kernel
  have hkey : ConcreteKey [0x61, 0x62] := by decide +kernel
  have hmatch : keyexprPatternMatches (Text.chunks [0x61, dollar, star]) [0x61, 0x62] = true := by
    decide +kernel
  have h := keyexprIncludesPatterns_preorder [star, star] [0x61, dollar, star] [0x61, 0x62] ha
  exact ⟨ha, h.1 hab _ hkey hmatch, h.2.1.mpr (by decide +kernel),
    (h.2.2 hab hbc).mpr (by decide +kernel)⟩

/-- `x` / `**` over and over. -/
def alternating : ℕ → List Chunk
  | 0 => []
  | n + 1 => [filler] :: doubleStar :: alternating n

/-- `x` so many times before one `**`. -/
def leading (n : ℕ) : List Chunk := List.replicate n [filler] ++ [doubleStar]

@[simp]
theorem length_alternating (n : ℕ) : (alternating n).length = 2 * n := by
  induction n with
  | zero => rfl
  | succ n ih =>
    simp only [alternating, List.length_cons, ih]
    omega

theorem leading_succ (n : ℕ) : leading (n + 1) = [filler] :: leading n := by
  simp [leading, List.replicate_succ]

theorem mem_alternating {n : ℕ} {c : Chunk} (h : c ∈ alternating n) : c = [filler] ∨ c = doubleStar := by
  induction n with
  | zero => cases h
  | succ n ih =>
    simp only [alternating, List.mem_cons] at h
    rcases h with h | h | h
    · exact .inl h
    · exact .inr h
    · exact ih h

theorem mem_leading {n : ℕ} {c : Chunk} (h : c ∈ leading n) : c = [filler] ∨ c = doubleStar := by
  rcases List.mem_append.mp h with h | h
  · exact .inl (List.eq_of_mem_replicate h)
  · exact .inr (List.mem_singleton.mp h)

theorem isChain_alternating (n : ℕ) : (doubleStar :: alternating n).IsChain inOrder := by
  induction n with
  | zero => simp [alternating]
  | succ n ih =>
    rw [alternating, List.isChain_cons_cons, List.isChain_cons_cons]
    exact ⟨fun _ => ⟨by decide, by decide⟩, fun h => absurd h (by decide), ih⟩

theorem isChain_leading (n : ℕ) : (leading n).IsChain inOrder := by
  induction n with
  | zero => simp [leading]
  | succ n ih =>
    rw [leading_succ]
    cases n with
    | zero => exact List.isChain_pair.mpr fun h => absurd h (by decide)
    | succ n =>
      rw [leading_succ] at ih ⊢
      exact List.isChain_cons_cons.mpr ⟨fun h => absurd h (by decide), ih⟩

theorem validate_fillers {cs : List Chunk} (hne : cs ≠ [])
    (hcs : ∀ c ∈ cs, c = [filler] ∨ c = doubleStar) (horder : cs.IsChain inOrder) :
    Text.chunks (Text.join cs) = cs ∧ validateKeyexpr (Text.join cs) = .ok () := by
  have hchunks : Text.chunks (Text.join cs) = cs := by
    refine Text.chunks_join (fun c hc => ?_) hne
    rcases hcs c hc with rfl | rfl <;> decide
  refine ⟨hchunks, ?_⟩
  rw [validateKeyexpr_ok_iff, hchunks]
  refine ⟨hne, fun c hc => ?_, horder⟩
  rcases hcs c hc with rfl | rfl <;> decide

theorem includes_leading (n : ℕ) : Includes pairing (alternating (n + 1)) (leading (n + 1)) := by
  have hitem : ∀ {ps qs}, Includes pairing ps qs → Includes pairing ([filler] :: ps) ([filler] :: qs) :=
    .item (by simp [alphabet]) (by simp [alphabet]) (chunkIncludes_self _)
  induction n with
  | zero => exact hitem (includes_refl _)
  | succ n ih =>
    rw [leading_succ, alternating]
    exact hitem (.stop rfl ih)

theorem includes_longKey (n m : ℕ) : Includes pairing (leading n) (List.replicate (n + m) [filler]) := by
  induction n with
  | zero =>
    rw [Nat.zero_add]
    induction m with
    | zero => exact .stop rfl .nil
    | succ m ih =>
      rw [List.replicate_succ]
      exact .take rfl (by simp [pairing]; decide) ih
  | succ n ih =>
    rw [leading_succ, Nat.add_right_comm, List.replicate_succ]
    exact .item (by simp [alphabet]) (by simp [alphabet]) (chunkIncludes_self _) ih

/-- Where the pairs of suffixes cannot be counted the test answers no: a key of `2 ^ 32` chunks does
not include itself, and `2 ^ 31` times `x` / `**` does not include a key of `2 ^ 32 - 1` chunks though
it includes `2 ^ 31` times `x` before `**` and that one includes the key. -/
theorem not_keyexprIncludesPatterns_preorder :
    (¬ ∀ a, validateKeyexpr a = .ok () →
      keyexprIncludesPatterns (Text.chunks a) (Text.chunks a) = true) ∧
      ¬ ∀ a b c, validateKeyexpr a = .ok () → validateKeyexpr b = .ok () →
        validateKeyexpr c = .ok () →
        keyexprIncludesPatterns (Text.chunks a) (Text.chunks b) = true →
        keyexprIncludesPatterns (Text.chunks b) (Text.chunks c) = true →
        keyexprIncludesPatterns (Text.chunks a) (Text.chunks c) = true := by
  constructor
  · intro h
    have hn : 2 ^ 32 ≠ 0 := by decide
    have htrue := h _ (validate_longKey hn)
    rw [keyexprIncludesPatterns_eq_true_iff, chunks_longKey hn, List.length_replicate] at htrue
    exact absurd htrue.1 (by decide +kernel)
  · intro h
    obtain ⟨n, hn⟩ : ∃ n, n + 1 = 2 ^ 31 := ⟨2 ^ 31 - 1, by decide⟩
    obtain ⟨hachunks, ha⟩ := validate_fillers (by simp [alternating]) (fun _ => mem_alternating)
      (isChain_alternating (n + 1)).tail
    obtain ⟨hbchunks, hb⟩ := validate_fillers (by simp [leading]) (fun _ => mem_leading)
      (isChain_leading (n + 1))
    have hkey : n + 1 + n ≠ 0 := by omega
    have hblength : (leading (n + 1)).length = n + 1 + 1 := by simp [leading]
    have hab : keyexprIncludesPatterns (Text.chunks (Text.join (alternating (n + 1))))
        (Text.chunks (Text.join (leading (n + 1)))) = true := by
      rw [keyexprIncludesPatterns_eq_true_iff, hachunks, hbchunks, length_alternating, hblength]
      refine ⟨?_, includes_leading n⟩
      rw [hn]
      decide +kernel
    have hbc : keyexprIncludesPatterns (Text.chunks (Text.join (leading (n + 1))))
        (Text.chunks (longKey (n + 1 + n))) = true := by
      rw [keyexprIncludesPatterns_eq_true_iff, hbchunks, chunks_longKey hkey, hblength,
        List.length_replicate]
      refine ⟨?_, includes_longKey _ _⟩
      rw [show n + 1 + n = 2 ^ 32 - 1 by omega, hn]
      decide +kernel
    have hac := h _ _ _ ha hb (validate_longKey hkey) hab hbc
    rw [keyexprIncludesPatterns_eq_true_iff, hachunks, chunks_longKey hkey, length_alternating,
      List.length_replicate, show n + 1 + n = 2 ^ 32 - 1 by omega, hn] at hac
    exact absurd hac.1 (by decide +kernel)

end WatchingZenoh.KeyexprInclude
