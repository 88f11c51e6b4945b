import WatchingZenoh.KeyexprParts

/-! The keys of a pattern, said chunk by chunk and without the matcher: which lists of chunks a list
of pattern chunks stands for. The matcher answers exactly whether the chunks of a concrete key are
one of them. -/

namespace WatchingZenoh.KeyexprPattern

open KeyexprMatch KeyexprLanguage KeyexprGrammar KeyexprParts KeyexprCollapse Gaps SuperWild

/-- A chunk with each `$*` of it replaced by some text. -/
inductive Filled : Chunk → Chunk → Prop
  | nil : Filled [] []
  | gap {rest word : Chunk} (text : Bytes) : Filled rest word →
      Filled (dollar :: star :: rest) (text ++ word)
  | byte {b : UInt8} {rest word : Chunk} : ¬ startsDsl (b :: rest) → Filled rest word →
      Filled (b :: rest) (b :: word)

/-- The chunks that one pattern chunk other than `**` stands for. -/
inductive Stands : Chunk → Chunk → Prop
  | star {t : Chunk} : isVerbatimChunk t = false → Stands singleStar t
  | dsl {p t : Chunk} : containsDsl p = true → isVerbatimChunk t = false → Filled p t → Stands p t
  | itself {p : Chunk} : p ≠ singleStar → containsDsl p = false → Stands p p

/-- The lists of chunks that a pattern stands for. -/
inductive Language : List Chunk → List Chunk → Prop
  | nil : Language [] []
  | double {ps ts : List Chunk} (run : List Chunk) : (∀ c ∈ run, isVerbatimChunk c = false) →
      Language ps ts → Language (doubleStar :: ps) (run ++ ts)
  | chunk {p t : Chunk} {ps ts : List Chunk} : p ≠ doubleStar → Stands p t → Language ps ts →
      Language (p :: ps) (t :: ts)

theorem spells_modifyHead {a : UInt8} {parts : List Bytes} (hne : parts ≠ []) {w : Bytes} :
    Spells (parts.modifyHead (a :: ·)) w ↔ ∃ v, w = a :: v ∧ Spells parts v := by
  obtain ⟨p, rest, rfl⟩ := List.exists_cons_of_ne_nil hne
  rw [List.modifyHead_cons]
  cases rest with
  | nil =>
    constructor
    · intro h
      exact ⟨p, h, rfl⟩
    · rintro ⟨v, rfl, hv⟩
      exact congrArg (a :: ·) hv
  | cons q rest =>
    constructor
    · rintro ⟨gap, v, rfl, h⟩
      exact ⟨p ++ (gap ++ v), rfl, gap, v, rfl, h⟩
    · rintro ⟨w', rfl, gap, v, rfl, h⟩
      exact ⟨gap, v, rfl, h⟩

theorem filled_iff (p t : Chunk) : Filled p t ↔ Spells (splitDsl p) t := by
  induction p using dsl_induction generalizing t with
  | nil =>
    constructor
    · intro h
      cases h
      rfl
    · intro h
      rw [show t = [] from h]
      exact .nil
  | dsl rest ih =>
    rw [splitDsl_dsl, spells_cons (splitDsl_ne_nil rest)]
    constructor
    · intro h
      cases h with
      | gap text hrest => exact ⟨_, rfl, text, _, rfl, (ih _).mp hrest⟩
      | byte hno _ => exact absurd ⟨rest, rfl⟩ hno
    · rintro ⟨v, rfl, text, word, rfl, hword⟩
      exact .gap text ((ih word).mpr hword)
  | cons a rest hno ih =>
    rw [splitDsl_cons hno, spells_modifyHead (splitDsl_ne_nil rest)]
    constructor
    · intro h
      cases h with
      | gap text _ => exact absurd ⟨_, rfl⟩ hno
      | byte _ hrest => exact ⟨_, rfl, (ih _).mp hrest⟩
    · rintro ⟨v, rfl, hv⟩
      exact .byte hno ((ih v).mpr hv)

theorem not_containsDsl_of_concrete {t : Chunk} (h : concreteChunk t = true) :
    containsDsl t = false := by
  by_contra hdsl
  rw [Bool.not_eq_false] at hdsl
  have hplain : ∀ b ∈ t, plain b = true := by
    simp only [concreteChunk, Bool.and_eq_true, List.all_eq_true] at h
    exact h.2
  have hmem : dollar ∈ t := by
    clear h hplain
    fun_induction containsDsl t with
    | case1 a b rest ih =>
      rw [Bool.or_eq_true] at hdsl
      rcases hdsl with hab | hrest
      · simp only [Bool.and_eq_true, beq_iff_eq] at hab
        simp [hab.1]
      · exact List.mem_cons_of_mem _ (ih hrest)
    | case2 => simp at hdsl
  exact absurd (hplain dollar hmem) (by decide)

theorem meets_iff_stands {p t : Chunk} (ht : concreteChunk t = true) (hp : p ≠ doubleStar) :
    alphabet.meets p t ↔ Stands p t := by
  have hfree := not_containsDsl_of_concrete ht
  have hstar : t ≠ singleStar := by
    rintro rfl
    exact absurd ht (by decide)
  constructor
  · rintro (⟨rfl, hverb⟩ | hmatch)
    · exact .star hverb
    · rcases (chunkMatches_iff p t).mp hmatch with rfl | ⟨-, hverb, hdsl, hspells⟩
      · exact .itself hstar hfree
      · exact .dsl hdsl hverb ((filled_iff p t).mpr hspells)
  · intro h
    cases h with
    | star hverb => exact .inl ⟨rfl, hverb⟩
    | itself hne hno => exact .inr ((chunkMatches_iff p p).mpr (.inl rfl))
    | dsl hdsl hverb hfilled =>
      by_cases hpv : isVerbatimChunk p = true
      · exfalso
        have hhead : p.head? = some atSign := by simpa [isVerbatimChunk] using hpv
        obtain ⟨rest, rfl⟩ : ∃ rest, p = atSign :: rest := by
          cases p with
          | nil => simp at hhead
          | cons a rest => exact ⟨rest, by simpa using hhead⟩
        cases hfilled with
        | byte _ hrest => simp [isVerbatimChunk] at hverb
      · rw [Bool.not_eq_true] at hpv
        exact .inr ((chunkMatches_iff p t).mpr (.inr ⟨hpv, hverb, hdsl, (filled_iff p t).mp hfilled⟩))

theorem covers_iff_language {ps ts : List Chunk} (ht : ∀ t ∈ ts, concreteChunk t = true) :
    Covers alphabet ps ts ↔ Language ps ts := by
  constructor
  · intro h
    induction h with
    | nil => exact .nil
    | stop hwide hrest ih =>
      rw [show _ = doubleStar from hwide]
      exact .double [] (by simp) (ih ht)
    | @take p ps t ts hwide hopen hrest ih =>
      obtain rfl : p = doubleStar := hwide
      have hverb : isVerbatimChunk t = false := by simpa [alphabet] using hopen
      have hmore := ih fun u hu => ht u (by simp [hu])
      generalize hall : doubleStar :: ps = all at hmore
      cases hmore with
      | nil => simp at hall
      | double run hrun hlang =>
        obtain ⟨-, rfl⟩ := List.cons.inj hall
        refine .double (t :: run) (fun c hc => ?_) hlang
        rcases List.mem_cons.mp hc with rfl | hc
        · exact hverb
        · exact hrun c hc
      | chunk hne _ _ => exact absurd (List.cons.inj hall).1.symm hne
    | item hnot hmeets hrest ih =>
      have hlang := ih fun u hu => ht u (by simp [hu])
      exact .chunk hnot ((meets_iff_stands (ht _ (by simp)) hnot).mp hmeets) hlang
  · intro h
    induction h with
    | nil => exact .nil
    | double run hrun hlang ih =>
      rw [covers_wide_split rfl]
      refine ⟨run, _, rfl, fun c hc => ?_, ih fun u hu => ht u (by simp [hu])⟩
      simpa [alphabet] using hrun c hc
    | chunk hne hstands hlang ih =>
      exact .item hne ((meets_iff_stands (ht _ (by simp)) hne).mpr hstands)
        (ih fun u hu => ht u (by simp [hu]))

/-- The matcher answers whether the chunks of a key are in the language of the pattern, whatever the
form of its chunks. -/
theorem keyexprPatternMatches_iff_language (pattern : List Chunk) (key : Bytes)
    (hkey : ConcreteKey key) :
    keyexprPatternMatches pattern key = true ↔ Language pattern (Text.chunks key) := by
  have hne : ∀ c ∈ Text.chunks key, c ≠ [] := fun c hc hnil => by
    have := hkey c hc
    simp [hnil, concreteChunk] at this
  rw [keyexprPatternMatches_iff, covers_iff_language hkey]
  exact and_iff_right hne

/-- `**/a$*/**/c` and a key in which the first `a` chunk is not the one that counts. -/
theorem keyexprPatternMatches_iff_language_twice :
    Language [doubleStar, [0x61, dollar, star], doubleStar, [0x63]]
      (Text.chunks [0x61, 0x62, slash, 0x61, slash, 0x63]) :=
  (keyexprPatternMatches_iff_language _ _ (by decide)).mp (by decide +kernel)

end WatchingZenoh.KeyexprPattern
