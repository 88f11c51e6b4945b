import WatchingZenoh.KeyexprParts
import WatchingZenoh.KeyexprPrefix

/-! The chunk matcher of the prefix walk against the one keys are delivered with. The two differ on
a verbatim chunk with a `$*`, which only the walk lets stand for something, and behind a `$*`, where
the walk does not look at the last byte of the prefix chunk. -/

namespace WatchingZenoh.KeyexprPrefixChunk

open Gaps KeyexprMatch KeyexprLanguage KeyexprGrammar KeyexprParts KeyexprCollapse KeyexprPrefix

/-- Spelled with room: a gap is empty, or the last thing in the chunk, or has two bytes behind it. -/
def Roomy : List Bytes → Bytes → Prop
  | [], w => w = []
  | [last], w => w = last
  | p :: q :: rest, w =>
    ∃ gap v, w = p ++ (gap ++ v) ∧ (gap = [] ∨ q :: rest = [[]] ∨ 2 ≤ v.length) ∧
      Roomy (q :: rest) v

theorem Roomy.spells {parts : List Bytes} {w : Bytes} (h : Roomy parts w) : Spells parts w := by
  induction parts generalizing w with
  | nil => exact h
  | cons p parts ih =>
    rcases parts with _ | ⟨q, rest⟩
    · exact h
    · obtain ⟨gap, v, hw, _, hv⟩ := h
      exact ⟨gap, v, hw, ih hv⟩

theorem roomy_cons_cons {a : UInt8} {p : Bytes} {parts : List Bytes} {w : Bytes} :
    Roomy ((a :: p) :: parts) w ↔ ∃ v, w = a :: v ∧ Roomy (p :: parts) v := by
  rcases parts with _ | ⟨q, rest⟩
  · simp [Roomy]
  · constructor
    · rintro ⟨gap, v, rfl, hroom, hv⟩
      exact ⟨_, rfl, gap, v, rfl, hroom, hv⟩
    · rintro ⟨_, rfl, gap, v, rfl, hroom, hv⟩
      exact ⟨gap, v, rfl, hroom, hv⟩

theorem roomy_splitDsl_cons {a : UInt8} {c : Chunk} (h : ¬ startsDsl (a :: c)) {w : Bytes} :
    Roomy (splitDsl (a :: c)) w ↔ ∃ v, w = a :: v ∧ Roomy (splitDsl c) v := by
  obtain ⟨p, parts, hc⟩ := List.exists_cons_of_ne_nil (splitDsl_ne_nil c)
  rw [splitDsl_cons h, hc, List.modifyHead_cons, roomy_cons_cons]

theorem roomy_splitDsl_dsl {c : Chunk} {w : Bytes} :
    Roomy (splitDsl (dollar :: star :: c)) w ↔
      ∃ gap v, w = gap ++ v ∧ (gap = [] ∨ splitDsl c = [[]] ∨ 2 ≤ v.length) ∧
        Roomy (splitDsl c) v := by
  obtain ⟨p, parts, hc⟩ := List.exists_cons_of_ne_nil (splitDsl_ne_nil c)
  rw [splitDsl_dsl, hc]
  rfl

theorem plain_of_mixedTail {after : Bool} {a : UInt8} {c : Chunk} (hdsl : ¬ startsDsl (a :: c))
    (h : mixedTail after (a :: c) = true) :
    a ≠ dollar ∧ plain a = true ∧ mixedTail false c = true := by
  have ha : a ≠ dollar := by
    rintro rfl
    have hhead : c.head? ≠ some star := fun hc => hdsl (startsDsl_cons.mpr ⟨rfl, hc⟩)
    rw [not_mixedTail_dollar hhead] at h
    simp at h
  rw [mixedTail_plain_cons ha, Bool.and_eq_true] at h
  exact ⟨ha, h⟩

theorem exists_first_of_mixedTail {c : Chunk} (h : mixedTail true c = true) (hne : c ≠ []) :
    ∃ a rest, c = a :: rest ∧ ¬ startsDsl (a :: rest) := by
  obtain ⟨a, rest, rfl⟩ := List.exists_cons_of_ne_nil hne
  refine ⟨a, rest, rfl, fun hdsl => ?_⟩
  obtain ⟨hhead, _⟩ := (mixedTail_true_iff _).mp h
  exact hhead (by simp [(startsDsl_cons.mp hdsl).1])

theorem splitDsl_eq_nil_iff {c : Chunk} : splitDsl c = [[]] ↔ c = [] := by
  constructor
  · intro h
    have hs := spells_self c
    rw [h] at hs
    exact hs
  · rintro rfl
    rfl

theorem mem_anchors {w v : Bytes} : v ∈ anchors w ↔ 2 ≤ v.length ∧ v <:+ w := by
  induction w with
  | nil =>
    simp only [anchors, List.not_mem_nil, List.suffix_nil, false_iff]
    rintro ⟨hlen, rfl⟩
    simp at hlen
  | cons a w ih =>
    rcases w with _ | ⟨b, w⟩
    · simp only [anchors, List.not_mem_nil, false_iff]
      rintro ⟨hlen, hsuf⟩
      have := hsuf.length_le
      simp at this
      omega
    · rw [anchors, List.mem_cons, ih]
      constructor
      · rintro (rfl | ⟨hlen, hsuf⟩)
        · exact ⟨by simp, List.suffix_refl _⟩
        · exact ⟨hlen, hsuf.trans (List.suffix_cons a (b :: w))⟩
      · rintro ⟨hlen, hsuf⟩
        rcases List.suffix_cons_iff.mp hsuf with rfl | hsuf
        · exact .inl rfl
        · exact .inr ⟨hlen, hsuf⟩

section MatchBytes

variable {c : Chunk} {pre : Bytes}

theorem matchBytes_cons {a : UInt8} (hplain : plain a = true) (tprev : UInt8) :
    matchBytes (a :: c) pre tprev = true ↔ ∃ v, pre = a :: v ∧ matchBytes c v a = true := by
  have hstar : a ≠ star := by
    rintro rfl
    exact absurd hplain (by decide)
  have hdollar : a ≠ dollar := by
    rintro rfl
    exact absurd hplain (by decide)
  rcases pre with _ | ⟨b, pre⟩
  · simp [matchBytes, hdollar]
  · rw [matchBytes, if_neg hstar]
    by_cases hab : a = b
    · subst hab
      simp
    · simp [hab, hdollar, Ne.symm hab]

theorem matchBytes_dsl_nil (tprev : UInt8) :
    matchBytes (dollar :: star :: c) [] tprev = true ↔ c = [] := by
  rcases c with _ | ⟨a, c⟩ <;> simp [matchBytes]

theorem matchBytes_dsl_cons {b : UInt8} (hb : b ≠ dollar) (tprev : UInt8) :
    matchBytes (dollar :: star :: c) (b :: pre) tprev = true ↔
      c = [] ∨ (∃ v ∈ anchors (b :: pre), verbatimRefuses c v = false ∧
        matchBytes c v slash = true) ∨ matchBytes c (b :: pre) star = true := by
  rw [matchBytes, if_neg (by decide), if_neg (Ne.symm hb), if_neg (by simp), matchBytes,
    if_pos rfl]
  by_cases hc : c = []
  · simp [hc]
  · simp [hc, show dollar ≠ star by decide]

end MatchBytes

theorem not_verbatimRefuses_of_roomy {c : Chunk} {v : Bytes} (hc : mixedTail true c = true)
    (hne : c ≠ []) (h : Roomy (splitDsl c) v) : verbatimRefuses c v = false := by
  obtain ⟨a, rest, rfl, hdsl⟩ := exists_first_of_mixedTail hc hne
  obtain ⟨u, rfl, _⟩ := (roomy_splitDsl_cons hdsl).mp h
  by_cases ha : a = atSign <;> simp [verbatimRefuses, ha]

theorem matchBytes_iff {after : Bool} {c : Chunk} (hc : mixedTail after c = true) {pre : Bytes}
    (hpre : dollar ∉ pre) (tprev : UInt8) :
    matchBytes c pre tprev = true ↔ Roomy (splitDsl c) pre := by
  induction c using dsl_induction generalizing after pre tprev with
  | nil =>
    rcases pre with _ | ⟨b, pre⟩ <;> simp [matchBytes, splitDsl, Roomy]
  | cons a c hdsl ih =>
    obtain ⟨_, hplain, htail⟩ := plain_of_mixedTail hdsl hc
    rw [matchBytes_cons hplain, roomy_splitDsl_cons hdsl]
    refine exists_congr fun v => and_congr_right fun hv => ?_
    subst hv
    exact ih htail (fun h => hpre (by simp [h])) a
  | dsl c ih =>
    have hafter : mixedTail true c = true := by
      rw [mixedTail.eq_def] at hc
      simpa using (by simpa using hc : _ ∧ _).2
    rw [roomy_splitDsl_dsl, splitDsl_eq_nil_iff]
    rcases pre with _ | ⟨b, pre⟩
    · rw [matchBytes_dsl_nil]
      constructor
      · rintro rfl
        exact ⟨[], [], rfl, .inl rfl, rfl⟩
      · rintro ⟨gap, v, hnil, _, hv⟩
        obtain ⟨rfl, rfl⟩ := List.append_eq_nil_iff.mp hnil.symm
        by_contra hne
        obtain ⟨a, rest, rfl, hdsl⟩ := exists_first_of_mixedTail hafter hne
        obtain ⟨u, hu, _⟩ := (roomy_splitDsl_cons hdsl).mp hv
        simp at hu
    · rw [matchBytes_dsl_cons fun h => hpre (by simp [h])]
      constructor
      · rintro (rfl | ⟨v, hv, _, hm⟩ | hm)
        · exact ⟨b :: pre, [], by simp, .inr (.inl rfl), rfl⟩
        · obtain ⟨hlen, gap, hgap⟩ := mem_anchors.mp hv
          refine ⟨gap, v, hgap.symm, .inr (.inr hlen), (ih hafter ?_ slash).mp hm⟩
          exact fun h => hpre (hgap ▸ List.mem_append_right gap h)
        · exact ⟨[], b :: pre, rfl, .inl rfl, (ih hafter hpre star).mp hm⟩
      · rintro ⟨gap, v, hgap, hroom, hv⟩
        by_cases hne : c = []
        · exact .inl hne
        have hvpre : dollar ∉ v := fun h => hpre (hgap ▸ List.mem_append_right gap h)
        rcases hroom with rfl | hend | hlen
        · rw [List.nil_append] at hgap
          subst hgap
          exact .inr (.inr ((ih hafter hpre star).mpr hv))
        · exact absurd hend hne
        · exact .inr (.inl ⟨v, mem_anchors.mpr ⟨hlen, gap, hgap.symm⟩,
            not_verbatimRefuses_of_roomy hafter hne hv, (ih hafter hvpre slash).mpr hv⟩)

/-- The prefix chunk `p` lies under the target chunk `t` as the walk sees it. -/
def Laid (t p : Chunk) : Prop :=
  (isVerbatimChunk p = true → isVerbatimChunk t = true) ∧
    (t = singleStar ∨ Roomy (splitDsl t) p)

theorem verbatimRefuses_eq_false_iff {t p : Chunk} :
    verbatimRefuses t p = false ↔ (isVerbatimChunk p = true → isVerbatimChunk t = true) := by
  unfold verbatimRefuses isVerbatimChunk
  cases p.head? == some atSign <;> cases h : t.head? == some atSign <;> simp_all

theorem isChunkMatching_iff {t p : Chunk} (ht : canonChunk t = true) (hd : t ≠ doubleStar)
    (hp : concreteChunk p = true) : isChunkMatching t p = true ↔ Laid t p := by
  unfold isChunkMatching Laid
  rw [Bool.and_eq_true, Bool.not_eq_true', verbatimRefuses_eq_false_iff]
  refine and_congr_right fun _ => ?_
  by_cases hs : t = singleStar
  · subst hs
    obtain ⟨b, p, rfl⟩ := List.exists_cons_of_ne_nil (ne_nil_of_concrete hp)
    simp [matchBytes]
  · rw [matchBytes_iff (mixedTail_of_canonChunk ht hs hd) (dollar_not_mem_of_concrete hp)]
    exact (or_iff_right hs).symm

section Delivery

variable {t p : Chunk}

theorem keyexprPatternMatches_singleton (hd : t ≠ doubleStar) (hp : concreteChunk p = true) :
    keyexprPatternMatches [t] p = true ↔ alphabet.meets t p := by
  have hfree : slash ∉ p := fun h => absurd (plain_of_concrete hp h) (by decide)
  rw [keyexprPatternMatches_iff, Text.chunks_of_free hfree,
    SuperWild.covers_item_cons_cons (by simpa [alphabet] using hd), SuperWild.covers_nil_left]
  simpa using fun _ => ne_nil_of_concrete hp

theorem containsDsl_of_concrete (hp : concreteChunk p = true) : containsDsl p = false :=
  containsDsl_of_not_mem (dollar_not_mem_of_concrete hp)

theorem meets_of_laid (h : Laid t p)
    (hloose : ¬ (isVerbatimChunk t = true ∧ containsDsl t = true)) : alphabet.meets t p := by
  obtain ⟨hverb, rfl | hroomy⟩ := h
  · refine .inl ⟨rfl, ?_⟩
    rw [← Bool.not_eq_true]
    exact fun h => absurd (hverb h) (by decide)
  · refine .inr ((chunkMatches_iff t p).mpr ?_)
    by_cases hdsl : containsDsl t = true
    · have ht : isVerbatimChunk t = false := by simpa using fun h => hloose ⟨h, hdsl⟩
      have hvp : isVerbatimChunk p = false := by simpa [ht] using hverb
      exact .inr ⟨ht, hvp, hdsl, hroomy.spells⟩
    · rw [splitDsl_of_not_containsDsl (by simpa using hdsl)] at hroomy
      exact .inl (Eq.symm hroomy)

theorem not_meets_of_loose (hp : concreteChunk p = true) (hv : isVerbatimChunk t = true)
    (hdsl : containsDsl t = true) : ¬ alphabet.meets t p := by
  rintro (⟨rfl, _⟩ | h)
  · exact absurd hv (by decide)
  · rcases (chunkMatches_iff t p).mp h with rfl | ⟨ht, _⟩
    · simp [containsDsl_of_concrete hp] at hdsl
    · simp [hv] at ht

theorem laid_of_meets (h : alphabet.meets t p)
    (htight : t = singleStar ∨ Roomy (splitDsl t) p) : Laid t p := by
  refine ⟨fun hv => ?_, htight⟩
  rcases h with ⟨_, hvp⟩ | h
  · simp [hv] at hvp
  · rcases (chunkMatches_iff t p).mp h with rfl | ⟨_, hvp, _⟩
    · exact hv
    · simp [hv] at hvp

end Delivery

end WatchingZenoh.KeyexprPrefixChunk
