import WatchingZenoh.KeyexprDescent
import WatchingZenoh.KeyexprParts
import WatchingZenoh.KeyexprValidate

/-! When two chunks meet a common one. The test of the source is exact on the chunks of canonical
key expressions: a common chunk of two `$*` chunks is made of the longer of the two leading
anchors, every part in the middle, and the longer of the two trailing ones. -/

namespace WatchingZenoh.KeyexprCommonChunk

open SuperWild Gaps KeyexprMatch KeyexprLanguage KeyexprGrammar KeyexprParts KeyexprDescent
open KeyexprValidate

section Completeness

variable {p q t : Chunk}

theorem getLastD_parts (lead trail : Bytes) (mids : List Bytes) :
    (lead :: (mids ++ [trail])).getLastD [] = trail := by
  rw [List.getLastD_cons, List.getLastD_concat]

theorem anchors_of_spells (hp : containsDsl p = true) (h : Spells (splitDsl p) t) :
    (splitDsl p).headD [] <+: t ∧ (splitDsl p).getLastD [] <:+ t := by
  obtain ⟨lead, mids, trail, hs⟩ := exists_parts_of_containsDsl hp
  rw [hs] at h ⊢
  obtain ⟨v, rfl, htrail⟩ := (spells_cons (by simp)).mp h
  rw [getLastD_parts]
  exact ⟨List.prefix_append lead v, htrail.suffix_last.trans (List.suffix_append lead v)⟩

theorem chunkIntersects_self (p : Chunk) : chunkIntersects p p = true := by
  simp [chunkIntersects]

theorem chunkIntersects_of_spells (hp : containsDsl p = true) (hq : containsDsl q = true)
    (hvp : isVerbatimChunk p = false) (hvq : isVerbatimChunk q = false)
    (htp : Spells (splitDsl p) t) (htq : Spells (splitDsl q) t) : chunkIntersects p q = true := by
  obtain ⟨hplead, hptrail⟩ := anchors_of_spells hp htp
  obtain ⟨hqlead, hqtrail⟩ := anchors_of_spells hq htq
  have hleads := List.prefix_or_prefix_of_prefix hqlead hplead
  have htrails := List.suffix_or_suffix_of_suffix hqtrail hptrail
  unfold chunkIntersects
  split_ifs
  · rfl
  · simp_all
  · rfl
  · simp only [hp, hq, Bool.and_eq_true, Bool.or_eq_true, List.isPrefixOf_iff_prefix,
      List.isSuffixOf_iff_suffix]
    exact ⟨hleads, htrails⟩

theorem chunkIntersects_star (hvp : isVerbatimChunk p = false) (hvq : isVerbatimChunk q = false)
    (h : p = singleStar ∨ q = singleStar) : chunkIntersects p q = true := by
  unfold chunkIntersects
  split_ifs
  · rfl
  · simp_all
  · rfl
  · simp_all

theorem chunkIntersects_literal (hp : containsDsl p = true) (hvp : isVerbatimChunk p = false)
    (hvt : isVerbatimChunk t = false) (h : Spells (splitDsl p) t) :
    chunkIntersects p t = true ∧ chunkIntersects t p = true := by
  by_cases ht : containsDsl t = true
  · exact ⟨chunkIntersects_of_spells hp ht hvp hvt h (spells_self t),
      chunkIntersects_of_spells ht hp hvt hvp (spells_self t) h⟩
  · have ht : containsDsl t = false := by simpa using ht
    have hm := (chunkMatchesWithDsl_iff hp t).mpr h
    constructor
    · unfold chunkIntersects
      split_ifs <;> simp_all
    · unfold chunkIntersects
      split_ifs <;> simp_all

theorem meets_cases (h : alphabet.meets p t) :
    p = t ∨ (isVerbatimChunk p = false ∧ isVerbatimChunk t = false ∧
      (p = singleStar ∨ (containsDsl p = true ∧ Spells (splitDsl p) t))) := by
  rcases h with ⟨rfl, ht⟩ | h
  · exact .inr ⟨by decide, ht, .inl rfl⟩
  · exact ((chunkMatches_iff p t).mp h).imp_right fun ⟨hp, ht, hdsl⟩ => ⟨hp, ht, .inr hdsl⟩

theorem chunkIntersects_of_meets (hp : alphabet.meets p t) (hq : alphabet.meets q t) :
    chunkIntersects p q = true := by
  rcases meets_cases hp with rfl | ⟨hvp, hvt, hp⟩ <;>
    rcases meets_cases hq with rfl | ⟨hvq, hvt', hq⟩
  · exact chunkIntersects_self _
  · rcases hq with hq | ⟨hq, hs⟩
    · exact chunkIntersects_star hvt' hvq (.inr hq)
    · exact (chunkIntersects_literal hq hvq hvt' hs).2
  · rcases hp with hp | ⟨hp, hs⟩
    · exact chunkIntersects_star hvp hvt (.inl hp)
    · exact (chunkIntersects_literal hp hvp hvt hs).1
  · rcases hp with hp | ⟨hp, hsp⟩
    · exact chunkIntersects_star hvp hvq (.inl hp)
    rcases hq with hq | ⟨hq, hsq⟩
    · exact chunkIntersects_star hvp hvq (.inr hq)
    exact chunkIntersects_of_spells hp hq hvp hvq hsp hsq

end Completeness

section Soundness

variable {p q : Chunk}

/-- A chunk of a key under both `p` and `q`, in UTF-8 when they are. -/
structure Common (p q t : Chunk) : Prop where
  concrete : concreteChunk t = true
  left : alphabet.meets p t
  right : alphabet.meets q t
  encoded : Utf8.Encoded p → Utf8.Encoded q → Utf8.Encoded t

theorem exists_longer {α : Type*} {R : List α → List α → Prop} (hrefl : ∀ l, R l l) {l m : List α}
    (h : R l m ∨ R m l) : ∃ long, (long = l ∨ long = m) ∧ R l long ∧ R m long := by
  rcases h with h | h
  · exact ⟨m, .inr rfl, h, hrefl m⟩
  · exact ⟨l, .inl rfl, hrefl l, h⟩

theorem not_verbatim_of_starts {lead t : Chunk} (hp : isVerbatimChunk p = false)
    (h : lead <+: p) : isVerbatimChunk (lead ++ filler :: t) = false := by
  obtain ⟨rest, rfl⟩ := h
  rcases lead with _ | ⟨b, lead⟩
  · simp [isVerbatimChunk, show filler ≠ atSign by decide]
  · simpa [isVerbatimChunk] using hp

/-- A canonical chunk with a `$*` that is not verbatim, in its parts. -/
structure Anchored (p : Chunk) (lead : Bytes) (mids : List Bytes) (trail : Bytes) : Prop where
  dsl : containsDsl p = true
  notVerbatim : isVerbatimChunk p = false
  parts : splitDsl p = lead :: (mids ++ [trail])
  starts : lead <+: p
  plain : ∀ part ∈ lead :: (mids ++ [trail]), ∀ b ∈ part, plain b = true
  encoded : Utf8.Encoded p → ∀ part ∈ lead :: (mids ++ [trail]), Utf8.Encoded part

theorem exists_anchored (hc : canonChunk p = true) (hp : containsDsl p = true)
    (hv : isVerbatimChunk p = false) : ∃ lead mids trail, Anchored p lead mids trail := by
  obtain ⟨lead, mids, trail, hs⟩ := exists_parts_of_containsDsl hp
  have hsingle : p ≠ singleStar := by
    rintro rfl
    simp [containsDsl] at hp
  have hdouble : p ≠ doubleStar := by
    rintro rfl
    simp [containsDsl, show star ≠ dollar by decide] at hp
  refine ⟨lead, mids, trail, hp, hv, hs, ?_, ?_, ?_⟩
  · simpa [hs] using (anchors_of_spells hp (spells_self p)).1
  · rw [← hs]
    exact plain_of_mem_parts (mixedTail_of_canonChunk hc hsingle hdouble)
  · rw [← hs]
    exact encoded_parts

theorem Anchored.meets {lead trail : Bytes} {mids : List Bytes} (h : Anchored p lead mids trail)
    {t : Chunk} (ht : isVerbatimChunk t = false) (front back : Bytes)
    (heq : t = lead ++ (front ++ (mids.flatten ++ (back ++ trail)))) : alphabet.meets p t := by
  refine .inr ((chunkMatches_iff p t).mpr (.inr ⟨h.notVerbatim, ht, h.dsl, ?_⟩))
  rw [h.parts, heq]
  exact spells_flatten lead trail mids front back

theorem Anchored.common {pLead pTrail qLead qTrail : Bytes} {pMids qMids : List Bytes}
    (hp : Anchored p pLead pMids pTrail) (hq : Anchored q qLead qMids qTrail)
    (hlead : pLead <+: qLead ∨ qLead <+: pLead) (htrail : pTrail <:+ qTrail ∨ qTrail <:+ pTrail) :
    ∃ t, Common p q t := by
  obtain ⟨lead, hleadEq, ⟨pFront, hpFront⟩, qFront, hqFront⟩ :=
    exists_longer List.prefix_refl hlead
  obtain ⟨trail, htrailEq, ⟨pBack, hpBack⟩, qBack, hqBack⟩ :=
    exists_longer List.suffix_refl htrail
  have hnot : isVerbatimChunk (lead ++ filler :: (pMids.flatten ++ (qMids.flatten ++ trail))) =
      false := by
    rcases hleadEq with rfl | rfl
    · exact not_verbatim_of_starts hp.notVerbatim hp.starts
    · exact not_verbatim_of_starts hq.notVerbatim hq.starts
  have hlead' : lead ∈ pLead :: (pMids ++ [pTrail]) ∨ lead ∈ qLead :: (qMids ++ [qTrail]) := by
    rcases hleadEq with rfl | rfl <;> simp
  have htrail' : trail ∈ pLead :: (pMids ++ [pTrail]) ∨ trail ∈ qLead :: (qMids ++ [qTrail]) := by
    rcases htrailEq with rfl | rfl <;> simp
  refine ⟨lead ++ filler :: (pMids.flatten ++ (qMids.flatten ++ trail)), ?_, ?_, ?_, ?_⟩
  · have hplain : ∀ b ∈ lead ++ filler :: (pMids.flatten ++ (qMids.flatten ++ trail)),
        KeyexprGrammar.plain b = true := by
      simp only [List.mem_append, List.mem_cons, List.mem_flatten]
      rintro b (hb | rfl | ⟨part, hpart, hb⟩ | ⟨part, hpart, hb⟩ | hb)
      · exact hlead'.elim (hp.plain lead · b hb) (hq.plain lead · b hb)
      · decide
      · exact hp.plain part (by simp [hpart]) b hb
      · exact hq.plain part (by simp [hpart]) b hb
      · exact htrail'.elim (hp.plain trail · b hb) (hq.plain trail · b hb)
    simp only [concreteChunk, Bool.and_eq_true, List.all_eq_true]
    exact ⟨by simp, hplain⟩
  · refine hp.meets hnot (pFront ++ [filler]) (qMids.flatten ++ pBack) ?_
    simp [← hpFront, ← hpBack]
  · refine hq.meets hnot (qFront ++ filler :: pMids.flatten) qBack ?_
    simp [← hqFront, ← hqBack]
  · intro henc henc'
    have hfiller : Utf8.Encoded [filler] := ⟨['x'], by decide⟩
    have hpMids : Utf8.Encoded pMids.flatten :=
      Utf8.encoded_flatten fun part hm => hp.encoded henc part (by simp [hm])
    have hqMids : Utf8.Encoded qMids.flatten :=
      Utf8.encoded_flatten fun part hm => hq.encoded henc' part (by simp [hm])
    have hl : Utf8.Encoded lead := hlead'.elim (hp.encoded henc lead) (hq.encoded henc' lead)
    have ht : Utf8.Encoded trail := htrail'.elim (hp.encoded henc trail) (hq.encoded henc' trail)
    exact hl.append (hfiller.append (hpMids.append (hqMids.append ht)))

theorem meets_self (p : Chunk) : alphabet.meets p p :=
  .inr ((chunkMatches_iff p p).mpr (.inl rfl))

theorem Common.symm {t : Chunk} (h : Common p q t) : Common q p t :=
  ⟨h.concrete, h.right, h.left, fun hq hp => h.encoded hp hq⟩

theorem exists_common_self (hc : canonChunk p = true) (hp : p ≠ doubleStar)
    (hv : isVerbatimChunk p = false) : ∃ t, Common p p t := by
  by_cases hs : p = singleStar
  · subst hs
    have hmeets : alphabet.meets singleStar [filler] := .inl ⟨rfl, by decide⟩
    exact ⟨[filler], by decide, hmeets, hmeets, fun _ _ => ⟨['x'], by decide⟩⟩
  by_cases hdsl : containsDsl p = true
  · obtain ⟨lead, mids, trail, h⟩ := exists_anchored hc hdsl hv
    exact h.common h (.inl (List.prefix_refl lead)) (.inl (List.suffix_refl trail))
  · have hconcrete := concreteChunk_of_canonChunk hc hs hp (by simpa using hdsl)
    exact ⟨p, hconcrete, meets_self p, meets_self p, fun h _ => h⟩

theorem exists_common_star (hcq : canonChunk q = true) (hq : q ≠ doubleStar)
    (hvq : isVerbatimChunk q = false) : ∃ t, Common singleStar q t := by
  obtain ⟨t, ht⟩ := exists_common_self hcq hq hvq
  have hvt : isVerbatimChunk t = false := by
    rw [← Bool.not_eq_true]
    intro hclosed
    have hq := (pairing.closed_iff_reserved ht.left).mp hclosed
    simp [pairing, hvq] at hq
  exact ⟨t, ht.concrete, .inl ⟨rfl, hvt⟩, ht.right, fun _ h => ht.encoded h h⟩

theorem exists_common_literal (hcq : canonChunk q = true) (hq : q ≠ doubleStar)
    (hqs : q ≠ singleStar) (hvp : isVerbatimChunk p = false) (hvq : isVerbatimChunk q = false)
    (hp : containsDsl p = true) (hdsl : containsDsl q = false)
    (h : chunkMatchesWithDsl p q = true) : ∃ t, Common p q t := by
  have hspells := (chunkMatchesWithDsl_iff hp q).mp h
  have hmeets : alphabet.meets p q :=
    .inr ((chunkMatches_iff p q).mpr (.inr ⟨hvp, hvq, hp, hspells⟩))
  exact ⟨q, concreteChunk_of_canonChunk hcq hqs hq hdsl, hmeets, meets_self q, fun _ h => h⟩

/-- Two canonical chunks that the test lets through share a chunk of a key, if they are not
verbatim. -/
theorem exists_common (hcp : canonChunk p = true) (hcq : canonChunk q = true)
    (hp : p ≠ doubleStar) (hq : q ≠ doubleStar) (hvp : isVerbatimChunk p = false)
    (hvq : isVerbatimChunk q = false) (h : chunkIntersects p q = true) : ∃ t, Common p q t := by
  unfold chunkIntersects at h
  split_ifs at h with heq _ hstar
  · subst heq
    exact exists_common_self hcp hp hvp
  · simp only [Bool.or_eq_true, decide_eq_true_eq] at hstar
    rcases hstar with rfl | rfl
    · exact exists_common_star hcq hq hvq
    · obtain ⟨t, ht⟩ := exists_common_star hcp hp hvp
      exact ⟨t, ht.symm⟩
  · have hps : p ≠ singleStar := fun hs => hstar (by simp [hs])
    have hqs : q ≠ singleStar := fun hs => hstar (by simp [hs])
    rcases hdp : containsDsl p <;> rcases hdq : containsDsl q <;> simp only [hdp, hdq] at h
    · exact absurd (by simpa using h) heq
    · obtain ⟨t, ht⟩ := exists_common_literal hcp hp hps hvq hvp hdq hdp h
      exact ⟨t, ht.symm⟩
    · exact exists_common_literal hcq hq hqs hvp hvq hdp hdq h
    · obtain ⟨pLead, pMids, pTrail, hap⟩ := exists_anchored hcp hdp hvp
      obtain ⟨qLead, qMids, qTrail, haq⟩ := exists_anchored hcq hdq hvq
      simp only [hap.parts, haq.parts, List.headD_cons, getLastD_parts, Bool.and_eq_true,
        Bool.or_eq_true, List.isPrefixOf_iff_prefix, List.isSuffixOf_iff_suffix] at h
      exact hap.common haq h.1.symm h.2.symm

end Soundness

end WatchingZenoh.KeyexprCommonChunk
