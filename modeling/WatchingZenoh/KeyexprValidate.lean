import WatchingZenoh.KeyexprGrammar
import WatchingZenoh.Library.Utf8

/-! The validator's byte cursor against the grammar: it accepts exactly the canonical texts, and a
refusal stands where the text stops being the start of a canonical one. -/

namespace WatchingZenoh.KeyexprValidate

open KeyexprCanon KeyexprGrammar

/-- A plain byte, with which every prefix the cursor has passed can be completed. -/
abbrev filler : UInt8 := 0x78

/-- What the cursor still has to find: a canonical text at the start of a chunk, the rest of a
mixed chunk and a canonical text behind it elsewhere. -/
def Resumes (fresh : Prop) (rest : Bytes) : Prop :=
  (fresh ∧ Canonical (Text.chunks rest)) ∨ (¬ fresh ∧ ContinuesChunk rest)

theorem resumes_fresh {fresh : Prop} (h : fresh) (rest : Bytes) :
    Resumes fresh rest ↔ Canonical (Text.chunks rest) := by
  simp [Resumes, h]

theorem resumes_inside {fresh : Prop} (h : ¬ fresh) (rest : Bytes) :
    Resumes fresh rest ↔ ContinuesChunk rest := by
  simp [Resumes, h]

/-- The refusal `r` of a cursor that stands at offset `i` in the chunk `chunk`. -/
structure RefusedAt (fresh : Prop) (rest : Bytes) (i chunk : ℕ) (r : KeyexprRefusal) : Prop where
  ahead : i ≤ r.offset
  within : r.offset ≤ i + rest.length
  chunk : r.chunk = chunk + (rest.take (r.offset - i)).count slash
  resumes : Resumes fresh (rest.take (r.offset - i) ++ [filler])
  reserved : ∀ b, rest[r.offset - i]? = some b → Utf8.ascii b

/-- The verdict `v` is the right one for a cursor at offset `i` in the chunk `chunk`. -/
def Judged (fresh : Prop) (rest : Bytes) (i chunk : ℕ) (v : Except KeyexprRefusal Unit) : Prop :=
  match v with
  | .ok () => Resumes fresh rest
  | .error r => ¬ Resumes fresh rest ∧ RefusedAt fresh rest i chunk r

/-- The cursor passes over `lead`. What it has learnt of the text behind `lead` is its first byte,
so the two states need to agree only on texts that start alike. -/
theorem judged_step {fresh fresh' : Prop} (lead : Bytes) {rest : Bytes} {i chunk : ℕ}
    {v : Except KeyexprRefusal Unit}
    (h : Judged fresh' rest (i + lead.length) (chunk + lead.count slash) v)
    (step : ∀ t : Bytes, t.head? = rest.head? ∨ t = [filler] →
      (Resumes fresh (lead ++ t) ↔ Resumes fresh' t)) :
    Judged fresh (lead ++ rest) i chunk v := by
  rcases v with r | _
  · obtain ⟨hno, hr⟩ := h
    have hahead := hr.ahead
    have hwithin := hr.within
    have htake : (lead ++ rest).take (r.offset - i) =
        lead ++ rest.take (r.offset - (i + lead.length)) := by
      rw [List.take_append, List.take_of_length_le (by omega)]
      congr 2
      omega
    refine ⟨by rwa [step rest (.inl rfl)], by omega, by simp; omega, ?_, ?_, ?_⟩
    · rw [htake, hr.chunk, List.count_append]
      omega
    · rw [htake, List.append_assoc, step]
      · exact hr.resumes
      · rcases hk : r.offset - (i + lead.length) with _ | k
        · exact .inr rfl
        · rcases rest with _ | ⟨b, rest⟩
          · exact .inr rfl
          · exact .inl rfl
    · rw [List.getElem?_append_right (by omega), Nat.sub_sub]
      exact hr.reserved
  · exact (step rest (.inl rfl)).mpr h

theorem judged_refuse {fresh : Prop} (lead : Bytes) {rest : Bytes} {i chunk : ℕ}
    {fault : KeyexprFault}
    (hno : ¬ Resumes fresh (lead ++ rest)) (hlead : Resumes fresh (lead ++ [filler]))
    (hrest : ∀ b ∈ rest.head?, Utf8.ascii b) :
    Judged fresh (lead ++ rest) i chunk
      (refuse (chunk + lead.count slash) (i + lead.length) fault) :=
  ⟨hno, by simp, by simp, by simp, by simpa using hlead,
    by simpa [List.head?_eq_getElem?, List.getElem?_append_right] using hrest⟩

theorem resumes_filler (fresh : Prop) : Resumes fresh [filler] := by
  have hcont : ContinuesChunk [filler] := 
    ⟨[filler], [], Text.chunks_of_free (by decide), by decide, .inl rfl⟩
  have hcanon : Canonical (Text.chunks [filler]) := by
    rw [canonical_cons (by decide) (by decide) (by decide)]
    exact ⟨by decide, continuesChunk_nil⟩
  by_cases h : fresh
  · exact .inl ⟨h, hcanon⟩
  · exact .inr ⟨h, hcont⟩

theorem judged_refuse_here {fresh : Prop} {rest : Bytes} {i chunk : ℕ} {fault : KeyexprFault}
    (hrest : ∀ b ∈ rest.head?, Utf8.ascii b) (hno : ¬ Resumes fresh rest) :
    Judged fresh rest i chunk (refuse chunk i fault) := by
  have h : Judged fresh ([] ++ rest) i chunk
      (refuse (chunk + List.count slash []) (i + List.length []) fault) :=
    judged_refuse [] hno (resumes_filler fresh) hrest
  simpa using h

theorem ascii_head {b : UInt8} (hb : Utf8.ascii b) (t : Bytes) :
    ∀ c ∈ (b :: t).head?, Utf8.ascii c := by
  simpa using hb

theorem judged_end {fresh : Prop} {rest : Bytes} {i chunk chunkStart : ℕ}
    (behind : chunkStart ≤ i) (hne : rest ≠ []) (h : Resumes fresh rest) :
    Judged fresh rest i chunk (validateEnd rest i chunk chunkStart) := by
  have hlen := List.length_pos_of_ne_nil hne
  simp only [validateEnd, show chunkStart ≠ i + rest.length by omega, if_false]
  exact h

theorem not_resumes_dollar (fresh : Prop) {t : Bytes} (h : t.head? ≠ some star) :
    ¬ Resumes fresh (dollar :: t) := by
  rintro (⟨_, hcanon⟩ | ⟨_, hcont⟩)
  · exact not_canonical_dollar h hcanon
  · exact not_continuesChunk_dollar h hcont

theorem resumes_dollarStar (fresh : Prop) (t : Bytes) :
    Resumes fresh (dollar :: star :: t) ↔
      t.head? ≠ some dollar ∧ ¬ ((t = [] ∨ t.head? = some slash) ∧ fresh) ∧ ContinuesChunk t := by
  by_cases h : fresh
  · rw [resumes_fresh h, canonical_dollarStar]
    tauto
  · rw [resumes_inside h, continuesChunk_dollarStar]
    tauto

theorem resumes_cons {b : UInt8} (hs : b ≠ slash) (hd : b ≠ dollar) (hstar : b ≠ star)
    (fresh : Prop) (t : Bytes) :
    Resumes fresh (b :: t) ↔ plain b = true ∧ ContinuesChunk t := by
  by_cases h : fresh
  · rw [resumes_fresh h, canonical_cons hs hd hstar]
  · rw [resumes_inside h, continuesChunk_cons hs hd]

theorem validateFrom_judged (rest : Bytes) (i chunk chunkStart : ℕ) (behind : chunkStart ≤ i) :
    Judged (i = chunkStart) rest i chunk (validateFrom rest i chunk chunkStart) := by
  fun_induction validateFrom rest i chunk chunkStart with
  | case1 i chunk chunkStart =>
    simp only [validateEnd, List.length_nil, Nat.add_zero]
    split
    · next h =>
      apply judged_refuse_here (by simp)
      rw [resumes_fresh h.symm]
      exact not_canonical_nil
    · next h => exact (resumes_inside (Ne.symm h) _).mpr continuesChunk_nil
  | case2 chunk chunkStart tail =>
    apply judged_refuse_here (ascii_head (by decide) _)
    rw [resumes_fresh rfl]
    exact not_canonical_slash tail
  | case3 i chunk chunkStart tail hne ih =>
    refine judged_step [slash] (ih le_rfl) fun t _ => ?_
    rw [resumes_inside hne, resumes_fresh rfl]
    exact continuesChunk_slash t
  | case4 i chunk chunkStart tail hne _ =>
    apply judged_refuse_here (ascii_head (by decide) _)
    rw [resumes_inside hne]
    exact not_continuesChunk_star tail
  | case5 i chunk chunkStart heq _ =>
    refine judged_end behind (by simp) ((resumes_fresh (not_not.mp heq) _).mpr ?_)
    rw [Text.chunks_of_free (by decide), canonical_singleton]
    decide
  | case6 i chunk chunkStart heq tail _ ih =>
    refine judged_step [star, slash] (ih le_rfl) fun t _ => ?_
    rw [resumes_fresh (not_not.mp heq), resumes_fresh rfl]
    exact canonical_singleStar_slash t
  | case7 i chunk chunkStart heq _ _ =>
    refine judged_end behind (by simp) ((resumes_fresh (not_not.mp heq) _).mpr ?_)
    rw [Text.chunks_of_free (by decide), canonical_singleton]
    decide
  | case8 i chunk chunkStart heq tail hstar _ _ =>
    refine judged_refuse [star, star, slash] ?_ ?_ ?_
    · rw [resumes_fresh (not_not.mp heq)]
      exact fun h => ((canonical_doubleStar_slash tail).mp h).1 hstar
    · rw [resumes_fresh (not_not.mp heq)]
      refine (canonical_doubleStar_slash [filler]).mpr ⟨by decide, ?_⟩
      exact (resumes_fresh trivial _).mp (resumes_filler True)
    · rw [hstar]
      simpa using (by decide : Utf8.ascii star)
  | case9 i chunk chunkStart heq tail hstar _ _ ih =>
    refine judged_step [star, star, slash] (ih le_rfl) fun t ht => ?_
    rw [resumes_fresh (not_not.mp heq), resumes_fresh rfl]
    refine (canonical_doubleStar_slash t).trans (and_iff_right ?_)
    rcases ht with ht | rfl
    · rwa [ht]
    · decide
  | case10 i chunk chunkStart heq d tail hd _ _ =>
    apply judged_refuse_here (ascii_head (by decide) _)
    rw [resumes_fresh (not_not.mp heq)]
    obtain ⟨c, cs, _, hdt⟩ := chunks_cons_cases hd tail
    have ht : Text.chunks (star :: d :: tail) = (star :: d :: c) :: cs := by
      rw [Text.chunks_cons (by decide), hdt, List.modifyHead_cons]
    exact not_canonical_star ht (by simp) (by simp)
  | case11 i chunk chunkStart heq c tail hslash hstar _ =>
    apply judged_refuse_here (ascii_head (by decide) _)
    rw [resumes_fresh (not_not.mp heq)]
    obtain ⟨d, ds, _, ht⟩ := chunks_cons_cases hslash tail
    exact not_canonical_star ht (by simp) (by simp [hstar])
  | case12 i chunk chunkStart _ _ =>
    exact judged_refuse_here (ascii_head (by decide) _) (not_resumes_dollar _ (by simp))
  | case13 i chunk chunkStart c tail hc _ _ =>
    exact judged_refuse_here (ascii_head (by decide) _) (not_resumes_dollar _ (by simpa using hc))
  | case14 i chunk chunkStart c tail hc hdollar _ _ =>
    obtain rfl := not_not.mp hc
    refine judged_refuse dollarStar ?_ ?_ ?_
    · rw [List.cons_append, List.singleton_append, resumes_dollarStar]
      exact fun h => h.1 hdollar
    · rw [List.cons_append, List.singleton_append, resumes_dollarStar]
      exact ⟨by decide, fun h => absurd h.1 (by decide),
        (resumes_inside not_false _).mp (resumes_filler False)⟩
    · rw [hdollar]
      simpa using (by decide : Utf8.ascii dollar)
  | case15 i chunk chunkStart c tail hc hdollar hlone _ _ =>
    obtain rfl := not_not.mp hc
    obtain ⟨hend, rfl⟩ := hlone
    apply judged_refuse_here (ascii_head (by decide) _)
    rw [resumes_dollarStar]
    exact fun h => h.2.1 ⟨hend.symm, rfl⟩
  | case16 i chunk chunkStart c hc _ _ _ hlone =>
    obtain rfl := not_not.mp hc
    refine judged_end behind (by simp) ((resumes_dollarStar _ _).mpr ?_)
    refine ⟨by simp, ?_, continuesChunk_nil⟩
    exact fun h => hlone ⟨.inr rfl, h.2⟩
  | case17 i chunk chunkStart c tail hc hdollar hlone hne _ _ ih =>
    obtain rfl := not_not.mp hc
    refine judged_step dollarStar (ih (by omega)) fun t ht => ?_
    rw [List.cons_append, List.singleton_append, resumes_dollarStar,
      resumes_inside (show ¬ i + 2 = chunkStart by omega)]
    have hhead : t.head? ≠ some dollar := by
      rcases ht with ht | rfl
      · rwa [ht]
      · decide
    have hclosed : ¬ ((t = [] ∨ t.head? = some slash) ∧ i = chunkStart) := by
      rintro ⟨hend, hstart⟩
      rcases ht with ht | rfl
      · rw [← List.head?_eq_none_iff, ht, List.head?_eq_none_iff] at hend
        exact hlone ⟨hend.symm, hstart⟩
      · exact absurd hend (by decide)
    exact ⟨fun h => h.2.2, fun h => ⟨hhead, hclosed, h⟩⟩
  | case18 i chunk chunkStart b tail hslash hstar hdollar hb =>
    have hascii : Utf8.ascii b := by rcases hb with rfl | rfl <;> decide
    apply judged_refuse_here (ascii_head hascii _)
    rw [resumes_cons hslash hdollar hstar]
    rcases hb with rfl | rfl <;> exact fun h => absurd h.1 (by decide)
  | case19 i chunk chunkStart b tail hslash hstar hdollar hb ih =>
    have hcount : List.count slash [b] = 0 := List.count_eq_zero.mpr (by simp [Ne.symm hslash])
    have hplain : plain b = true := by
      simp only [plain]
      grind
    have hnext : Judged (i + 1 = chunkStart) tail (i + [b].length) (chunk + List.count slash [b])
        (validateFrom tail (i + 1) chunk chunkStart) := by
      rw [hcount]
      exact ih (by omega)
    refine judged_step [b] hnext fun t _ => ?_
    rw [List.singleton_append, resumes_cons hslash hdollar hstar,
      resumes_inside (show ¬ i + 1 = chunkStart by omega)]
    exact and_iff_right hplain

theorem validateKeyexpr_judged (text : Bytes) :
    Judged True text 0 0 (validateKeyexpr text) := by
  have h := validateFrom_judged text 0 0 0 le_rfl
  simpa [validateKeyexpr] using h

theorem validateKeyexpr_ok_iff (text : Bytes) :
    validateKeyexpr text = .ok () ↔ Canonical (Text.chunks text) := by
  have h := validateKeyexpr_judged text
  rcases hv : validateKeyexpr text with r | _
  · rw [hv] at h
    simpa using fun hc => h.1 ((resumes_fresh trivial _).mpr hc)
  · rw [hv] at h
    simpa using (resumes_fresh trivial _).mp h

/-- A refusal names its chunk by the separators before it, and what stands before it can be
completed to a text that is accepted. -/
theorem validateKeyexpr_refusal {text : Bytes} {r : KeyexprRefusal}
    (h : validateKeyexpr text = .error r) :
    r.offset ≤ text.length ∧ r.chunk = (text.take r.offset).count slash ∧
      validateKeyexpr (text.take r.offset ++ [filler]) = .ok () := by
  have hr := validateKeyexpr_judged text
  rw [h] at hr
  refine ⟨by simpa using hr.2.within, by simpa using hr.2.chunk, ?_⟩
  rw [validateKeyexpr_ok_iff, ← resumes_fresh trivial]
  simpa using hr.2.resumes

theorem encoded_before_refusal {text : Bytes} {r : KeyexprRefusal}
    (h : validateKeyexpr text = .error r) (henc : Utf8.Encoded text) :
    Utf8.Encoded (text.take r.offset ++ [filler]) := by
  have hr := validateKeyexpr_judged text
  rw [h] at hr
  have hfiller : Utf8.Encoded [filler] := ⟨['x'], by decide⟩
  refine Utf8.Encoded.append ?_ hfiller
  by_cases hend : r.offset < text.length
  · have hcut : text = text.take r.offset ++ text[r.offset] :: text.drop (r.offset + 1) := by
      rw [← List.drop_eq_getElem_cons hend, List.take_append_drop]
    rw [hcut] at henc
    exact (henc.cut (hr.2.reserved _ (by simp [hend]))).1
  · rwa [List.take_of_length_le (by omega)]

end WatchingZenoh.KeyexprValidate
