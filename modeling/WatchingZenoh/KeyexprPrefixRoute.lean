import WatchingZenoh.KeyexprCommonChunk
import WatchingZenoh.KeyexprPrefixChunk
import WatchingZenoh.KeyexprPrefixPanic

/-! Where the walk of `strip_inner` stops, and what that says about keys. The verbatim chunks of a
pattern are those of every key under it, so a walk that consumed other verbatim chunks than the
prefix has can be told from the lists alone. -/

namespace WatchingZenoh.KeyexprPrefixRoute

open SuperWild KeyexprMatch KeyexprLanguage KeyexprGrammar KeyexprParts KeyexprCommonChunk
open KeyexprPrefix KeyexprPrefixWalk KeyexprPrefixChunk KeyexprPrefixPanic

/-- The walk over `pre` stops with `rest` left of the target. A `**` is ended at the first cut that
the rest of the target lies over. -/
inductive Goes : List Chunk → List Chunk → List Chunk → Prop
  | last {t target p} : t ≠ doubleStar → target ≠ [] → isChunkMatching t p = true →
      Goes (t :: target) [p] target
  | step {t target p pre rest} : t ≠ doubleStar → isChunkMatching t p = true →
      Goes target pre rest → Goes (t :: target) (p :: pre) rest
  | absorb {target pre} : pre ≠ [] → (∀ c ∈ pre, atSign ∉ c) →
      Goes (doubleStar :: target) pre (doubleStar :: target)
  | skip {target pre front cut back rest} : (∃ c ∈ pre, atSign ∈ c) →
      cuts pre = front ++ cut :: back →
      (∀ d ∈ front, ¬ Lays target d ∧ ¬ Stumbles target d) → Goes target cut rest →
      Goes (doubleStar :: target) pre rest

theorem Goes.target_ne_nil {target pre rest : List Chunk} (h : Goes target pre rest) :
    target ≠ [] := by
  cases h <;> simp

theorem Goes.pre_ne_nil {target pre rest : List Chunk} (h : Goes target pre rest) : pre ≠ [] := by
  cases h with
  | last => simp
  | step => simp
  | absorb hne => exact hne
  | skip hat =>
    rintro rfl
    simp at hat

theorem Goes.rest_suffix {target pre rest : List Chunk} (h : Goes target pre rest) :
    rest ≠ [] ∧ rest <:+ target := by
  induction h with
  | last _ hne => exact ⟨hne, List.suffix_cons _ _⟩
  | step _ _ _ ih => exact ⟨ih.1, ih.2.trans (List.suffix_cons _ _)⟩
  | absorb => exact ⟨by simp, List.suffix_refl _⟩
  | skip _ _ _ _ ih => exact ⟨ih.1, ih.2.trans (List.suffix_cons _ _)⟩

theorem lay_eq_refuses_iff (target pre : List Chunk) :
    lay target pre = .refuses ↔ ¬ Lays target pre ∧ ¬ Stumbles target pre := by
  have h := reports_lay target pre
  constructor
  · intro hlay
    rwa [hlay] at h
  · rintro ⟨hl, hs⟩
    rcases hlay : lay target pre with rest | _ | _ <;> rw [hlay] at h
    · exact absurd h.1 hl
    · exact absurd h hs

theorem tryCuts_of_refused {layRest : List Chunk → Outcome} (last : Outcome)
    {front : List (List Chunk)} (h : ∀ d ∈ front, layRest d = .refuses)
    (cs : List (List Chunk)) : tryCuts layRest last (front ++ cs) = tryCuts layRest last cs := by
  induction front with
  | nil => rfl
  | cons d front ih =>
    rw [List.cons_append, tryCuts, h d (by simp)]
    exact ih fun e he => h e (by simp [he])

theorem goes_of_lay {target pre rest : List Chunk} (h : lay target pre = .strips rest) :
    Goes target pre rest := by
  induction target generalizing pre with
  | nil => simp [lay] at h
  | cons t target ih =>
    rcases pre with _ | ⟨p, pre⟩
    · simp [lay] at h
    rw [lay] at h
    by_cases ht : t = doubleStar
    · subst ht
      rw [if_pos rfl] at h
      by_cases hfree : ∀ c ∈ p :: pre, atSign ∉ c
      · rw [if_pos hfree] at h
        obtain rfl : doubleStar :: target = rest := by simpa using h
        exact .absorb (by simp) hfree
      rw [if_neg hfree] at h
      by_cases hlast : target = []
      · simp [hlast] at h
      rw [if_neg hlast] at h
      rcases tryCuts_cases (lay target)
        (if secondByteAt (p :: pre) then .stumbles else .refuses) (cuts (p :: pre)) with
        ⟨front, cut, back, hcuts, hfront, _, htry⟩ | ⟨_, htry⟩
      · rw [htry] at h
        have hat : ∃ c ∈ p :: pre, atSign ∈ c := by
          push Not at hfree
          exact hfree
        exact .skip hat hcuts
          (fun d hd => (lay_eq_refuses_iff target d).mp (hfront d hd)) (ih h)
      · rw [htry] at h
        split_ifs at h
    rw [if_neg ht] at h
    split_ifs at h with hlast hm hend
    · have hm : isChunkMatching t p = true := by simpa using hm
      obtain rfl : target = rest := by simpa using h
      subst hend
      exact .last ht hlast hm
    · exact .step ht (by simpa using hm) (ih h)

theorem lay_of_goes {target pre rest : List Chunk} (h : Goes target pre rest) :
    lay target pre = .strips rest := by
  induction h with
  | last ht hne hm => simp [lay, ht, hne, hm]
  | @step t target p pre rest ht hm hg ih =>
    rw [lay, if_neg ht, if_neg hg.target_ne_nil, if_neg (by simp [hm]), if_neg hg.pre_ne_nil, ih]
  | @absorb target pre hne hfree =>
    obtain ⟨p, pre, rfl⟩ := List.exists_cons_of_ne_nil hne
    rw [lay, if_pos rfl, if_pos hfree]
  | @skip target pre front cut back rest hat hcuts hfront hg ih =>
    have hne : pre ≠ [] := by
      rintro rfl
      simp at hat
    obtain ⟨p, pre, rfl⟩ := List.exists_cons_of_ne_nil hne
    have hfree : ¬ ∀ c ∈ p :: pre, atSign ∉ c := fun h => hat.elim fun c hc => h c hc.1 hc.2
    rw [lay, if_pos rfl, if_neg hfree, if_neg hg.target_ne_nil, hcuts,
      tryCuts_of_refused _ fun d hd => (lay_eq_refuses_iff target d).mpr (hfront d hd), tryCuts, ih]

section Verbatim

def verbatims (cs : List Chunk) : List Chunk := cs.filter isVerbatimChunk

theorem verbatims_cons_of_verbatim {c : Chunk} (h : isVerbatimChunk c = true) (cs : List Chunk) :
    verbatims (c :: cs) = c :: verbatims cs := by
  simp [verbatims, h]

theorem verbatims_cons_of_not_verbatim {c : Chunk} (h : isVerbatimChunk c = false)
    (cs : List Chunk) : verbatims (c :: cs) = verbatims cs := by
  simp [verbatims, h]

theorem verbatims_append (cs ds : List Chunk) :
    verbatims (cs ++ ds) = verbatims cs ++ verbatims ds :=
  List.filter_append cs ds

theorem verbatims_eq_nil {cs : List Chunk} (h : ∀ c ∈ cs, isVerbatimChunk c = false) :
    verbatims cs = [] := by
  simpa [verbatims] using h

theorem not_verbatim_of_at_free {c : Chunk} (h : atSign ∉ c) : isVerbatimChunk c = false := by
  rcases c with _ | ⟨a, c⟩
  · rfl
  · have ha : a ≠ atSign := fun ha => h (by simp [ha])
    simpa [isVerbatimChunk] using ha

theorem verbatim_congr_of_meets {p t : Chunk} (h : alphabet.meets p t) :
    p = t ∨ (isVerbatimChunk p = false ∧ isVerbatimChunk t = false) := by
  rcases meets_cases h with rfl | ⟨hp, ht, _⟩
  · exact .inl rfl
  · exact .inr ⟨hp, ht⟩

theorem verbatims_of_covers {ps ts : List Chunk} (h : Covers alphabet ps ts) :
    verbatims ps = verbatims ts := by
  induction h with
  | nil => rfl
  | @stop p ps ts hp _ ih =>
    obtain rfl : p = doubleStar := hp
    rw [verbatims_cons_of_not_verbatim (by decide), ih]
  | take _ ht _ ih =>
    rw [ih, verbatims_cons_of_not_verbatim (by simpa [alphabet] using ht)]
  | item _ hm _ ih =>
    rcases verbatim_congr_of_meets hm with rfl | ⟨hp, ht⟩
    · simp [verbatims] at ih ⊢
      simp [List.filter_cons, ih]
    · rw [verbatims_cons_of_not_verbatim hp, verbatims_cons_of_not_verbatim ht, ih]

theorem verbatim_congr_of_laid {t p : Chunk} (h : Laid t p) :
    isVerbatimChunk t = isVerbatimChunk p := by
  rw [Bool.eq_iff_iff]
  refine ⟨fun ht => ?_, h.1⟩
  rcases h.2 with rfl | hroomy
  · exact absurd ht (by decide)
  · obtain ⟨c, rfl⟩ := List.head?_eq_some_iff.mp (by simpa [isVerbatimChunk] using ht)
    have hdsl : ¬ KeyexprCollapse.startsDsl (atSign :: c) := fun h =>
      absurd (startsDsl_cons.mp h).1 (by decide)
    obtain ⟨v, rfl, _⟩ := (roomy_splitDsl_cons hdsl).mp hroomy
    simp [isVerbatimChunk]

/-- A cut leaves whole chunks, with nothing verbatim before them, or makes a verbatim chunk of the
end of another one. -/
theorem cut_cases {pre cut : List Chunk} (h : cut ∈ cuts pre) :
    (∃ front, pre = front ++ cut ∧ ∀ c ∈ front, isVerbatimChunk c = false) ∨
      (verbatims pre).length < (verbatims cut).length := by
  induction pre with
  | nil => simp [cuts] at h
  | cons c pre ih =>
    by_cases hat : atSign ∈ c
    · obtain ⟨u, w, hc, hu, _, hdrop⟩ := takeWhile_append_dropWhile_at hat
      have hopen : (∃ front, c :: pre = front ++ (atSign :: w) :: pre ∧
          ∀ d ∈ front, isVerbatimChunk d = false) ∨
          (verbatims (c :: pre)).length < (verbatims ((atSign :: w) :: pre)).length := by
        rcases u with _ | ⟨a, u⟩
        · exact .inl ⟨[], by simp [hc], by simp⟩
        · have ha : a ≠ atSign := fun ha => hu (by simp [ha])
          right
          rw [verbatims_cons_of_not_verbatim (by simpa [hc, isVerbatimChunk] using ha),
            verbatims_cons_of_verbatim (by simp [isVerbatimChunk])]
          simp
      rw [cuts, if_pos hat, hdrop] at h
      split_ifs at h
      · simp only [List.mem_cons, List.not_mem_nil, or_false] at h
        rcases h with rfl | rfl
        · exact hopen
        · exact .inl ⟨[], rfl, by simp⟩
      · rw [List.mem_singleton.mp h]
        exact hopen
    · have hc := not_verbatim_of_at_free hat
      rw [cuts, if_neg hat] at h
      rcases List.mem_append.mp h with h | h
      · rcases ih h with ⟨front, rfl, hfront⟩ | hlen
        · exact .inl ⟨c :: front, rfl, by simpa [hc] using hfront⟩
        · right
          rwa [verbatims_cons_of_not_verbatim hc]
      · rw [List.mem_singleton.mp h]
        exact .inl ⟨[], rfl, by simp⟩

theorem concrete_of_mem_cuts {pre cut : List Chunk} (hcut : cut ∈ cuts pre)
    (hpre : ∀ c ∈ pre, concreteChunk c = true) : ∀ c ∈ cut, concreteChunk c = true := by
  induction pre with
  | nil => simp [cuts] at hcut
  | cons c pre ih =>
    have htail : ∀ d ∈ pre, concreteChunk d = true := fun d hd => hpre d (by simp [hd])
    by_cases hat : atSign ∈ c
    · obtain ⟨u, w, hc, _, _, hdrop⟩ := takeWhile_append_dropWhile_at hat
      have hplain := fun b hb => plain_of_concrete (hpre c (by simp)) (b := b) hb
      have hopen : ∀ d ∈ (atSign :: w) :: pre, concreteChunk d = true := by
        intro d hd
        rcases List.mem_cons.mp hd with rfl | hd
        · simp only [concreteChunk, Bool.and_eq_true, List.all_eq_true]
          exact ⟨by simp, fun b hb => hplain b (by rw [hc]; exact List.mem_append_right u hb)⟩
        · exact htail d hd
      rw [cuts, if_pos hat, hdrop] at hcut
      split_ifs at hcut
      · simp only [List.mem_cons, List.not_mem_nil, or_false] at hcut
        rcases hcut with rfl | rfl
        · exact hopen
        · exact hpre
      · rw [List.mem_singleton.mp hcut]
        exact hopen
    · rw [cuts, if_neg hat] at hcut
      rcases List.mem_append.mp hcut with hcut | hcut
      · exact ih hcut htail
      · rw [List.mem_singleton.mp hcut]
        exact hpre

end Verbatim

section Keys

variable {target pre rest : List Chunk}

theorem Goes.verbatims_length (h : Goes target pre rest)
    (ht : ∀ c ∈ target, canonChunk c = true) (hp : ∀ c ∈ pre, concreteChunk c = true) :
    (verbatims pre).length + (verbatims rest).length ≤ (verbatims target).length := by
  induction h with
  | @last t target p hd _ hm =>
    have hlaid := (isChunkMatching_iff (ht t (by simp)) hd (hp p (by simp))).mp hm
    have hverb := verbatim_congr_of_laid hlaid
    simp only [verbatims, List.filter_cons, hverb, List.filter_nil]
    split
    · simp
      omega
    · simp
  | @step t target p pre rest hd hm _ ih =>
    have hlaid := (isChunkMatching_iff (ht t (by simp)) hd (hp p (by simp))).mp hm
    have hverb := verbatim_congr_of_laid hlaid
    replace ih := ih (fun c hc => ht c (by simp [hc])) fun c hc => hp c (by simp [hc])
    simp only [verbatims, List.filter_cons, hverb] at ih ⊢
    split <;> simp <;> omega
  | absorb _ hfree =>
    rw [verbatims_eq_nil fun c hc => not_verbatim_of_at_free (hfree c hc)]
    simp
  | @skip target pre front cut back rest _ hcuts _ _ ih =>
    have hmem : cut ∈ cuts pre := by simp [hcuts]
    replace ih := ih (fun c hc => ht c (by simp [hc])) (concrete_of_mem_cuts hmem hp)
    rw [verbatims_cons_of_not_verbatim (by decide)]
    rcases cut_cases hmem with ⟨run, rfl, hrun⟩ | hlen
    · rw [verbatims_append, verbatims_eq_nil hrun]
      simpa using ih
    · omega

theorem meets_of_verbatims {t p : Chunk} (ht : canonChunk t = true) (hp : concreteChunk p = true)
    (hd : t ≠ doubleStar) (hm : isChunkMatching t p = true)
    (hverb : verbatims (t :: target) = verbatims (p :: pre) ++ verbatims rest) :
    alphabet.meets t p ∧ verbatims target = verbatims pre ++ verbatims rest := by
  have hlaid := (isChunkMatching_iff ht hd hp).mp hm
  have hcongr := verbatim_congr_of_laid hlaid
  by_cases hvp : isVerbatimChunk p = true
  · rw [verbatims_cons_of_verbatim (hcongr.trans hvp), verbatims_cons_of_verbatim hvp,
      List.cons_append] at hverb
    obtain ⟨rfl, htail⟩ := List.cons.inj hverb
    exact ⟨meets_self t, htail⟩
  · rw [Bool.not_eq_true] at hvp
    rw [verbatims_cons_of_not_verbatim (hcongr.trans hvp),
      verbatims_cons_of_not_verbatim hvp] at hverb
    refine ⟨meets_of_laid hlaid fun h => ?_, hverb⟩
    simp [hcongr.trans hvp] at h

theorem Goes.sound (h : Goes target pre rest) (ht : ∀ c ∈ target, canonChunk c = true)
    (hp : ∀ c ∈ pre, concreteChunk c = true)
    (hverb : verbatims target = verbatims pre ++ verbatims rest) {ks : List Chunk}
    (hk : Covers alphabet rest ks) : Covers alphabet target (pre ++ ks) := by
  induction h with
  | @last t target p hd _ hm =>
    obtain ⟨hmeet, _⟩ := meets_of_verbatims (ht t (by simp)) (hp p (by simp)) hd hm hverb
    exact .item (by simpa [alphabet] using hd) hmeet hk
  | @step t target p pre rest hd hm _ ih =>
    obtain ⟨hmeet, hverb⟩ := meets_of_verbatims (ht t (by simp)) (hp p (by simp)) hd hm hverb
    exact .item (by simpa [alphabet] using hd) hmeet
      (ih (fun c hc => ht c (by simp [hc])) (fun c hc => hp c (by simp [hc])) hverb hk)
  | @absorb target pre _ hfree =>
    have hwide : alphabet.wide doubleStar := rfl
    obtain ⟨run, ts, rfl, hrun, hts⟩ := (covers_wide_split hwide).mp hk
    refine (covers_wide_split hwide).mpr ⟨pre ++ run, ts, by simp, ?_, hts⟩
    intro c hc
    rcases List.mem_append.mp hc with hc | hc
    · simpa [alphabet] using not_verbatim_of_at_free (hfree c hc)
    · exact hrun c hc
  | @skip target pre front cut back rest _ hcuts _ hgoes ih =>
    have hmem : cut ∈ cuts pre := by simp [hcuts]
    have htail : ∀ c ∈ target, canonChunk c = true := fun c hc => ht c (by simp [hc])
    have hcut := concrete_of_mem_cuts hmem hp
    rw [verbatims_cons_of_not_verbatim (by decide)] at hverb
    rcases cut_cases hmem with ⟨run, rfl, hrun⟩ | hlen
    · rw [verbatims_append, verbatims_eq_nil hrun, List.nil_append] at hverb
      refine (covers_wide_split rfl).mpr ⟨run, cut ++ ks, by simp, ?_, ih htail hcut hverb hk⟩
      simpa [alphabet] using hrun
    · -- the verbatim chunk the cut made was consumed, and the prefix does not have it
      have hge := hgoes.verbatims_length htail hcut
      have heq := congrArg List.length hverb
      rw [List.length_append] at heq
      omega

theorem verbatims_of_key {ks : List Chunk} (hk : Covers alphabet rest ks)
    (h : Covers alphabet target (pre ++ ks)) : verbatims target = verbatims pre ++ verbatims rest := by
  rw [verbatims_of_covers h, verbatims_append, verbatims_of_covers hk]

/-- A verbatim chunk with a `$*`, which no concrete chunk meets. -/
def loose (c : Chunk) : Bool := isVerbatimChunk c && containsDsl c

theorem not_covers_of_loose {ps ks : List Chunk} (hl : ∃ c ∈ ps, loose c = true)
    (hks : ∀ k ∈ ks, concreteChunk k = true) : ¬ Covers alphabet ps ks := by
  intro h
  obtain ⟨c, hc, hloose⟩ := hl
  simp only [loose, Bool.and_eq_true] at hloose
  have hmem : c ∈ verbatims ps := List.mem_filter.mpr ⟨hc, hloose.1⟩
  rw [verbatims_of_covers h] at hmem
  have hconcrete := hks c (List.mem_of_mem_filter hmem)
  simp [containsDsl_of_concrete hconcrete] at hloose

theorem exists_key_chunks {ps : List Chunk} (hne : ps ≠ []) (hps : ∀ c ∈ ps, canonChunk c = true)
    (hl : ∀ c ∈ ps, loose c = false) (henc : ∀ c ∈ ps, Utf8.Encoded c) :
    ∃ ks, ks ≠ [] ∧ (∀ k ∈ ks, concreteChunk k = true ∧ Utf8.Encoded k) ∧
      Covers alphabet ps ks := by
  have hany : ∃ ks, (∀ k ∈ ks, concreteChunk k = true ∧ Utf8.Encoded k) ∧
      Covers alphabet ps ks := by
    clear hne
    induction ps with
    | nil => exact ⟨[], by simp, .nil⟩
    | cons p ps ih =>
      obtain ⟨ks, hks, hcov⟩ := ih (fun c hc => hps c (by simp [hc]))
        (fun c hc => hl c (by simp [hc])) fun c hc => henc c (by simp [hc])
      have hp := hps p (by simp)
      by_cases hd : p = doubleStar
      · exact ⟨ks, hks, .stop hd hcov⟩
      · obtain ⟨k, hk, hek, hmeet⟩ : ∃ k, concreteChunk k = true ∧ Utf8.Encoded k ∧
            alphabet.meets p k := by
          by_cases hv : isVerbatimChunk p = true
          · have hdsl : containsDsl p = false := by
              simpa [loose, hv] using hl p (by simp)
            have hs : p ≠ singleStar := by
              rintro rfl
              exact absurd hv (by decide)
            exact ⟨p, concreteChunk_of_canonChunk hp hs hd hdsl, henc p (by simp), meets_self p⟩
          · obtain ⟨k, hk⟩ := exists_common_self hp hd (by simpa using hv)
            exact ⟨k, hk.concrete, hk.encoded (henc p (by simp)) (henc p (by simp)), hk.left⟩
        refine ⟨k :: ks, ?_, .item (by simpa [alphabet] using hd) hmeet hcov⟩
        intro c hc
        rcases List.mem_cons.mp hc with rfl | hc
        · exact ⟨hk, hek⟩
        · exact hks c hc
  obtain ⟨ks, hks, hcov⟩ := hany
  by_cases hempty : ks = []
  · subst hempty
    obtain ⟨p, ps, rfl⟩ := List.exists_cons_of_ne_nil hne
    have hfiller : Utf8.Encoded [KeyexprValidate.filler] := ⟨['x'], by decide⟩
    refine ⟨[[KeyexprValidate.filler]], by simp, ?_, ?_⟩
    · simpa using ⟨(by decide : concreteChunk [KeyexprValidate.filler] = true), hfiller⟩
    · refine .take (covers_nil_right.mp hcov p (by simp)) ?_ hcov
      simp [alphabet, isVerbatimChunk, show KeyexprValidate.filler ≠ atSign by decide]
  · exact ⟨ks, hempty, hks, hcov⟩

end Keys

end WatchingZenoh.KeyexprPrefixRoute
