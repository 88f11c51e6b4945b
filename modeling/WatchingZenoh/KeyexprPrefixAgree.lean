import WatchingZenoh.KeyexprPrefixRoute

/-! Stripping a prefix against delivering under it: when the tail that is left stands for the right
keys, and, for a target without `**`, when stripping is the chunk-by-chunk test of the matcher. -/

namespace WatchingZenoh.KeyexprPrefixAgree

open SuperWild KeyexprMatch KeyexprLanguage KeyexprGrammar KeyexprParts KeyexprCanon KeyexprValidate
open KeyexprPrefix KeyexprPrefixWalk KeyexprPrefixRefine KeyexprPrefixChunk KeyexprPrefixPanic
open KeyexprPrefixRoute

/-- Every key under the tail is, behind the prefix, a key under the target. -/
def StripsSoundly (t : Bytes) (p : NonWildKeyExpr) : Prop :=
  ∀ s, stripNonwildPrefix t p = .ok (some s) → ∀ k, ConcreteKey k → Utf8.Encoded k →
    keyexprPatternMatches (Text.chunks s) k = true →
    keyexprPatternMatches (Text.chunks t) (p.text ++ slash :: k) = true

/-- Stripping is the matcher on each of the first chunks, and the tail is the chunks behind. -/
def StripsExactly (t : Bytes) (p : NonWildKeyExpr) : Prop :=
  ∀ s, stripNonwildPrefix t p = .ok (some s) ↔
    (Text.chunks p.text).length < (Text.chunks t).length ∧
      List.Forall₂ (fun c d => keyexprPatternMatches [c] d = true)
        ((Text.chunks t).take (Text.chunks p.text).length) (Text.chunks p.text) ∧
      s = Text.join ((Text.chunks t).drop (Text.chunks p.text).length)

def StripAgrees (t : Bytes) (p : NonWildKeyExpr) : Prop :=
  StripsSoundly t p ∧ (doubleStar ∉ Text.chunks t → StripsExactly t p)

/-- Spelled with room, or `*`. -/
def Fitting (t p : Chunk) : Prop := t = singleStar ∨ Roomy (splitDsl t) p

def parts (t p : Chunk) : Bool := isVerbatimChunk t && t != p

/-- The target strays from the prefix, if it has not done so before: a verbatim chunk of it comes over
another chunk, or a cut makes a verbatim chunk of the end of one. What is left of the target behind the
prefix has no verbatim chunk with a `$*`, so that some key is under it. -/
inductive Strays : Bool → List Chunk → List Chunk → Prop
  | last {strayed t target p} : t ≠ doubleStar → target ≠ [] → isChunkMatching t p = true →
      (strayed || parts t p) = true → (∀ c ∈ target, loose c = false) →
      Strays strayed (t :: target) [p]
  | step {strayed t target p pre} : t ≠ doubleStar → isChunkMatching t p = true →
      Strays (strayed || parts t p) target pre → Strays strayed (t :: target) (p :: pre)
  | absorb {target pre} : pre ≠ [] → (∀ c ∈ pre, atSign ∉ c) → (∀ c ∈ target, loose c = false) →
      Strays true (doubleStar :: target) pre
  | skip {strayed target pre front cut back} : (∃ c ∈ pre, atSign ∈ c) →
      cuts pre = front ++ cut :: back → (∀ d ∈ front, ¬ Lays target d ∧ ¬ Stumbles target d) →
      Strays (strayed || decide (verbatims pre ≠ verbatims cut)) target cut →
      Strays strayed (doubleStar :: target) pre

/-- With a `**`: the target does not stray from the prefix. Without: the chunks before the tail are not
all laid over the prefix with a verbatim `$*` chunk among them, nor do they all match it with one that
does not fit. -/
def WalksStraight (target pre : List Chunk) : Prop :=
  if doubleStar ∈ target then ¬ Strays false target pre
  else
    pre.length < target.length →
      ¬ (List.Forall₂ Laid (target.take pre.length) pre ∧
        ∃ c ∈ target.take pre.length, loose c = true) ∧
      ¬ (List.Forall₂ alphabet.meets (target.take pre.length) pre ∧
        ¬ List.Forall₂ Fitting (target.take pre.length) pre)

section Straying

variable {target pre rest : List Chunk} {t p : Chunk} {strayed : Bool}

theorem verbatims_step (ht : canonChunk t = true) (hd : t ≠ doubleStar)
    (hp : concreteChunk p = true) (hm : isChunkMatching t p = true) :
    verbatims (t :: target) = verbatims (p :: pre) ++ verbatims rest ↔
      parts t p = false ∧ verbatims target = verbatims pre ++ verbatims rest := by
  have hcongr := verbatim_congr_of_laid ((isChunkMatching_iff ht hd hp).mp hm)
  by_cases hvp : isVerbatimChunk p = true
  · rw [verbatims_cons_of_verbatim (hcongr.trans hvp), verbatims_cons_of_verbatim hvp,
      List.cons_append, List.cons_eq_cons]
    simp [parts, hcongr.trans hvp]
  · rw [Bool.not_eq_true] at hvp
    rw [verbatims_cons_of_not_verbatim (hcongr.trans hvp), verbatims_cons_of_not_verbatim hvp]
    simp [parts, hcongr.trans hvp]

theorem strays_of_goes (h : Goes target pre rest) (ht : ∀ c ∈ target, canonChunk c = true)
    (hp : ∀ c ∈ pre, concreteChunk c = true) (hrest : ∀ c ∈ rest, loose c = false)
    (hparts : strayed = true ∨ verbatims target ≠ verbatims pre ++ verbatims rest) :
    Strays strayed target pre := by
  induction h generalizing strayed with
  | @last t target p hd hne hm =>
    refine .last hd hne hm ?_ hrest
    have hstep := @verbatims_step target [] target t p (ht t (by simp)) hd (hp p (by simp)) hm
    rcases hparts with rfl | hparts
    · rfl
    · rw [Ne, hstep] at hparts
      have hpart : parts t p = true := by
        by_contra hno
        exact hparts ⟨by simpa using hno, rfl⟩
      rw [hpart, Bool.or_true]
  | @step t target p pre rest hd hm _ ih =>
    refine .step hd hm (ih (fun c hc => ht c (by simp [hc])) (fun c hc => hp c (by simp [hc])) hrest ?_)
    rcases hparts with rfl | hparts
    · exact .inl rfl
    · by_cases hpart : parts t p = true
      · exact .inl (by simp [hpart])
      · refine .inr fun heq => hparts ((verbatims_step (ht t (by simp)) hd (hp p (by simp)) hm).mpr ?_)
        exact ⟨by simpa using hpart, heq⟩
  | @absorb target pre hne hfree =>
    rcases hparts with rfl | hparts
    · exact .absorb hne hfree fun c hc => hrest c (by simp [hc])
    · rw [verbatims_eq_nil fun c hc => not_verbatim_of_at_free (hfree c hc)] at hparts
      exact absurd rfl hparts
  | @skip target pre front cut back rest hat hcuts hfront _ ih =>
    have hmem : cut ∈ cuts pre := by simp [hcuts]
    refine .skip hat hcuts hfront (ih (fun c hc => ht c (by simp [hc])) (concrete_of_mem_cuts hmem hp)
      hrest ?_)
    rcases hparts with rfl | hparts
    · exact .inl rfl
    · by_cases heq : verbatims pre = verbatims cut
      · rw [verbatims_cons_of_not_verbatim (by decide), heq] at hparts
        exact .inr hparts
      · exact .inl (by simp [heq])

theorem goes_of_strays (h : Strays strayed target pre) (ht : ∀ c ∈ target, canonChunk c = true)
    (hp : ∀ c ∈ pre, concreteChunk c = true) :
    ∃ rest, Goes target pre rest ∧ (∀ c ∈ rest, loose c = false) ∧
      (strayed = true ∨ verbatims target ≠ verbatims pre ++ verbatims rest) := by
  induction h with
  | @last strayed t target p hd hne hm hpart hloose =>
    refine ⟨target, .last hd hne hm, hloose, ?_⟩
    rcases Bool.or_eq_true_iff.mp hpart with hstrayed | hpart
    · exact .inl hstrayed
    · refine .inr fun heq => ?_
      have hno := ((verbatims_step (ht t (by simp)) hd (hp p (by simp)) hm).mp heq).1
      simp [hpart] at hno
  | @step strayed t target p pre hd hm _ ih =>
    obtain ⟨rest, hgoes, hloose, hpart⟩ :=
      ih (fun c hc => ht c (by simp [hc])) fun c hc => hp c (by simp [hc])
    refine ⟨rest, .step hd hm hgoes, hloose, ?_⟩
    have hstep := @verbatims_step target pre rest t p (ht t (by simp)) hd (hp p (by simp)) hm
    rw [Ne, hstep]
    rcases hpart with hpart | hpart
    · rcases Bool.or_eq_true_iff.mp hpart with hstrayed | hpart
      · exact .inl hstrayed
      · exact .inr fun h => by simp [hpart] at h
    · exact .inr fun h => hpart h.2
  | @absorb target pre hne hfree hloose =>
    refine ⟨doubleStar :: target, .absorb hne hfree, fun c hc => ?_, .inl rfl⟩
    rcases List.mem_cons.mp hc with rfl | hc
    · decide
    · exact hloose c hc
  | @skip strayed target pre front cut back hat hcuts hfront _ ih =>
    have hmem : cut ∈ cuts pre := by simp [hcuts]
    have htail : ∀ c ∈ target, canonChunk c = true := fun c hc => ht c (by simp [hc])
    have hcut := concrete_of_mem_cuts hmem hp
    obtain ⟨rest, hgoes, hloose, hpart⟩ := ih htail hcut
    refine ⟨rest, .skip hat hcuts hfront hgoes, hloose, ?_⟩
    rw [verbatims_cons_of_not_verbatim (by decide)]
    by_cases heq : verbatims pre = verbatims cut
    · rw [heq]
      simpa [heq] using hpart
    · rcases cut_cases hmem with ⟨run, rfl, hrun⟩ | hlen
      · rw [verbatims_append, verbatims_eq_nil hrun, List.nil_append] at heq
        exact absurd rfl heq
      · -- the walk consumes the verbatim chunk the cut has made
        have hge := hgoes.verbatims_length htail hcut
        refine .inr fun h => ?_
        have hlength := congrArg List.length h
        rw [List.length_append] at hlength
        omega

theorem not_strays_iff (ht : ∀ c ∈ target, canonChunk c = true)
    (hp : ∀ c ∈ pre, concreteChunk c = true) :
    ¬ Strays false target pre ↔ ∀ rest, Goes target pre rest → (∃ c ∈ rest, loose c = true) ∨
      verbatims target = verbatims pre ++ verbatims rest := by
  constructor
  · intro h rest hgoes
    by_contra hno
    push Not at hno
    refine h (strays_of_goes hgoes ht hp (fun c hc => by simpa using hno.1 c hc) (.inr hno.2))
  · intro h hstrays
    obtain ⟨rest, hgoes, hloose, hpart⟩ := goes_of_strays hstrays ht hp
    rcases h rest hgoes with ⟨c, hc, hl⟩ | heq
    · simp [hloose c hc] at hl
    · exact hpart.elim nofun fun hne => hne heq

end Straying

theorem concrete_of_canonical {cs : List Chunk} (h : Canonical cs) (hstar : ∀ c ∈ cs, star ∉ c) :
    ∀ c ∈ cs, concreteChunk c = true := by
  intro c hc
  have hs : c ≠ singleStar := by
    rintro rfl
    exact hstar _ hc (by simp)
  have hd : c ≠ doubleStar := by
    rintro rfl
    exact hstar _ hc (by simp)
  refine concreteChunk_of_canonChunk (h.chunk c hc) hs hd ?_
  rw [← Bool.not_eq_true]
  intro hdsl
  obtain hsplit | ⟨front, rest, hfront, _⟩ := splitDsl_cases c
  · obtain ⟨lead, mids, trail, hparts⟩ := exists_parts_of_containsDsl hdsl
    rw [hsplit] at hparts
    simp at hparts
  · exact hstar c hc (by simp [hfront])

theorem concrete_of_nonWild {p : NonWildKeyExpr} (hp : Canonical (Text.chunks p.text)) :
    ∀ c ∈ Text.chunks p.text, concreteChunk c = true :=
  concrete_of_canonical hp fun _ hc hs => p.nonwild (Text.mem_of_mem_chunks hc hs)

theorem concreteKey_join {ks : List Chunk} (hne : ks ≠ [])
    (h : ∀ k ∈ ks, concreteChunk k = true) :
    Text.chunks (Text.join ks) = ks ∧ ConcreteKey (Text.join ks) := by
  have hchunks : Text.chunks (Text.join ks) = ks := by
    refine Text.chunks_join (fun k hk hs => ?_) hne
    exact absurd (plain_of_concrete (h k hk) hs) (by decide)
  refine ⟨hchunks, ?_⟩
  rw [ConcreteKey, hchunks]
  exact h

section Strip

variable {t : Bytes} {p : NonWildKeyExpr}

theorem stripNonwildPrefix_eq_some_iff (ht : Canonical (Text.chunks t))
    (hp : Canonical (Text.chunks p.text)) (s : Bytes) :
    stripNonwildPrefix t p = .ok (some s) ↔
      ∃ rest, Goes (Text.chunks t) (Text.chunks p.text) rest ∧ s = Text.join rest := by
  rw [stripNonwildPrefix_eq_lay ht hp]
  constructor
  · intro h
    rcases hlay : lay (Text.chunks t) (Text.chunks p.text) with rest | _ | _ <;>
      simp only [hlay, Outcome.text] at h
    · exact ⟨rest, goes_of_lay hlay, by simpa using h.symm⟩
    · simp at h
    · simp at h
  · rintro ⟨rest, hgoes, rfl⟩
    rw [lay_of_goes hgoes, Outcome.text]

theorem chunks_rest (ht : Canonical (Text.chunks t)) {pre rest : List Chunk}
    (h : Goes (Text.chunks t) pre rest) : Text.chunks (Text.join rest) = rest :=
  Text.chunks_join (fun c hc => (solid_of_canonical ht c (h.rest_suffix.2.subset hc)).2)
    h.rest_suffix.1

theorem stripsSoundly_iff (ht : Canonical (Text.chunks t)) (hp : Canonical (Text.chunks p.text))
    (henc : Utf8.Encoded t) :
    StripsSoundly t p ↔ ∀ rest, Goes (Text.chunks t) (Text.chunks p.text) rest →
      (∃ c ∈ rest, loose c = true) ∨
        verbatims (Text.chunks t) = verbatims (Text.chunks p.text) ++ verbatims rest := by
  have hpre := concrete_of_nonWild hp
  constructor
  · intro h rest hgoes
    by_contra hno
    push Not at hno
    obtain ⟨hloose, hverb⟩ := hno
    have hsuf := hgoes.rest_suffix.2.subset
    obtain ⟨ks, hne, hks, hcov⟩ := exists_key_chunks hgoes.rest_suffix.1
      (fun c hc => ht.chunk c (hsuf hc)) (fun c hc => by simpa using hloose c hc)
      fun c hc => encoded_chunks henc c (hsuf hc)
    obtain ⟨hchunks, hkey⟩ := concreteKey_join hne fun k hk => (hks k hk).1
    have hrest : keyexprPatternMatches (Text.chunks (Text.join rest)) (Text.join ks) = true := by
      rw [keyexprPatternMatches_iff, chunks_rest ht hgoes, hchunks]
      exact ⟨fun k hk => ne_nil_of_concrete (hks k hk).1, hcov⟩
    have htarget := h _ ((stripNonwildPrefix_eq_some_iff ht hp _).mpr ⟨rest, hgoes, rfl⟩)
      _ hkey (encoded_join fun k hk => (hks k hk).2) hrest
    rw [keyexprPatternMatches_iff, Text.chunks_append_slash, hchunks] at htarget
    exact hverb (verbatims_of_key hcov htarget.2)
  · intro h s hs k hk _ hmatch
    obtain ⟨rest, hgoes, rfl⟩ := (stripNonwildPrefix_eq_some_iff ht hp s).mp hs
    rw [keyexprPatternMatches_iff, chunks_rest ht hgoes] at hmatch
    rcases h rest hgoes with hloose | hverb
    · exact absurd hmatch.2 (not_covers_of_loose hloose hk)
    · rw [keyexprPatternMatches_iff, Text.chunks_append_slash]
      refine ⟨fun c hc => ?_, hgoes.sound ht.chunk hpre hverb hmatch.2⟩
      rcases List.mem_append.mp hc with hc | hc
      · exact ne_nil_of_concrete (hpre c hc)
      · exact hmatch.1 c hc

end Strip

section WithoutDoubleStar

variable {target pre : List Chunk}

theorem goes_iff_laid (ht : ∀ c ∈ target, canonChunk c = true) (hd : doubleStar ∉ target)
    (hp : ∀ c ∈ pre, concreteChunk c = true) (hne : pre ≠ []) (rest : List Chunk) :
    Goes target pre rest ↔ pre.length < target.length ∧
      List.Forall₂ Laid (target.take pre.length) pre ∧ rest = target.drop pre.length := by
  induction pre generalizing target with
  | nil => exact absurd rfl hne
  | cons p pre ih =>
    rcases target with _ | ⟨t, target⟩
    · exact iff_of_false (fun h => h.target_ne_nil rfl) fun h => by simp at h
    have htd : t ≠ doubleStar := fun h => hd (by simp [h])
    have hlaid := isChunkMatching_iff (ht t (by simp)) htd (hp p (by simp))
    have htail := fun c hc => ht c (List.mem_cons_of_mem t hc)
    have hptail := fun c hc => hp c (List.mem_cons_of_mem p hc)
    simp only [List.length_cons, List.take_succ_cons, List.drop_succ_cons, List.forall₂_cons,
      Nat.add_lt_add_iff_right]
    by_cases hend : pre = []
    · subst hend
      simp only [List.length_nil, List.take_zero, List.drop_zero, List.Forall₂.nil, and_true]
      constructor
      · intro h
        cases h with
        | last _ hne hm => exact ⟨List.length_pos_of_ne_nil hne, hlaid.mp hm, rfl⟩
        | step _ _ hgoes => exact absurd rfl hgoes.pre_ne_nil
        | absorb => exact absurd rfl htd
        | skip => exact absurd rfl htd
      · rintro ⟨hlen, hl, rfl⟩
        exact .last htd (List.ne_nil_of_length_pos hlen) (hlaid.mpr hl)
    · have ih := ih htail (fun h => hd (by simp [h])) hptail hend
      constructor
      · intro h
        cases h with
        | last => exact absurd rfl hend
        | step _ hm hgoes =>
          obtain ⟨hlen, hl, hrest⟩ := ih.mp hgoes
          exact ⟨hlen, ⟨hlaid.mp hm, hl⟩, hrest⟩
        | absorb => exact absurd rfl htd
        | skip => exact absurd rfl htd
      · rintro ⟨hlen, ⟨hl, hls⟩, hrest⟩
        exact .step htd (hlaid.mpr hl) (ih.mpr ⟨hlen, hls, hrest⟩)

theorem forall₂_meets_of_laid (h : List.Forall₂ Laid target pre)
    (hl : ∀ c ∈ target, loose c = false) : List.Forall₂ alphabet.meets target pre := by
  induction h with
  | nil => exact .nil
  | cons hc _ ih =>
    refine .cons (meets_of_laid hc ?_) (ih fun c hc => hl c (by simp [hc]))
    simpa [loose] using hl _ (List.mem_cons_self ..)

theorem not_loose_of_forall₂_meets (hp : ∀ c ∈ pre, concreteChunk c = true)
    (h : List.Forall₂ alphabet.meets target pre) : ¬ ∃ c ∈ target, loose c = true := by
  induction h with
  | nil => simp
  | @cons t p _ _ hc _ ih =>
    rintro ⟨c, hmem, hl⟩
    rcases List.mem_cons.mp hmem with rfl | hmem
    · simp only [loose, Bool.and_eq_true] at hl
      exact not_meets_of_loose (hp p (by simp)) hl.1 hl.2 hc
    · exact ih (fun d hd => hp d (by simp [hd])) ⟨c, hmem, hl⟩

theorem forall₂_laid_of_meets (h : List.Forall₂ alphabet.meets target pre)
    (hf : List.Forall₂ Fitting target pre) : List.Forall₂ Laid target pre := by
  induction h with
  | nil => exact .nil
  | cons hc _ ih =>
    obtain ⟨hfc, hft⟩ := List.forall₂_cons.mp hf
    exact .cons (laid_of_meets hc hfc) (ih hft)

/-- Laid chunks match, but for the verbatim ones with a `$*`; matching chunks are laid if they
fit. -/
theorem laid_iff_meets (hp : ∀ c ∈ pre, concreteChunk c = true) :
    (List.Forall₂ Laid target pre ↔ List.Forall₂ alphabet.meets target pre) ↔
      ¬ (List.Forall₂ Laid target pre ∧ ∃ c ∈ target, loose c = true) ∧
      ¬ (List.Forall₂ alphabet.meets target pre ∧ ¬ List.Forall₂ Fitting target pre) := by
  have hfit : List.Forall₂ Laid target pre → List.Forall₂ Fitting target pre :=
    fun h => h.imp fun _ _ hl => hl.2
  constructor
  · intro h
    constructor
    · rintro ⟨hl, hloose⟩
      exact not_loose_of_forall₂_meets hp (h.mp hl) hloose
    · rintro ⟨hm, hno⟩
      exact hno (hfit (h.mpr hm))
  · rintro ⟨hloose, hno⟩
    constructor
    · intro hl
      refine forall₂_meets_of_laid hl fun c hc => ?_
      rw [← Bool.not_eq_true]
      exact fun h => hloose ⟨hl, c, hc, h⟩
    · intro hm
      refine forall₂_laid_of_meets hm ?_
      by_contra h
      exact hno ⟨hm, h⟩

theorem forall₂_matches_iff (ht : doubleStar ∉ target) (hp : ∀ c ∈ pre, concreteChunk c = true) :
    List.Forall₂ (fun c d => keyexprPatternMatches [c] d = true) target pre ↔
      List.Forall₂ alphabet.meets target pre := by
  induction target generalizing pre with
  | nil => simp
  | cons t target ih =>
    rcases pre with _ | ⟨p, pre⟩
    · simp
    · rw [List.forall₂_cons, List.forall₂_cons,
        keyexprPatternMatches_singleton (fun h => ht (by simp [h])) (hp p (by simp)),
        ih (fun h => ht (by simp [h])) fun c hc => hp c (by simp [hc])]

end WithoutDoubleStar

theorem stripAgrees_iff_laid {t : Bytes} {p : NonWildKeyExpr} (ht : Canonical (Text.chunks t))
    (hp : Canonical (Text.chunks p.text)) (hd : doubleStar ∉ Text.chunks t) :
    StripAgrees t p ↔ ((Text.chunks p.text).length < (Text.chunks t).length →
      (List.Forall₂ Laid ((Text.chunks t).take (Text.chunks p.text).length) (Text.chunks p.text) ↔
        List.Forall₂ alphabet.meets ((Text.chunks t).take (Text.chunks p.text).length)
          (Text.chunks p.text))) := by
  have hpre := concrete_of_nonWild hp
  have htake : doubleStar ∉ (Text.chunks t).take (Text.chunks p.text).length :=
    fun h => hd (List.mem_of_mem_take h)
  have hexact : ∀ s, stripNonwildPrefix t p = .ok (some s) ↔
      (Text.chunks p.text).length < (Text.chunks t).length ∧
        List.Forall₂ Laid ((Text.chunks t).take (Text.chunks p.text).length)
          (Text.chunks p.text) ∧
        s = Text.join ((Text.chunks t).drop (Text.chunks p.text).length) := by
    intro s
    rw [stripNonwildPrefix_eq_some_iff ht hp]
    simp only [goes_iff_laid ht.chunk hd hpre hp.nonempty]
    constructor
    · rintro ⟨_, ⟨hlen, hl, rfl⟩, rfl⟩
      exact ⟨hlen, hl, rfl⟩
    · rintro ⟨hlen, hl, rfl⟩
      exact ⟨_, ⟨hlen, hl, rfl⟩, rfl⟩
  unfold StripAgrees StripsExactly
  simp only [hexact, forall₂_matches_iff htake hpre]
  constructor
  · intro h hlen
    have hs := h.2 hd (Text.join ((Text.chunks t).drop (Text.chunks p.text).length))
    simpa [hlen] using hs
  · intro h
    refine ⟨?_, fun _ s => ?_⟩
    · intro s hs k _ _ hk
      obtain ⟨hlen, hl, rfl⟩ := (hexact s).mp hs
      have hmeets := (h hlen).mp hl
      have hchunks : Text.chunks (Text.join ((Text.chunks t).drop (Text.chunks p.text).length)) =
          (Text.chunks t).drop (Text.chunks p.text).length :=
        Text.chunks_join (fun c hc => (solid_of_canonical ht c (List.mem_of_mem_drop hc)).2)
          (by simpa using hlen)
      rw [keyexprPatternMatches_iff, hchunks] at hk
      rw [keyexprPatternMatches_iff, Text.chunks_append_slash]
      refine ⟨fun c hc => ?_, ?_⟩
      · rcases List.mem_append.mp hc with hc | hc
        · exact ne_nil_of_concrete (hpre c hc)
        · exact hk.1 c hc
      · rw [← List.take_append_drop (Text.chunks p.text).length (Text.chunks t)]
        have hseg : ∀ c ∈ (Text.chunks t).take (Text.chunks p.text).length, ¬ alphabet.wide c := by
          rintro c hc rfl
          exact htake hc
        exact (covers_segment hseg).mpr ⟨_, _, rfl, hmeets, hk.2⟩
    · constructor
      · rintro ⟨hlen, hl, hs⟩
        exact ⟨hlen, (h hlen).mp hl, hs⟩
      · rintro ⟨hlen, hm, hs⟩
        exact ⟨hlen, (h hlen).mpr hm, hs⟩

/-- Stripping agrees with the matcher exactly when the walk is straight. -/
theorem stripAgrees_iff (t : Bytes) (p : NonWildKeyExpr) (ht : validateKeyexpr t = .ok ())
    (hp : validateKeyexpr p.text = .ok ()) (henc : Utf8.Encoded t) :
    StripAgrees t p ↔ WalksStraight (Text.chunks t) (Text.chunks p.text) := by
  rw [validateKeyexpr_ok_iff] at ht hp
  unfold WalksStraight
  by_cases hd : doubleStar ∈ Text.chunks t
  · rw [if_pos hd, not_strays_iff ht.chunk (concrete_of_nonWild hp), ← stripsSoundly_iff ht hp henc]
    exact and_iff_left fun h => absurd hd h
  · rw [if_neg hd, stripAgrees_iff_laid ht hp hd]
    exact imp_congr_right fun _ => laid_iff_meets (concrete_of_nonWild hp)

/-- `a$*/x` under the prefix `ab`. -/
theorem stripAgrees_iff_trailing :
    validateKeyexpr [0x61, dollar, star, slash, 0x78] = .ok () ∧
      validateKeyexpr [0x61, 0x62] = .ok () ∧
      StripAgrees [0x61, dollar, star, slash, 0x78] ⟨[0x61, 0x62], by decide, by decide⟩ := by
  have ht : validateKeyexpr [0x61, dollar, star, slash, 0x78] = .ok () := by decide +kernel
  have hp : validateKeyexpr [0x61, 0x62] = .ok () := by decide +kernel
  have henc : Utf8.Encoded [0x61, dollar, star, slash, 0x78] := ⟨"a$*/x".toList, by decide⟩
  have hchunks : Text.chunks [0x61, dollar, star, slash, 0x78] = [[0x61, dollar, star], [0x78]] := by
    decide +kernel
  have hpchunks : Text.chunks [0x61, 0x62] = [[0x61, 0x62]] := by decide +kernel
  refine ⟨ht, hp, (stripAgrees_iff _ ⟨[0x61, 0x62], by decide, by decide⟩ ht hp henc).mpr ?_⟩
  rw [WalksStraight, hchunks, hpchunks, if_neg (by decide)]
  refine fun _ => ⟨fun h => absurd h.2 (by decide), fun h => h.2 ?_⟩
  refine .cons (.inr ?_) .nil
  exact ⟨[0x62], [], by decide, .inr (.inl rfl), rfl⟩

/-- The verbatim chunk `@$*` is laid over `@a`, so that `@$*/x` leaves `x`, and `a$*b` is not laid
over `axb`. -/
theorem not_stripAgrees :
    (¬ ∀ (t : Bytes) (p : NonWildKeyExpr), validateKeyexpr t = .ok () →
      validateKeyexpr p.text = .ok () → Utf8.Encoded t → StripsSoundly t p) ∧
      ¬ ∀ (t : Bytes) (p : NonWildKeyExpr), validateKeyexpr t = .ok () →
        validateKeyexpr p.text = .ok () → Utf8.Encoded t → doubleStar ∉ Text.chunks t →
        StripsExactly t p := by
  constructor
  · intro h
    have hsound := h [atSign, dollar, star, slash, 0x78] ⟨[atSign, 0x61], by decide, by decide⟩
      (by decide +kernel) (by decide +kernel) ⟨"@$*/x".toList, by decide⟩ [0x78]
      (by decide +kernel) [0x78] (by decide +kernel) ⟨['x'], by decide⟩ (by decide +kernel)
    exact absurd hsound (by decide +kernel)
  · intro h
    have hexact := h [0x61, dollar, star, 0x62, slash, 0x78]
      ⟨[0x61, 0x78, 0x62], by decide, by decide⟩ (by decide +kernel) (by decide +kernel)
      ⟨"a$*b/x".toList, by decide⟩ (by decide +kernel) [0x78]
    have hno : stripNonwildPrefix [0x61, dollar, star, 0x62, slash, 0x78]
        ⟨[0x61, 0x78, 0x62], by decide, by decide⟩ = .ok none := by decide +kernel
    rw [hno] at hexact
    exact absurd (hexact.mpr (by decide +kernel)) (by simp)

end WatchingZenoh.KeyexprPrefixAgree
