import WatchingZenoh.KeyexprPrefixRefine

/-! When `strip_nonwild_prefix` panics. The walk back through the prefix takes two bytes at once, to
step over a separator; when the first `@` is the second byte of what is left of the prefix there is
only one byte to step over. Two relations on chunk lists say when the walk gets there. -/

namespace WatchingZenoh.KeyexprPrefixPanic

open KeyexprPrefix KeyexprPrefixWalk KeyexprPrefixRefine KeyexprGrammar KeyexprCanon KeyexprValidate

/-- The target can be laid over the prefix with a chunk to spare: chunk over chunk, a `**` over all
that is left when there is no `@` in it, and over the chunks before one of the cuts otherwise. -/
inductive Lays : List Chunk → List Chunk → Prop
  | last {t target p} : t ≠ doubleStar → target ≠ [] → isChunkMatching t p = true →
      Lays (t :: target) [p]
  | step {t target p pre} : t ≠ doubleStar → isChunkMatching t p = true → Lays target pre →
      Lays (t :: target) (p :: pre)
  | absorb {target pre} : pre ≠ [] → (∀ c ∈ pre, atSign ∉ c) → Lays (doubleStar :: target) pre
  | skip {target pre cut} : cut ∈ cuts pre → Lays target cut → Lays (doubleStar :: target) pre

/-- A `**` that is not the last chunk meets a prefix whose second byte is its first `@`, and what
follows the `**` does not lie over the prefix from there on. The cuts before the one where that
happens have not been taken. -/
inductive Stumbles : List Chunk → List Chunk → Prop
  | step {t target p pre} : t ≠ doubleStar → isChunkMatching t p = true → Stumbles target pre →
      Stumbles (t :: target) (p :: pre)
  | here {target pre} : target ≠ [] → secondByteAt pre = true → (∀ cut ∈ cuts pre, ¬ Lays target cut) →
      Stumbles (doubleStar :: target) pre
  | inside {target pre front cut back} : (∃ c ∈ pre, atSign ∈ c) →
      cuts pre = front ++ cut :: back → (∀ d ∈ front, ¬ Lays target d) → Stumbles target cut →
      Stumbles (doubleStar :: target) pre

theorem Lays.target_ne_nil {target pre : List Chunk} (h : Lays target pre) : target ≠ [] := by
  cases h <;> simp

theorem Stumbles.target_ne_nil {target pre : List Chunk} (h : Stumbles target pre) :
    target ≠ [] := by
  cases h <;> simp

theorem lays_cons_iff {t p : Chunk} {target pre : List Chunk} (ht : t ≠ doubleStar) :
    Lays (t :: target) (p :: pre) ↔
      target ≠ [] ∧ isChunkMatching t p = true ∧ (pre = [] ∨ Lays target pre) := by
  constructor
  · intro h
    cases h with
    | last _ hne hm => exact ⟨hne, hm, .inl rfl⟩
    | step _ hm hl => exact ⟨hl.target_ne_nil, hm, .inr hl⟩
    | absorb => exact absurd rfl ht
    | skip => exact absurd rfl ht
  · rintro ⟨hne, hm, rfl | hl⟩
    · exact .last ht hne hm
    · exact .step ht hm hl

theorem stumbles_cons_iff {t p : Chunk} {target pre : List Chunk} (ht : t ≠ doubleStar) :
    Stumbles (t :: target) (p :: pre) ↔ isChunkMatching t p = true ∧ Stumbles target pre := by
  constructor
  · intro h
    cases h with
    | step _ hm hs => exact ⟨hm, hs⟩
    | here => exact absurd rfl ht
    | inside => exact absurd rfl ht
  · rintro ⟨hm, hs⟩
    exact .step ht hm hs

theorem exists_at_of_secondByteAt {pre : List Chunk} (h : secondByteAt pre = true) :
    ∃ c ∈ pre, atSign ∈ c := by
  rcases pre with _ | ⟨_ | ⟨a, _ | ⟨b, c⟩⟩, pre⟩
  · simp [secondByteAt] at h
  · simp [secondByteAt] at h
  · simp [secondByteAt] at h
  · simp only [secondByteAt, Bool.and_eq_true, beq_iff_eq] at h
    exact ⟨a :: b :: c, by simp, by simp [h.2]⟩

theorem tryCuts_cases (lay : List Chunk → Outcome) (last : Outcome) (cs : List (List Chunk)) :
    (∃ front cut back, cs = front ++ cut :: back ∧ (∀ d ∈ front, lay d = .refuses) ∧
      lay cut ≠ .refuses ∧ tryCuts lay last cs = lay cut) ∨
      ((∀ d ∈ cs, lay d = .refuses) ∧ tryCuts lay last cs = last) := by
  induction cs with
  | nil => exact .inr ⟨by simp, rfl⟩
  | cons cut cs ih =>
    by_cases hcut : lay cut = .refuses
    · have hstep : tryCuts lay last (cut :: cs) = tryCuts lay last cs := by
        rw [tryCuts, hcut]
      rcases ih with ⟨front, hit, back, rfl, hfront, hhit, htry⟩ | ⟨hall, htry⟩
      · exact .inl ⟨cut :: front, hit, back, rfl, by simpa [hcut] using hfront, hhit,
          hstep.trans htry⟩
      · exact .inr ⟨by simpa [hcut] using hall, hstep.trans htry⟩
    · refine .inl ⟨[], cut, cs, rfl, by simp, hcut, ?_⟩
      rw [tryCuts]
      split
      · exact absurd ‹_› hcut
      · rfl

theorem append_cons_cases {α : Type*} {x y : α} {front back front' back' : List α}
    (h : front ++ x :: back = front' ++ y :: back') :
    y ∈ front ∨ (front = front' ∧ x = y) ∨ x ∈ front' := by
  rcases List.append_eq_append_iff.mp h with ⟨mid, rfl, hx⟩ | ⟨mid, rfl, hy⟩
  · rcases mid with _ | ⟨z, mid⟩
    · obtain ⟨rfl, _⟩ := List.cons.inj hx
      exact .inr (.inl ⟨by simp, rfl⟩)
    · obtain ⟨rfl, _⟩ := List.cons.inj hx
      exact .inr (.inr (by simp))
  · rcases mid with _ | ⟨z, mid⟩
    · obtain ⟨rfl, _⟩ := List.cons.inj hy
      exact .inr (.inl ⟨by simp, rfl⟩)
    · obtain ⟨rfl, _⟩ := List.cons.inj hy
      exact .inl (by simp)

/-- What an outcome of the walk says about the two relations. -/
def Reports (target pre : List Chunk) : Outcome → Prop
  | .strips _ => Lays target pre ∧ ¬ Stumbles target pre
  | .refuses => ¬ Lays target pre ∧ ¬ Stumbles target pre
  | .stumbles => Stumbles target pre

section DoubleStar

variable {target pre : List Chunk}

theorem reports_absorb (hne : pre ≠ []) (hfree : ∀ c ∈ pre, atSign ∉ c) (rest : List Chunk) :
    Reports (doubleStar :: target) pre (.strips rest) := by
  have hat : ¬ ∃ c ∈ pre, atSign ∈ c := fun ⟨c, hc, h⟩ => hfree c hc h
  refine ⟨.absorb hne hfree, fun h => ?_⟩
  cases h with
  | step ht => exact ht rfl
  | here _ hsecond => exact hat (exists_at_of_secondByteAt hsecond)
  | inside h => exact hat h

theorem reports_lone (hat : ¬ ∀ c ∈ pre, atSign ∉ c) : Reports [doubleStar] pre .refuses := by
  constructor
  · intro h
    cases h with
    | last ht => exact ht rfl
    | step ht => exact ht rfl
    | absorb _ hfree => exact hat hfree
    | skip _ hl => exact hl.target_ne_nil rfl
  · intro h
    cases h with
    | step ht => exact ht rfl
    | here hne => exact hne rfl
    | inside _ _ _ hs => exact hs.target_ne_nil rfl

theorem reports_cuts {layRest : List Chunk → Outcome} (hne : target ≠ [])
    (hat : ¬ ∀ c ∈ pre, atSign ∉ c) (hrest : ∀ cut, Reports target cut (layRest cut)) :
    Reports (doubleStar :: target) pre
      (tryCuts layRest (if secondByteAt pre then .stumbles else .refuses) (cuts pre)) := by
  have hat' : ∃ c ∈ pre, atSign ∈ c := by simpa using hat
  have hrefused : ∀ {d}, layRest d = .refuses → ¬ Lays target d ∧ ¬ Stumbles target d := by
    intro d hd
    have h := hrest d
    rwa [hd] at h
  rcases tryCuts_cases layRest (if secondByteAt pre then .stumbles else .refuses) (cuts pre) with
    ⟨front, cut, back, hcuts, hfront, hcut, htry⟩ | ⟨hall, htry⟩
  · rw [htry]
    have hreport := hrest cut
    rcases hlay : layRest cut with rest | _ | _
    · rw [hlay] at hreport
      have hmem : cut ∈ cuts pre := by simp [hcuts]
      refine ⟨.skip hmem hreport.1, fun h => ?_⟩
      cases h with
      | step ht => exact ht rfl
      | here _ _ hnone => exact hnone cut hmem hreport.1
      | inside _ hcuts' hnone hs =>
        rcases append_cons_cases (hcuts.symm.trans hcuts') with hd | ⟨_, rfl⟩ | hd
        · exact (hrefused (hfront _ hd)).2 hs
        · exact hreport.2 hs
        · exact hnone cut hd hreport.1
    · exact absurd hlay hcut
    · rw [hlay] at hreport
      exact .inside hat' hcuts (fun d hd => (hrefused (hfront d hd)).1) hreport
  · rw [htry]
    have hnone : ∀ cut ∈ cuts pre, ¬ Lays target cut := fun cut hc => (hrefused (hall cut hc)).1
    by_cases hsecond : secondByteAt pre = true
    · rw [if_pos hsecond]
      exact .here hne hsecond hnone
    · rw [if_neg hsecond]
      constructor
      · intro h
        cases h with
        | last ht => exact ht rfl
        | step ht => exact ht rfl
        | absorb _ hfree => exact hat hfree
        | skip hc hl => exact hnone _ hc hl
      · intro h
        cases h with
        | step ht => exact ht rfl
        | here _ h => exact hsecond h
        | inside _ hcuts _ hs => exact (hrefused (hall _ (by simp [hcuts]))).2 hs

end DoubleStar

theorem reports_lay (target pre : List Chunk) : Reports target pre (lay target pre) := by
  induction target generalizing pre with
  | nil => exact ⟨fun h => h.target_ne_nil rfl, fun h => h.target_ne_nil rfl⟩
  | cons t target ih =>
    rcases pre with _ | ⟨p, pre⟩
    · refine ⟨fun h => ?_, fun h => ?_⟩
      · cases h with
        | absorb hne => exact hne rfl
        | skip hc => simp [cuts] at hc
      · cases h with
        | here _ h => simp [secondByteAt] at h
        | inside h => simp at h
    rw [lay]
    by_cases ht : t = doubleStar
    · subst ht
      rw [if_pos rfl]
      by_cases hfree : ∀ c ∈ p :: pre, atSign ∉ c
      · rw [if_pos hfree]
        exact reports_absorb (by simp) hfree _
      rw [if_neg hfree]
      by_cases hlast : target = []
      · rw [if_pos hlast, hlast]
        exact reports_lone hfree
      · rw [if_neg hlast]
        exact reports_cuts hlast hfree ih
    rw [if_neg ht]
    by_cases hlast : target = []
    · subst hlast
      rw [if_pos rfl]
      refine ⟨?_, ?_⟩
      · rw [lays_cons_iff ht]
        simp
      · rw [stumbles_cons_iff ht]
        exact fun h => h.2.target_ne_nil rfl
    rw [if_neg hlast]
    by_cases hm : isChunkMatching t p = true
    · by_cases hend : pre = []
      · subst hend
        rw [if_neg (by simp [hm]), if_pos rfl]
        refine ⟨.last ht hlast hm, ?_⟩
        rw [stumbles_cons_iff ht]
        rintro ⟨_, hs⟩
        cases hs with
        | here _ h => simp [secondByteAt] at h
        | inside h => simp at h
      · have hreport := ih pre
        rw [if_neg (by simp [hm]), if_neg hend]
        rcases hlay : lay target pre with rest | _ | _ <;> rw [hlay] at hreport
        · refine ⟨.step ht hm hreport.1, ?_⟩
          rw [stumbles_cons_iff ht]
          exact fun h => hreport.2 h.2
        · refine ⟨?_, ?_⟩
          · rw [lays_cons_iff ht]
            exact fun h => h.2.2.elim hend hreport.1
          · rw [stumbles_cons_iff ht]
            exact fun h => hreport.2 h.2
        · exact .step ht hm hreport
    · rw [if_pos (by simp [hm])]
      refine ⟨?_, ?_⟩
      · rw [lays_cons_iff ht]
        exact fun h => hm h.2.1
      · rw [stumbles_cons_iff ht]
        exact fun h => hm h.1

theorem lay_eq_stumbles_iff (target pre : List Chunk) :
    lay target pre = .stumbles ↔ Stumbles target pre := by
  have h := reports_lay target pre
  constructor
  · intro hlay
    rwa [hlay] at h
  · intro hs
    rcases hlay : lay target pre with rest | _ | _ <;> rw [hlay] at h
    · exact absurd hs h.2
    · exact absurd hs h.2

/-- An `@` is the first byte of the chunk, or not its second. -/
def plainSecond (chunk : Chunk) : Bool :=
  chunk.head? == some atSign || chunk[1]? != some atSign

theorem plainSecond_of_mem_cuts {pre cut : List Chunk} (hcut : cut ∈ cuts pre)
    (hpre : ∀ c ∈ pre, plainSecond c = true) : ∀ c ∈ cut, plainSecond c = true := by
  induction pre with
  | nil => simp [cuts] at hcut
  | cons c pre ih =>
    have htail : ∀ d ∈ pre, plainSecond d = true := fun d hd => hpre d (by simp [hd])
    by_cases hat : atSign ∈ c
    · obtain ⟨u, w, _, _, _, hdrop⟩ := takeWhile_append_dropWhile_at hat
      have hopen : ∀ d ∈ c.dropWhile (· != atSign) :: pre, plainSecond d = true := by
        intro d hd
        rcases List.mem_cons.mp hd with rfl | hd
        · simp [hdrop, plainSecond]
        · exact htail d hd
      rw [cuts, if_pos hat] at hcut
      split_ifs at hcut
      · simp only [List.mem_cons, List.not_mem_nil, or_false] at hcut
        rcases hcut with rfl | rfl
        · exact hopen
        · exact hpre
      · rw [List.mem_singleton.mp hcut]
        exact hopen
    · rw [cuts, if_neg hat] at hcut
      rcases List.mem_append.mp hcut with hcut | hcut
      · exact ih hcut htail
      · rw [List.mem_singleton.mp hcut]
        exact hpre

theorem not_stumbles_of_plainSecond {target pre : List Chunk}
    (h : ∀ c ∈ pre, plainSecond c = true) : ¬ Stumbles target pre := by
  intro hs
  induction hs with
  | step _ _ _ ih => exact ih fun c hc => h c (by simp [hc])
  | @here target pre _ hsecond _ =>
    rcases pre with _ | ⟨_ | ⟨a, _ | ⟨b, c⟩⟩, pre⟩
    · simp [secondByteAt] at hsecond
    · simp [secondByteAt] at hsecond
    · simp [secondByteAt] at hsecond
    · have hfirst := h (a :: b :: c) (by simp)
      simp only [secondByteAt, Bool.and_eq_true, bne_iff_ne, beq_iff_eq] at hsecond
      simp [plainSecond, hsecond.1, hsecond.2] at hfirst
  | inside _ hcuts _ _ ih => exact ih (plainSecond_of_mem_cuts (by simp [hcuts]) h)

/-- `strip_nonwild_prefix` returns, on a canonical target and a canonical prefix, exactly when the
walk does not stumble. -/
theorem stripNonwildPrefix_returns_iff (t : Bytes) (p : NonWildKeyExpr)
    (ht : validateKeyexpr t = .ok ()) (hp : validateKeyexpr p.text = .ok ()) :
    (∃ r, stripNonwildPrefix t p = .ok r) ↔ ¬ Stumbles (Text.chunks t) (Text.chunks p.text) := by
  rw [validateKeyexpr_ok_iff] at ht hp
  rw [stripNonwildPrefix_eq_lay ht hp, ← lay_eq_stumbles_iff]
  rcases lay (Text.chunks t) (Text.chunks p.text) with rest | _ | _ <;> simp [Outcome.text]

/-- The prefix `d` and the target `d/**`. -/
theorem stripNonwildPrefix_returns_under :
    validateKeyexpr [0x64, slash, star, star] = .ok () ∧ validateKeyexpr [0x64] = .ok () ∧
      ∃ r, stripNonwildPrefix [0x64, slash, star, star] ⟨[0x64], by decide, by decide⟩ = .ok r := by
  have ht : validateKeyexpr [0x64, slash, star, star] = .ok () := by decide +kernel
  have hp : validateKeyexpr [0x64] = .ok () := by decide +kernel
  refine ⟨ht, hp, ?_⟩
  refine (stripNonwildPrefix_returns_iff _ ⟨[0x64], by decide, by decide⟩ ht hp).mpr ?_
  exact not_stumbles_of_plainSecond (by decide +kernel)

/-- `**/x` against the prefix `a@b`. -/
theorem not_stripNonwildPrefix_returns :
    ¬ ∀ (t : Bytes) (p : NonWildKeyExpr), validateKeyexpr t = .ok () →
      validateKeyexpr p.text = .ok () → ∃ r, stripNonwildPrefix t p = .ok r := by
  intro h
  have ht : validateKeyexpr [star, star, slash, 0x78] = .ok () := by decide +kernel
  have hp : validateKeyexpr [0x61, atSign, 0x62] = .ok () := by decide +kernel
  obtain ⟨r, hr⟩ := h _ ⟨[0x61, atSign, 0x62], by decide, by decide⟩ ht hp
  have hpanic : stripNonwildPrefix [star, star, slash, 0x78]
      ⟨[0x61, atSign, 0x62], by decide, by decide⟩ = .error .underflow := by decide +kernel
  rw [hpanic] at hr
  exact absurd hr (by simp)

end WatchingZenoh.KeyexprPrefixPanic
