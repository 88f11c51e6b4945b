import Mathlib.Data.List.Chain
import WatchingZenoh.KeyexprPrefixAgree

/-! Prepending a namespace and stripping it again, and the storage pair over it. What goes out under
a namespace comes back as it was, and of the keys only those that went out under it come back. -/

namespace WatchingZenoh.KeyexprPrefixRoundTrip

open KeyexprMatch KeyexprLanguage KeyexprGrammar KeyexprParts KeyexprCanon KeyexprValidate
open KeyexprPrefix KeyexprPrefixWalk KeyexprPrefixRefine KeyexprPrefixChunk KeyexprPrefixRoute
open KeyexprPrefixAgree

theorem ne_doubleStar_of_concrete {c : Chunk} (h : concreteChunk c = true) : c ≠ doubleStar := by
  rintro rfl
  exact absurd h (by decide)

theorem canonChunk_of_concrete {c : Chunk} (h : concreteChunk c = true) : canonChunk c = true := by
  obtain ⟨a, c, rfl⟩ := List.exists_cons_of_ne_nil (ne_nil_of_concrete h)
  have htail : ∀ d : Chunk, (∀ b ∈ d, plain b = true) → mixedTail false d = true := by
    intro d hd
    induction d with
    | nil => rfl
    | cons b d ih =>
      have hb : b ≠ dollar := by
        rintro rfl
        exact absurd (hd dollar (by simp)) (by decide)
      rw [mixedTail_plain_cons hb, hd b (by simp), ih fun e he => hd e (by simp [he])]
      rfl
  have hplain := fun b hb => plain_of_concrete h (b := b) hb
  have ha : a ≠ dollar := by
    rintro rfl
    exact absurd (hplain dollar (by simp)) (by decide)
  simp [canonChunk, mixedChunk_cons ha, hplain a (by simp),
    htail c fun b hb => hplain b (by simp [hb])]

theorem laid_concrete_iff {t p : Chunk} (ht : concreteChunk t = true) : Laid t p ↔ t = p := by
  have hs : t ≠ singleStar := by
    rintro rfl
    exact absurd ht (by decide)
  unfold Laid
  rw [splitDsl_of_not_containsDsl (containsDsl_of_concrete ht)]
  constructor
  · rintro ⟨_, h | h⟩
    · exact absurd h hs
    · exact Eq.symm h
  · rintro rfl
    exact ⟨id, .inr rfl⟩

theorem isChunkMatching_self {c : Chunk} (h : concreteChunk c = true) :
    isChunkMatching c c = true :=
  (isChunkMatching_iff (canonChunk_of_concrete h) (ne_doubleStar_of_concrete h) h).mpr
    ((laid_concrete_iff h).mpr rfl)

theorem goes_append {pre rest : List Chunk} (hp : ∀ c ∈ pre, concreteChunk c = true)
    (hne : pre ≠ []) (hrest : rest ≠ []) : Goes (pre ++ rest) pre rest := by
  induction pre with
  | nil => exact absurd rfl hne
  | cons p pre ih =>
    have hpc := hp p (by simp)
    by_cases hend : pre = []
    · subst hend
      exact .last (ne_doubleStar_of_concrete hpc) hrest (isChunkMatching_self hpc)
    · exact .step (ne_doubleStar_of_concrete hpc) (isChunkMatching_self hpc)
        (ih (fun c hc => hp c (by simp [hc])) hend)

theorem canonical_append {pre rest : List Chunk} (hp : ∀ c ∈ pre, concreteChunk c = true)
    (hrest : Canonical rest) : Canonical (pre ++ rest) := by
  induction pre with
  | nil => exact hrest
  | cons p pre ih =>
    have hpc := hp p (by simp)
    have htail := ih fun c hc => hp c (by simp [hc])
    obtain ⟨c, cs, hcs⟩ := List.exists_cons_of_ne_nil htail.nonempty
    rw [List.cons_append, hcs, canonical_cons_cons, ← hcs]
    exact ⟨canonChunk_of_concrete hpc, fun h => absurd h (ne_doubleStar_of_concrete hpc), htail⟩

section Namespace

variable {ns : NonWildKeyExpr} {s : Bytes}

theorem ne_nil_of_canonical (hs : Canonical (Text.chunks s)) : s ≠ [] := by
  rintro rfl
  exact not_canonical_nil hs

theorem prepend_of_ne_nil (hs : s ≠ []) : prepend ns s = ns.text ++ slash :: s := by
  simp [prepend, hs]

theorem chunks_prepend (hs : s ≠ []) :
    Text.chunks (prepend ns s) = Text.chunks ns.text ++ Text.chunks s := by
  rw [prepend_of_ne_nil hs, Text.chunks_append_slash]

theorem strip_prepend (hns : Canonical (Text.chunks ns.text)) (hs : Canonical (Text.chunks s)) :
    stripNonwildPrefix (prepend ns s) ns = .ok (some s) := by
  have hpre := concrete_of_nonWild hns
  have hchunks := @chunks_prepend ns s (ne_nil_of_canonical hs)
  have hcanonical : Canonical (Text.chunks (prepend ns s)) := by
    rw [hchunks]
    exact canonical_append hpre hs
  rw [stripNonwildPrefix_eq_some_iff hcanonical hns, hchunks]
  exact ⟨Text.chunks s, goes_append hpre hns.nonempty hs.nonempty, by simp⟩

end Namespace

section Plain

theorem matchBytes_plain {target pre : Bytes} {prev : UInt8} (hstar : star ∉ target)
    (hdollar : dollar ∉ target) (h : matchBytes target pre prev = true) : target = pre := by
  induction target generalizing pre prev with
  | nil =>
    rw [matchBytes] at h
    · by_contra hne
      simp [Ne.symm hne] at h
    · simp
  | cons b target ih =>
    simp only [List.mem_cons, not_or] at hstar hdollar
    cases pre with
    | nil => simp [matchBytes, Ne.symm hdollar.1] at h
    | cons c pre =>
      rw [matchBytes, if_neg (Ne.symm hstar.1)] at h
      by_cases hbc : b = c
      · rw [if_pos hbc] at h
        rw [hbc, ih hstar.2 hdollar.2 h]
      · simp [hbc, Ne.symm hdollar.1] at h

theorem drop_chunkEnd {text : Bytes} {i : ℕ} (hi : i ≤ text.length)
    (hend : chunkEnd text i ≠ text.length) :
    text.drop i = (text.drop i).take (chunkEnd text i - i) ++ slash :: text.drop (chunkEnd text i + 1)
    := by
  have hlt : (text.drop i).findIdx (· == slash) < (text.drop i).length := by
    refine lt_of_le_of_ne List.findIdx_le_length fun heq => hend ?_
    rw [chunkEnd, heq, List.length_drop]
    omega
  have hslash : (text.drop i)[(text.drop i).findIdx (· == slash)] = slash := by
    simpa using List.findIdx_getElem (w := hlt)
  have hsplit : (text.drop i).drop ((text.drop i).findIdx (· == slash)) =
      slash :: text.drop (chunkEnd text i + 1) := by
    rw [List.drop_eq_getElem_cons hlt, hslash, List.drop_drop, chunkEnd]
    rfl
  rw [← hsplit, chunkEnd, Nat.add_sub_cancel_left, List.take_append_drop]

theorem stripInner_plain {target pre : Bytes} (hstar : star ∉ target) (hdollar : dollar ∉ target)
    {ti pi : ℕ} {rest : Bytes} (h : stripInner target pre ti pi = .ok (some rest)) :
    target.drop ti = pre.drop pi ++ slash :: rest := by
  induction hn : target.length - ti using Nat.strong_induction_on generalizing ti pi with
  | _ n ih =>
    subst hn
    rw [stripInner] at h
    by_cases hlt : ti < target.length ∧ pi < pre.length
    swap
    · simp [hlt] at h
    rw [if_pos hlt] at h
    dsimp only at h
    have hnowild : ¬ (((target.drop ti).take (chunkEnd target ti - ti)).length = 2 ∧
        ((target.drop ti).take (chunkEnd target ti - ti)).head? = some star) := by
      rintro ⟨-, hhead⟩
      exact hstar (List.mem_of_mem_drop (List.mem_of_mem_take (List.mem_of_mem_head? hhead)))
    rw [if_neg hnowild] at h
    by_cases hlast : chunkEnd target ti = target.length
    · simp [hlast] at h
    rw [if_neg hlast] at h
    rcases hmatch : isChunkMatching ((target.drop ti).take (chunkEnd target ti - ti))
        ((pre.drop pi).take (chunkEnd pre pi - pi)) with _ | _
    · simp [hmatch] at h
    rw [hmatch] at h
    have hchunk : (target.drop ti).take (chunkEnd target ti - ti) =
        (pre.drop pi).take (chunkEnd pre pi - pi) := by
      simp only [isChunkMatching, Bool.and_eq_true] at hmatch
      refine matchBytes_plain (fun hin => hstar ?_) (fun hin => hdollar ?_) hmatch.2
      · exact List.mem_of_mem_drop (List.mem_of_mem_take hin)
      · exact List.mem_of_mem_drop (List.mem_of_mem_take hin)
    rw [drop_chunkEnd hlt.1.le hlast, hchunk]
    by_cases hpre : chunkEnd pre pi = pre.length
    · obtain rfl : target.drop (chunkEnd target ti + 1) = rest := by simpa [hpre] using h
      rw [hpre, List.take_of_length_le (by simp)]
    · have hnext : target.length - (chunkEnd target ti + 1) < target.length - ti := by
        rw [chunkEnd]
        omega
      have hrest := ih _ hnext (by simpa [hpre] using h) rfl
      rw [hrest, ← List.cons_append, ← List.append_assoc, ← drop_chunkEnd hlt.2.le hpre]

theorem exists_chunk_of_mem {t : Bytes} {b : UInt8} (hslash : b ≠ slash) (hb : b ∈ t) :
    ∃ c ∈ Text.chunks t, b ∈ c := by
  induction t with
  | nil => simp at hb
  | cons a t ih =>
    by_cases ha : a = slash
    · have hin : b ∈ t := by simpa [ha, hslash] using hb
      obtain ⟨c, hc, hbc⟩ := ih hin
      exact ⟨c, by simp [ha, Text.chunks_slash_cons, hc], hbc⟩
    · obtain ⟨c, cs, hcs⟩ := List.exists_cons_of_ne_nil (Text.chunks_ne_nil t)
      have hchunks : Text.chunks (a :: t) = (a :: c) :: cs := by simp [Text.chunks_cons ha, hcs]
      rw [hchunks]
      rcases List.mem_cons.mp hb with rfl | hin
      · exact ⟨b :: c, by simp, by simp⟩
      · obtain ⟨d, hd, hbd⟩ := ih hin
        rw [hcs, List.mem_cons] at hd
        rcases hd with rfl | hd
        · exact ⟨a :: d, by simp, by simp [hbd]⟩
        · exact ⟨d, by simp [hd], hbd⟩

theorem not_mem_of_concreteKey {t : Bytes} (ht : ConcreteKey t) {b : UInt8} (hslash : b ≠ slash)
    (hplain : plain b = false) : b ∉ t := by
  intro hb
  obtain ⟨c, hc, hbc⟩ := exists_chunk_of_mem hslash hb
  exact absurd (plain_of_concrete (ht c hc) hbc) (by simp [hplain])

theorem eq_prepend_of_strip {ns : NonWildKeyExpr} {s t : Bytes} (ht : ConcreteKey t)
    (h : stripNonwildPrefix t ns = .ok (some s)) : t = prepend ns s := by
  have htext := stripInner_plain (not_mem_of_concreteKey ht (by decide) (by decide))
    (not_mem_of_concreteKey ht (by decide) (by decide)) h
  have hne : s ≠ [] := by
    rintro rfl
    have hempty : [] ∈ Text.chunks t := by
      rw [show t = ns.text ++ slash :: [] from htext, Text.chunks_append_slash]
      simp
    exact absurd (ht [] hempty) (by decide)
  rw [prepend_of_ne_nil hne]
  exact htext

/-- The storage restores every key without `*` and `$`, under whatever prefix. -/
theorem restorePrefix_of_plain {pre : Option Bytes} {t : Bytes} (hstar : star ∉ t)
    (hdollar : dollar ∉ t) {x : Option Bytes} (h : stripPrefix pre t = .ok (.ok x)) :
    restorePrefix pre x = some t := by
  rcases pre with _ | p
  · obtain rfl : some t = x := by simpa [stripPrefix] using h
    rfl
  unfold stripPrefix at h
  rcases hnew : NonWildKeyExpr.new p with (_ | _) | ns <;> simp only [hnew] at h
  · simp at h
  · simp at h
  have htext : ns.text = p := by
    unfold NonWildKeyExpr.new at hnew
    split_ifs at hnew
    rw [← Except.ok.inj hnew]
  by_cases hkey : t = p
  · obtain rfl : none = x := by simpa [hkey] using h
    rw [hkey]
    rfl
  rw [if_neg hkey] at h
  rcases hstrip : stripNonwildPrefix t ns with e | (_ | s) <;> simp only [hstrip] at h
  · simp at h
  · simp at h
  · by_cases hempty : s.isEmpty = true
    · simp [hempty] at h
    rw [if_neg hempty] at h
    obtain rfl : some s = x := Except.ok.inj (Except.ok.inj h)
    rw [← htext]
    exact congrArg some (stripInner_plain hstar hdollar hstrip).symm

end Plain

/-- What is prepended is stripped, for every canonical key expression; what is stripped from a key
was prepended; and the storage pair restores the key it stripped. -/
theorem namespace_round_trip (ns : NonWildKeyExpr) (hns : validateKeyexpr ns.text = .ok ()) :
    (∀ s, validateKeyexpr s = .ok () → stripNonwildPrefix (prepend ns s) ns = .ok (some s)) ∧
      (∀ t, ConcreteKey t → ∀ s, stripNonwildPrefix t ns = .ok (some s) → t = prepend ns s) ∧
      ∀ t, ConcreteKey t → ∀ x, stripPrefix (some ns.text) t = .ok (.ok x) →
        restorePrefix (some ns.text) x = some t := by
  rw [validateKeyexpr_ok_iff] at hns
  refine ⟨fun s hs => ?_, fun t ht s h => ?_, fun t ht x h => ?_⟩
  · exact strip_prepend hns ((validateKeyexpr_ok_iff s).mp hs)
  · exact eq_prepend_of_strip ht h
  · exact restorePrefix_of_plain (not_mem_of_concreteKey ht (by decide) (by decide))
      (not_mem_of_concreteKey ht (by decide) (by decide)) h

/-- The namespace `@n` around `**`. -/
theorem namespace_round_trip_verbatim :
    validateKeyexpr [atSign, 0x6E] = .ok () ∧
      stripNonwildPrefix (prepend ⟨[atSign, 0x6E], by decide, by decide⟩ doubleStar)
        ⟨[atSign, 0x6E], by decide, by decide⟩ = .ok (some doubleStar) := by
  have hns : validateKeyexpr [atSign, 0x6E] = .ok () := by decide +kernel
  exact ⟨hns, (namespace_round_trip ⟨[atSign, 0x6E], by decide, by decide⟩ hns).1 doubleStar
    (by decide +kernel)⟩

end WatchingZenoh.KeyexprPrefixRoundTrip
