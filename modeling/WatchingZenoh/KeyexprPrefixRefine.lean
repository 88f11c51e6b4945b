import WatchingZenoh.KeyexprCanonize
import WatchingZenoh.KeyexprParts
import WatchingZenoh.KeyexprPrefixWalk

/-! The byte walk of `strip_inner` refines the chunk walk, for every canonical target and every
canonical prefix without wildcards: the text that is left is the join of the chunks that are left. -/

namespace WatchingZenoh.KeyexprPrefixRefine

open KeyexprPrefix KeyexprPrefixWalk KeyexprGrammar KeyexprCanonize KeyexprParts

section Step

variable {front pfront : Bytes} {t p : Chunk} {target pre : List Chunk}

theorem join_cons_length (t : Chunk) (target : List Chunk) :
    (Text.join (t :: target)).length =
      t.length + if target = [] then 0 else 1 + (Text.join target).length := by
  by_cases h : target = []
  · simp [h]
  · rw [Text.join_cons h]
    simp [h]
    omega

theorem drop_behind_chunk (h : target ≠ []) :
    (front ++ Text.join (t :: target)).drop (front.length + t.length + 1) = Text.join target := by
  rw [Text.join_cons h, show front ++ (t ++ slash :: Text.join target) =
    (front ++ t ++ [slash]) ++ Text.join target by simp]
  exact List.drop_left' (by simp; omega)

theorem take_chunk (t : Chunk) (target : List Chunk) :
    (Text.join (t :: target)).take t.length = t := by
  have h := @join_cons_eq [] t target
  rw [List.append_nil] at h
  rw [h, List.take_left]

theorem chunk_end_iff :
    front.length + t.length = (front ++ Text.join (t :: target)).length ↔ target = [] := by
  have hlen := join_cons_length t target
  simp only [List.length_append]
  by_cases h : target = []
  · simp [h] at hlen ⊢
  · simp only [h, if_false] at hlen
    simp only [h, iff_false]
    omega

theorem stripInner_step (htarget : Solid (t :: target)) (hpre : Solid (p :: pre)) :
    stripInner (front ++ Text.join (t :: target)) (pfront ++ Text.join (p :: pre)) front.length
      pfront.length =
      if t.length = 2 ∧ t.head? = some star then
        match (Text.join (p :: pre)).findIdx? (· == atSign) with
        | none => .ok (some (Text.join (t :: target)))
        | some q =>
          if target = [] then .ok none
          else backOff (fun rest => stripInner (Text.join target) rest 0 0)
            (Text.join (p :: pre)) q
      else if target = [] then .ok none
      else if !isChunkMatching t p then .ok none
      else if pre = [] then .ok (some (Text.join target))
      else stripInner (front ++ Text.join (t :: target)) (pfront ++ Text.join (p :: pre))
        (front.length + t.length + 1) (pfront.length + p.length + 1) := by
  have ht := htarget t (by simp)
  have hp := hpre p (by simp)
  have htpos := List.length_pos_of_ne_nil ht.1
  have hppos := List.length_pos_of_ne_nil hp.1
  have htlen := join_cons_length t target
  have hplen := join_cons_length p pre
  have hinside : front.length < (front ++ Text.join (t :: target)).length ∧
      pfront.length < (pfront ++ Text.join (p :: pre)).length := by
    simp only [List.length_append]
    omega
  have htargetNe : target ≠ [] → 0 < (Text.join target).length := fun h =>
    List.length_pos_of_ne_nil (mt (join_eq_nil_iff htarget.tail).mp h)
  have hlast : front.length + t.length + 1 ≥ (front ++ Text.join (t :: target)).length ↔
      target = [] := by
    simp only [List.length_append]
    by_cases h : target = []
    · simp [h]
    · have := htargetNe h
      simp only [h, if_false] at htlen
      simp only [h, iff_false]
      omega
  rw [stripInner, if_pos hinside]
  simp only [chunkEnd_join ht.2, chunkEnd_join hp.2, List.drop_left, Nat.add_sub_cancel_left,
    take_chunk, chunk_end_iff, hlast]
  by_cases h : target = []
  · rcases (Text.join (p :: pre)).findIdx? (· == atSign) with _ | q <;> simp only [h, if_true]
  · rcases (Text.join (p :: pre)).findIdx? (· == atSign) with _ | q <;>
      simp only [h, if_false, drop_behind_chunk h]

end Step

theorem at_free_of_join {cs : List Chunk} (h : ∀ c ∈ cs, atSign ∉ c) : atSign ∉ Text.join cs := by
  induction cs with
  | nil => simp [Text.join]
  | cons c cs ih =>
    have hc := h c (by simp)
    have hcs := ih fun d hd => h d (by simp [hd])
    rcases cs with _ | ⟨d, cs⟩
    · simpa using hc
    · rw [Text.join_cons (by simp)]
      simpa [hc, hcs] using (by decide : atSign ≠ slash)

theorem findIdx?_at_eq_none {cs : List Chunk} (h : ∀ c ∈ cs, atSign ∉ c) :
    (Text.join cs).findIdx? (· == atSign) = none := by
  rw [List.findIdx?_eq_none_iff]
  intro b hb
  have hne : b ≠ atSign := fun hat => at_free_of_join h (hat ▸ hb)
  simpa using hne

/-- On chunk lists without empty chunks, in which only `**` looks like one, the byte walk does what
the chunk walk does. -/
theorem stripInner_eq_lay {target : List Chunk}
    (hstar : ∀ c ∈ target, c.length = 2 → c.head? = some star → c = doubleStar)
    (hne : target ≠ []) (htarget : Solid target) {pre : List Chunk} (hpne : pre ≠ [])
    (hpre : Solid pre) (front pfront : Bytes) :
    stripInner (front ++ Text.join target) (pfront ++ Text.join pre) front.length pfront.length =
      (lay target pre).text := by
  induction target generalizing pre front pfront with
  | nil => exact absurd rfl hne
  | cons t target ih =>
    obtain ⟨p, pre, rfl⟩ := List.exists_cons_of_ne_nil hpne
    have hdouble : (t.length = 2 ∧ t.head? = some star) ↔ t = doubleStar := by
      constructor
      · exact fun h => hstar t (by simp) h.1 h.2
      · rintro rfl
        exact ⟨rfl, rfl⟩
    replace ih := @ih fun c hc => hstar c (by simp [hc])
    rw [stripInner_step htarget hpre, lay]
    simp only [hdouble]
    by_cases hd : t = doubleStar
    · simp only [hd, if_true]
      by_cases hat : ∀ c ∈ p :: pre, atSign ∉ c
      · rw [findIdx?_at_eq_none hat, if_pos hat]
        rfl
      rw [if_neg hat]
      by_cases hlast : target = []
      · obtain ⟨q, hq, _⟩ := @backOff_cuts (fun _ => .ok none) (fun _ => .refuses)
          (fun _ _ _ => rfl) _ hpre hat
        rw [hq]
        simp [hlast, Outcome.text]
      · have hlay : ∀ cut, cut ≠ [] → Solid cut →
            stripInner (Text.join target) (Text.join cut) 0 0 = (lay target cut).text :=
          fun cut hcut hsolid => ih hlast htarget.tail hcut hsolid [] []
        obtain ⟨q, hq, hback⟩ := @backOff_cuts
          (fun rest => stripInner (Text.join target) rest 0 0) _ hlay _ hpre hat
        rw [hq, if_neg hlast]
        simpa [hlast] using hback
    · simp only [hd, if_false]
      by_cases hlast : target = []
      · simp [hlast, Outcome.text]
      simp only [hlast, if_false]
      by_cases hmatch : isChunkMatching t p = true
      · by_cases hpend : pre = []
        · simp [hmatch, hpend, Outcome.text]
        · have hnext := ih hlast htarget.tail hpend hpre.tail (front ++ t ++ [slash])
            (pfront ++ p ++ [slash])
          rw [Text.join_cons hlast, Text.join_cons hpend]
          simpa [hmatch, hpend, Nat.add_assoc] using hnext
      · simp [hmatch, Outcome.text]

theorem solid_of_canonical {cs : List Chunk} (h : Canonical cs) : Solid cs :=
  fun c hc => ⟨ne_nil_of_canonChunk (h.chunk c hc), slash_not_mem_of_canonChunk (h.chunk c hc)⟩

theorem eq_doubleStar_of_canonChunk {c : Chunk} (h : canonChunk c = true) (hlen : c.length = 2)
    (hstar : c.head? = some star) : c = doubleStar := by
  obtain ⟨rest, rfl⟩ := List.head?_eq_some_iff.mp hstar
  have hwild : star :: rest = singleStar ∨ star :: rest = doubleStar := by
    simpa [canonChunk, not_mixedChunk_star] using h
  rcases hwild with hsingle | hdouble
  · rw [hsingle] at hlen
    simp at hlen
  · exact hdouble

theorem stripNonwildPrefix_eq_lay {t : Bytes} {p : NonWildKeyExpr}
    (ht : Canonical (Text.chunks t)) (hp : Canonical (Text.chunks p.text)) :
    stripNonwildPrefix t p = (lay (Text.chunks t) (Text.chunks p.text)).text := by
  have h := stripInner_eq_lay (fun c hc => eq_doubleStar_of_canonChunk (ht.chunk c hc)) ht.nonempty
    (solid_of_canonical ht) hp.nonempty (solid_of_canonical hp) [] []
  simpa [stripNonwildPrefix] using h

end WatchingZenoh.KeyexprPrefixRefine
