import Mathlib.Data.List.Chain
import WatchingZenoh.KeyexprCollapse

/-! The canonizer's second pass as a function of the chunks. The two dialects differ in one order
of composition: zenoh-c respells a lone `$*` before it sorts the wild runs, zenoh-pico after. -/

namespace WatchingZenoh.KeyexprRewrite

open KeyexprCanon KeyexprGrammar KeyexprCollapse

/-- A lone `$*` is respelt as `*`. -/
def respell (c : Chunk) : Chunk := if c = dollarStar then singleStar else c

/-- Every run of `*` and `**` sorted, behind a run of `singles` many `*` and possibly a `**` that
is already open. -/
def sortRuns : List Chunk → ℕ → Bool → List Chunk
  | [], singles, hasDouble => flushRun singles hasDouble
  | c :: cs, singles, hasDouble =>
    if c = singleStar then sortRuns cs (singles + 1) hasDouble
    else if c = doubleStar then sortRuns cs singles true
    else flushRun singles hasDouble ++ c :: sortRuns cs 0 false

def rewrite (dialect : KeyexprDialect) (cs : List Chunk) (singles : ℕ) (hasDouble : Bool) :
    List Chunk :=
  match dialect with
  | .pico => (sortRuns cs singles hasDouble).map respell
  | .zenohC => sortRuns (cs.map respell) singles hasDouble

def accepted (c : Chunk) : Bool := canonChunk c || c == dollarStar

def shapeOf (c : Chunk) : ChunkShape :=
  if c = singleStar then .singleStar
  else if c = doubleStar then .doubleStar
  else if c = dollarStar then .loneDollarStar
  else .mixed

theorem plain_iff {b : UInt8} (hs : b ≠ slash) (hstar : b ≠ star) (hd : b ≠ dollar) :
    plain b = true ↔ ¬ (b = sharp ∨ b = question) := by
  simp [plain, hs, hstar, hd]

/-- What the walk of a chunk still has to find. Its states 0 and 3 are the two states of the
grammar, and 1 waits for a `*`. -/
def Walks (state : ℕ) (c : Chunk) : Prop :=
  if state = 1 then ∃ rest, c = star :: rest ∧ mixedTail true rest = true
  else mixedTail (state != 0) c = true

theorem walks_dollar_cons (state : ℕ) (c : Chunk) :
    Walks state (dollar :: c) ↔ state = 0 ∧ Walks 1 c := by
  by_cases h1 : state = 1
  · simp [Walks, h1, show dollar ≠ star by decide]
  · simp only [Walks, h1, if_false, if_true]
    rw [mixedTail.eq_def]
    rcases c with _ | ⟨d, c⟩
    · simp
    · by_cases h0 : state = 0 <;> simp [h0]

theorem walks_star_cons (state : ℕ) (c : Chunk) :
    Walks state (star :: c) ↔ state = 1 ∧ Walks 3 c := by
  by_cases h1 : state = 1
  · simp [Walks, h1]
  · simp [Walks, h1, mixedTail_plain_cons (show star ≠ dollar by decide), plain]

theorem walks_cons {b : UInt8} (hd : b ≠ dollar) (hstar : b ≠ star) (state : ℕ) (c : Chunk) :
    Walks state (b :: c) ↔ state ≠ 1 ∧ plain b = true ∧ Walks 0 c := by
  by_cases h1 : state = 1
  · simp [Walks, h1, hstar]
  · simp [Walks, h1, mixedTail_plain_cons hd]

theorem analyzeBytes_ok_iff {c : Chunk} (free : slash ∉ c) (state : ℕ) (shape : ChunkShape) :
    analyzeBytes state c = .ok shape ↔ shape = .mixed ∧ Walks state c := by
  induction c generalizing state with
  | nil =>
    by_cases h : state = 1
    · simp [analyzeBytes, Walks, h]
    · simp [analyzeBytes, Walks, h, mixedTail, eq_comm]
  | cons b rest ih =>
    have hslash : b ≠ slash := fun h => free (by simp [h])
    replace ih := ih fun h => free (by simp [h])
    rw [analyzeBytes]
    by_cases hdollar : b = dollar
    · subst hdollar
      rw [walks_dollar_cons, if_neg (by decide), if_pos rfl]
      by_cases h0 : state = 0 <;> simp [h0, ih]
    by_cases hstar : b = star
    · subst hstar
      rw [walks_star_cons, if_neg (by decide), if_neg (by decide), if_pos rfl]
      by_cases h1 : state = 1 <;> simp [h1, ih]
    rw [walks_cons hdollar hstar, plain_iff hslash hstar hdollar, if_neg hdollar, if_neg hstar]
    by_cases hsharp : b = sharp ∨ b = question
    · simp [hsharp]
    · by_cases h1 : state = 1 <;> simp [hsharp, h1, ih]

theorem analyzeChunk_ok_iff {c : Chunk} (free : slash ∉ c) (shape : ChunkShape) :
    analyzeChunk c = .ok shape ↔ accepted c = true ∧ shape = shapeOf c := by
  by_cases he : c = []
  · subst he
    simp [analyzeChunk, accepted, canonChunk, mixedChunk]
  by_cases hs : c = singleStar
  · subst hs
    simp [analyzeChunk, accepted, canonChunk, shapeOf, eq_comm]
  by_cases hd : c = doubleStar
  · subst hd
    simp [analyzeChunk, accepted, canonChunk, shapeOf, eq_comm]
  by_cases hl : c = dollarStar
  · subst hl
    simp [analyzeChunk, accepted, shapeOf, show dollar ≠ star by decide, eq_comm]
  · have hanalyze : analyzeChunk c = analyzeBytes 0 c := by simp [analyzeChunk, he, hs, hd, hl]
    have hshape : shapeOf c = .mixed := by simp [shapeOf, hs, hd, hl]
    have haccepted : accepted c = mixedTail false c := by
      rw [Bool.eq_iff_iff]
      simp [accepted, canonChunk, mixedChunk, he, hs, hd, hl]
    rw [hanalyze, hshape, haccepted, analyzeBytes_ok_iff free]
    simp [Walks, and_comm]

theorem analyzeChunk_cases {c : Chunk} (free : slash ∉ c) :
    (accepted c = true ∧ analyzeChunk c = .ok (shapeOf c)) ∨
      (accepted c = false ∧ ∃ e, analyzeChunk c = .error e) := by
  by_cases h : accepted c = true
  · exact .inl ⟨h, (analyzeChunk_ok_iff free _).mpr ⟨h, rfl⟩⟩
  · refine .inr ⟨by simpa using h, ?_⟩
    rcases hc : analyzeChunk c with e | shape
    · exact ⟨e, rfl⟩
    · exact absurd ((analyzeChunk_ok_iff free shape).mp hc).1 h

theorem analyzeAll_ok_iff {cs : List Chunk} (free : ∀ c ∈ cs, slash ∉ c) :
    analyzeAll cs = .ok () ↔ ∀ c ∈ cs, accepted c = true := by
  induction cs with
  | nil => simp [analyzeAll]
  | cons c cs ih =>
    replace ih := ih fun d hd => free d (by simp [hd])
    rw [analyzeAll, List.forall_mem_cons]
    rcases analyzeChunk_cases (free c (by simp)) with ⟨hacc, hc⟩ | ⟨hacc, e, hc⟩
    · simp [hc, hacc, ih]
    · simp [hc, hacc]

@[simp] theorem respell_singleStar : respell singleStar = singleStar := by decide

@[simp] theorem respell_doubleStar : respell doubleStar = doubleStar := by decide

@[simp] theorem respell_dollarStar : respell dollarStar = singleStar := by decide

theorem map_respell_flushRun (singles : ℕ) (hasDouble : Bool) :
    (flushRun singles hasDouble).map respell = flushRun singles hasDouble := by
  cases hasDouble <;> simp [flushRun]

theorem rewrite_nil (dialect : KeyexprDialect) (singles : ℕ) (hasDouble : Bool) :
    rewrite dialect [] singles hasDouble = flushRun singles hasDouble := by
  cases dialect
  · exact map_respell_flushRun singles hasDouble
  · rfl

theorem rewrite_cons (dialect : KeyexprDialect) (c : Chunk) (cs : List Chunk) (singles : ℕ)
    (hasDouble : Bool) :
    rewrite dialect (c :: cs) singles hasDouble =
      if foldsIntoRun (shapeOf c) dialect then rewrite dialect cs (singles + 1) hasDouble
      else if shapeOf c = .doubleStar then rewrite dialect cs singles true
      else flushRun singles hasDouble ++
        (if shapeOf c = .loneDollarStar then singleStar else c) :: rewrite dialect cs 0 false := by
  by_cases hs : c = singleStar
  · subst hs
    cases dialect <;> simp [rewrite, sortRuns, shapeOf, foldsIntoRun]
  by_cases hd : c = doubleStar
  · subst hd
    cases dialect <;> simp [rewrite, sortRuns, shapeOf, foldsIntoRun]
  by_cases hl : c = dollarStar
  · subst hl
    have hne : dollarStar ≠ singleStar ∧ dollarStar ≠ doubleStar := by decide
    cases dialect <;>
      simp [rewrite, sortRuns, shapeOf, foldsIntoRun, hne, -List.cons.injEq, map_respell_flushRun]
  · have hself : respell c = c := by simp [respell, hl]
    cases dialect <;>
      simp [rewrite, sortRuns, shapeOf, foldsIntoRun, hs, hd, hl, hself, map_respell_flushRun]

/-- The loop refuses unless it accepts every chunk, and then writes the rewritten chunks. -/
theorem canonizeLoop_ok_iff (dialect : KeyexprDialect) {cs : List Chunk}
    (free : ∀ c ∈ cs, slash ∉ c) (out : List Chunk) (singles : ℕ) (hasDouble : Bool)
    (res : List Chunk) :
    canonizeLoop dialect cs out singles hasDouble = .ok res ↔
      (∀ c ∈ cs, accepted c = true) ∧ res = out ++ rewrite dialect cs singles hasDouble := by
  induction cs generalizing out singles hasDouble with
  | nil =>
    rw [canonizeLoop, rewrite_nil, Except.ok.injEq, eq_comm]
    simp
  | cons c cs ih =>
    replace ih := ih fun d hd => free d (by simp [hd])
    rw [canonizeLoop, List.forall_mem_cons, rewrite_cons]
    rcases analyzeChunk_cases (free c (by simp)) with ⟨hacc, hc⟩ | ⟨hacc, e, hc⟩
    · simp only [hc, hacc, true_and]
      split_ifs <;> simp [ih]
    · simp [hc, hacc]

theorem canonizeLoop_error (dialect : KeyexprDialect) {cs : List Chunk} {e : KeyexprCanonError}
    (h : analyzeAll cs = .error e) (out : List Chunk) (singles : ℕ) (hasDouble : Bool) :
    canonizeLoop dialect cs out singles hasDouble = .error e := by
  induction cs generalizing out singles hasDouble with
  | nil => simp [analyzeAll] at h
  | cons c cs ih =>
    rw [analyzeAll] at h
    rw [canonizeLoop]
    rcases hc : analyzeChunk c with e' | shape
    · simpa [hc] using h
    · simp only [hc] at h ⊢
      split_ifs <;> exact ih h _ _ _

theorem isChain_flushRun (singles : ℕ) (hasDouble : Bool) :
    (flushRun singles hasDouble).IsChain inOrder := by
  induction singles with
  | zero => cases hasDouble <;> simp [flushRun]
  | succ n ih =>
    rw [flushRun, List.replicate_succ, List.cons_append, List.isChain_cons]
    refine ⟨fun _ _ h => absurd h (by decide), ih⟩

/-- A run that is closed by a chunk is in order unless that chunk is wild behind a `**`. -/
theorem isChain_flushRun_append (singles : ℕ) (hasDouble : Bool) (c : Chunk) (cs : List Chunk) :
    (flushRun singles hasDouble ++ c :: cs).IsChain inOrder ↔
      (hasDouble = true → c ≠ singleStar ∧ c ≠ doubleStar) ∧ (c :: cs).IsChain inOrder := by
  induction singles with
  | zero =>
    cases hasDouble
    · simp [flushRun]
    · simp [flushRun, inOrder]
  | succ n ih =>
    rw [← ih, flushRun, List.replicate_succ, List.cons_append, List.cons_append, List.isChain_cons]
    exact and_iff_right fun _ _ h => absurd h (by decide)

theorem isChain_sortRuns (cs : List Chunk) (singles : ℕ) (hasDouble : Bool) :
    (sortRuns cs singles hasDouble).IsChain inOrder := by
  induction cs generalizing singles hasDouble with
  | nil => exact isChain_flushRun singles hasDouble
  | cons c cs ih =>
    rw [sortRuns]
    split_ifs with hs hd
    · exact ih _ _
    · exact ih _ _
    · rw [isChain_flushRun_append, List.isChain_cons]
      exact ⟨fun _ => ⟨hs, hd⟩, fun _ _ h => absurd h hd, ih _ _⟩

theorem mem_sortRuns {cs : List Chunk} {singles : ℕ} {hasDouble : Bool} {c : Chunk}
    (h : c ∈ sortRuns cs singles hasDouble) : c ∈ cs ∨ c = singleStar ∨ c = doubleStar := by
  have hflush : ∀ {n : ℕ} {w : Bool}, c ∈ flushRun n w → c = singleStar ∨ c = doubleStar := by
    intro n w hc
    cases w <;> simp [flushRun] at hc
    · exact .inl hc.2
    · exact hc.imp_left And.right
  induction cs generalizing singles hasDouble with
  | nil => exact .inr (hflush h)
  | cons d cs ih =>
    rw [sortRuns] at h
    split_ifs at h
    · exact (ih h).imp_left (List.mem_cons_of_mem d)
    · exact (ih h).imp_left (List.mem_cons_of_mem d)
    · rcases List.mem_append.mp h with h | h
      · exact .inr (hflush h)
      · rcases List.mem_cons.mp h with rfl | h
        · exact .inl (by simp)
        · exact (ih h).imp_left (List.mem_cons_of_mem d)

theorem sortRuns_ne_nil {cs : List Chunk} {singles : ℕ} {hasDouble : Bool}
    (h : cs ≠ [] ∨ 0 < singles ∨ hasDouble = true) : sortRuns cs singles hasDouble ≠ [] := by
  induction cs generalizing singles hasDouble with
  | nil =>
    rcases h with h | h | rfl
    · exact absurd rfl h
    · simp [sortRuns, flushRun, show singles ≠ 0 by omega]
    · simp [sortRuns, flushRun]
  | cons c cs ih =>
    rw [sortRuns]
    split_ifs
    · exact ih (.inr (.inl (by omega)))
    · exact ih (.inr (.inr rfl))
    · simp

theorem sortRuns_of_isChain {cs : List Chunk} (h : cs.IsChain inOrder) (singles : ℕ)
    {hasDouble : Bool}
    (hopen : hasDouble = true → ∀ c ∈ cs.head?, c ≠ singleStar ∧ c ≠ doubleStar) :
    sortRuns cs singles hasDouble = flushRun singles hasDouble ++ cs := by
  induction cs generalizing singles hasDouble with
  | nil => simp [sortRuns]
  | cons c cs ih =>
    obtain ⟨hc, hcs⟩ := List.isChain_cons.mp h
    rw [sortRuns]
    split_ifs with hs hd
    · subst hs
      have hw : hasDouble = false := by
        by_contra hw
        exact (hopen (by simpa using hw) singleStar (by simp)).1 rfl
      subst hw
      rw [ih hcs _ (by simp), flushRun, List.replicate_succ']
      simp [flushRun]
    · subst hd
      have hw : hasDouble = false := by
        by_contra hw
        exact (hopen (by simpa using hw) doubleStar (by simp)).2 rfl
      subst hw
      rw [ih hcs _ fun _ d hd => hc d hd rfl]
      simp [flushRun]
    · rw [ih hcs _ (by simp)]
      simp [flushRun]

end WatchingZenoh.KeyexprRewrite
