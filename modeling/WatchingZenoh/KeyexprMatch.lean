import WatchingZenoh.Library.Gaps
import WatchingZenoh.Text

/-! `keyexpr_match`: the matcher of a concrete key against a pattern, and the two descents over a
pair of patterns, with every wildcard toggle on and the growable backing.
A pattern is the list of its chunks; a chunk is a byte string without `/`. -/

namespace WatchingZenoh.KeyexprMatch

open Gaps

/-- The largest `usize`: the bound of `checked_add` and `checked_mul`. -/
def usizeMax : ℕ := 2 ^ 64 - 1

def isVerbatimChunk (chunk : Chunk) : Bool := chunk.head? == some atSign

/-- `chunk.contains("$*")`. -/
def containsDsl : Chunk → Bool
  | a :: b :: rest => (a == dollar && b == star) || containsDsl (b :: rest)
  | _ => false

/-- `chunk.split("$*")`, whose pieces never overlap because `$` is not `*`. -/
def splitDsl : Chunk → List Bytes
  | a :: b :: rest =>
    if a = dollar ∧ b = star then [] :: splitDsl rest
    else (splitDsl (b :: rest)).modifyHead (a :: ·)
  | [a] => [[a]]
  | [] => [[]]

/-- The loop over the parts after the leading one. The last part is the trailing anchor; an empty
part in the middle is passed over. -/
def matchParts : List Bytes → Bytes → Bool
  | [], _ => false
  | [part], remaining => part.isEmpty || (part.isSuffixOf remaining && part.length ≤ remaining.length)
  | part :: next :: parts, remaining =>
    if part.isEmpty then matchParts (next :: parts) remaining
    else match firstAt part remaining with
      | some pos => matchParts (next :: parts) (remaining.drop (pos + part.length))
      | none => false

def chunkMatchesWithDsl (pattern target : Chunk) : Bool :=
  match splitDsl pattern with
  | [] => false
  | leading :: parts =>
    if leading.isEmpty then matchParts parts target
    else if leading.isPrefixOf target then matchParts parts (target.drop leading.length)
    else false

def chunkMatches (pattern target : Chunk) : Bool :=
  if pattern = target then true
  else if isVerbatimChunk pattern || isVerbatimChunk target then false
  else if containsDsl pattern then chunkMatchesWithDsl pattern target
  else false

def targetChunksWellFormed (targetChunks : List Chunk) : Bool :=
  !targetChunks.any fun chunk => chunk.isEmpty

/-- How many more chunks the `**` frame may absorb. -/
def frameRoom (targetLen : ℕ) (starStarPi : Option ℕ) (starStarTi : ℕ) : ℕ :=
  if starStarPi.isSome then targetLen - starStarTi else targetLen + 1

/-- The two-cursor walk with one `**` frame. `starStarTi` never passes `ti`, which is why the frame
always has a chunk left to absorb and the walk ends. -/
def matchesLoop (pattern target : List Chunk) (pi ti : ℕ) (starStarPi : Option ℕ) (starStarTi : ℕ)
    (behind : starStarTi ≤ ti) : Bool :=
  if inside : ti < target.length then
    if pattern[pi]? = some doubleStar then
      matchesLoop pattern target (pi + 1) ti (some pi) ti le_rfl
    else if (pattern[pi]?).any fun pat =>
        (pat == singleStar && !isVerbatimChunk target[ti]) || chunkMatches pat target[ti] then
      matchesLoop pattern target (pi + 1) (ti + 1) starStarPi starStarTi (by omega)
    else
      match starStarPi with
      | some savedPi =>
        if isVerbatimChunk target[starStarTi] then false
        else matchesLoop pattern target (savedPi + 1) (starStarTi + 1) (some savedPi)
          (starStarTi + 1) le_rfl
      | none => false
  else ((pattern.drop pi).dropWhile (· == doubleStar)).isEmpty
termination_by
  frameRoom target.length starStarPi starStarTi * (pattern.length + 1) + (pattern.length - pi)
decreasing_by
  · rename_i hpat
    have hpi := (List.getElem?_eq_some_iff.mp hpat).1
    apply Nat.add_lt_add_of_le_of_lt (Nat.mul_le_mul_right _ _) (by omega)
    cases starStarPi <;> simp only [frameRoom, Option.isSome_some, Option.isSome_none] <;>
      simp <;> omega
  · rename_i hany
    obtain ⟨_, hpat, _⟩ := (Option.any_eq_true _ _).mp hany
    have hpi := (List.getElem?_eq_some_iff.mp hpat).1
    apply Nat.add_lt_add_of_le_of_lt le_rfl
    omega
  · have room : frameRoom target.length (some savedPi) starStarTi =
        frameRoom target.length (some savedPi) (starStarTi + 1) + 1 := by
      simp only [frameRoom, Option.isSome_some, if_true]
      omega
    rw [room, Nat.add_mul]
    omega

def matchesChunks (pattern target : List Chunk) : Bool :=
  matchesLoop pattern target 0 0 none 0 le_rfl

/-- Match a `/`-separated key `target` against a pattern split into chunks. -/
def keyexprPatternMatches (patternChunks : List Chunk) (target : Bytes) : Bool :=
  if !targetChunksWellFormed (Text.chunks target) then false
  else matchesChunks patternChunks (Text.chunks target)

/-- The suffix pairs found to answer `false`, one bit for each, at `i * columns + j`. The words
that hold the bits are one natural number here; they are zeroed by the first write. -/
structure Refuted where
  rows : ℕ
  columns : ℕ
  cleared : Bool
  bits : ℕ

namespace Refuted

/-- On the growable backing the pairs fit unless counting them overflows. -/
def fits (aLen bLen : ℕ) : Bool :=
  aLen + 1 ≤ usizeMax && bLen + 1 ≤ usizeMax && (aLen + 1) * (bLen + 1) ≤ usizeMax

def new (aLen bLen : ℕ) : Refuted := ⟨aLen + 1, bLen + 1, false, 0⟩

def holds (r : Refuted) (i j : ℕ) : Bool := r.cleared && r.bits.testBit (i * r.columns + j)

def clear (r : Refuted) : Refuted := { r with cleared := true, bits := 0 }

def insert (r : Refuted) (i j : ℕ) : Refuted :=
  let r := if r.cleared then r else r.clear
  { r with bits := r.bits ||| 1 <<< (i * r.columns + j) }

/-- A `**` at the pair `(i, j)`: it stops there, or it takes a chunk and stays. -/
def expand (r : Refuted) (i j : ℕ) (stops takes : Refuted → Bool × Refuted) : Bool × Refuted :=
  if r.holds i j then (false, r)
  else
    let first := stops r
    let met := if first.1 then first else takes first.2
    if met.1 then met else (false, met.2.insert i j)

end Refuted

/-- `chunk_intersects`: byte equality first, then the verbatim refusal, then the wildcards. Of two
chunks with `$*` only the leading and the trailing anchors are looked at. -/
def chunkIntersects (a b : Chunk) : Bool :=
  if a = b then true
  else if isVerbatimChunk a || isVerbatimChunk b then false
  else if a = singleStar || b = singleStar then true
  else match containsDsl a, containsDsl b with
    | true, false => chunkMatchesWithDsl a b
    | false, true => chunkMatchesWithDsl b a
    | true, true =>
      let aLead := (splitDsl a).headD []
      let aTrail := (splitDsl a).getLastD []
      let bLead := (splitDsl b).headD []
      let bTrail := (splitDsl b).getLastD []
      (bLead.isPrefixOf aLead || aLead.isPrefixOf bLead) &&
        (bTrail.isSuffixOf aTrail || aTrail.isSuffixOf bTrail)
    | false, false => a == b

/-- `chunk_includes`: the `$*` walk of `a` runs over the raw text of `b`. -/
def chunkIncludes (a b : Chunk) : Bool :=
  if a = b then true
  else if isVerbatimChunk a || isVerbatimChunk b then false
  else if a = singleStar then true
  else if b = singleStar then false
  else if containsDsl a then chunkMatchesWithDsl a b
  else if containsDsl b then false
  else a == b

/-- Whether `a[i..]` and `b[j..]` share a key, with the memory of the pairs refuted so far. -/
def intersectFrom (a b : List Chunk) (i j : ℕ) (refuted : Refuted) : Bool × Refuted :=
  if a[i]? = none ∧ b[j]? = none then (true, refuted)
  else if a[i]? = some doubleStar then
    refuted.expand i j (intersectFrom a b (i + 1) j) fun r =>
      if (b[j]?).any (!isVerbatimChunk ·) then intersectFrom a b i (j + 1) r else (false, r)
  else if b[j]? = some doubleStar then
    refuted.expand i j (intersectFrom a b i (j + 1)) fun r =>
      if (a[i]?).any (!isVerbatimChunk ·) then intersectFrom a b (i + 1) j r else (false, r)
  else match a[i]?, b[j]? with
    | some x, some y =>
      if chunkIntersects x y then intersectFrom a b (i + 1) (j + 1) refuted else (false, refuted)
    | _, _ => (false, refuted)
termination_by (a.length - i) + (b.length - j)
decreasing_by
  all_goals grind

/-- Whether `a[i..]` covers every key `b[j..]` covers, by the same descent with the same memory. -/
def includesFrom (a b : List Chunk) (i j : ℕ) (refuted : Refuted) : Bool × Refuted :=
  if a[i]? = none ∧ b[j]? = none then (true, refuted)
  else if a[i]? = some doubleStar then
    refuted.expand i j (includesFrom a b (i + 1) j) fun r =>
      if (b[j]?).any (!isVerbatimChunk ·) then includesFrom a b i (j + 1) r else (false, r)
  else if b[j]? = some doubleStar then (false, refuted)
  else match a[i]?, b[j]? with
    | some x, some y =>
      if chunkIncludes x y then includesFrom a b (i + 1) (j + 1) refuted else (false, refuted)
    | _, _ => (false, refuted)
termination_by (a.length - i) + (b.length - j)
decreasing_by
  all_goals grind

def keyexprIntersectPatterns (aChunks bChunks : List Chunk) : Bool :=
  if !Refuted.fits aChunks.length bChunks.length then false
  else (intersectFrom aChunks bChunks 0 0 (.new aChunks.length bChunks.length)).1

def keyexprIncludesPatterns (aChunks bChunks : List Chunk) : Bool :=
  if !Refuted.fits aChunks.length bChunks.length then false
  else (includesFrom aChunks bChunks 0 0 (.new aChunks.length bChunks.length)).1

def isWild (keyexpr : Bytes) : Bool := keyexpr.any (· == star)

/-- Whether a candidate and a target split into chunks have a key in common. A target with an empty
chunk has none; without a wildcard on either side the texts are compared where they lie. -/
def keyexprIntersectsTarget (candidate : Bytes) (targetChunks : List Chunk) : Bool :=
  if !targetChunksWellFormed targetChunks then false
  else if !targetChunks.isEmpty && !isWild candidate && !targetChunks.any isWild then
    Text.join targetChunks == candidate
  else keyexprIntersectPatterns (Text.chunks candidate) targetChunks

end WatchingZenoh.KeyexprMatch
