import WatchingZenoh.Text

/-! `keyexpr_canon`: the canonizer with its two dialects, under the storage policy that enforces no
capacity, and the validator with the place of each refusal. -/

namespace WatchingZenoh.KeyexprCanon

inductive KeyexprCanonError where
  | emptyChunk
  | containsSharpOrQmark
  | dollarAfterDollarOrStar
  | starsInChunk
  | containsUnboundDollar
  | exceedsCapacity
  deriving DecidableEq, Repr

inductive ChunkShape where
  | singleStar
  | doubleStar
  | loneDollarStar
  | mixed
  deriving DecidableEq, Repr

inductive KeyexprDialect where
  | pico
  | zenohC
  deriving DecidableEq, Repr

/-- The per-byte walk of `analyze_chunk`: 0 is the plain state, 1 stands after a `$` and 3 after a
completed `$*`. -/
def analyzeBytes : ℕ → Bytes → Except KeyexprCanonError ChunkShape
  | state, [] => if state = 1 then .error .containsUnboundDollar else .ok .mixed
  | state, b :: rest =>
    if b = sharp ∨ b = question then .error .containsSharpOrQmark
    else if b = dollar then
      if state ≠ 0 then .error .dollarAfterDollarOrStar else analyzeBytes 1 rest
    else if b = star then
      if state ≠ 1 then .error .starsInChunk else analyzeBytes 3 rest
    else if state = 1 then .error .containsUnboundDollar
    else analyzeBytes 0 rest

def analyzeChunk (chunk : Chunk) : Except KeyexprCanonError ChunkShape :=
  if chunk.isEmpty then .error .emptyChunk
  else if chunk = singleStar then .ok .singleStar
  else if chunk = doubleStar then .ok .doubleStar
  else if chunk = dollarStar then .ok .loneDollarStar
  else analyzeBytes 0 chunk

/-- The inner loop of `collapse_dsl_runs`: pass over every `$*` that follows one. -/
def skipDsl : Bytes → Bytes
  | a :: b :: rest => if a = dollar ∧ b = star then skipDsl rest else a :: b :: rest
  | rest => rest

theorem skipDsl_length_le (input : Bytes) : (skipDsl input).length ≤ input.length := by
  fun_induction skipDsl input with
  | case1 a b rest _ ih => simp only [List.length_cons]; omega
  | case2 => simp
  | case3 => simp

def collapseDslRuns : Bytes → Bytes
  | a :: b :: rest =>
    if a = dollar ∧ b = star then dollar :: star :: collapseDslRuns (skipDsl rest)
    else a :: collapseDslRuns (b :: rest)
  | rest => rest
termination_by input => input.length
decreasing_by
  · have := skipDsl_length_le rest
    simp only [List.length_cons]
    omega
  · simp

/-- The pending wild run in canonical order: every `*`, then at most one `**`. -/
def flushRun (singles : ℕ) (hasDouble : Bool) : List Chunk :=
  List.replicate singles singleStar ++ if hasDouble then [doubleStar] else []

def foldsIntoRun (shape : ChunkShape) (dialect : KeyexprDialect) : Bool :=
  match shape with
  | .singleStar => true
  | .loneDollarStar => dialect == .zenohC
  | _ => false

/-- The loop of `canonize_chunks` over the chunks still to come, with the chunks written so far and
the wild run being accumulated. -/
def canonizeLoop (dialect : KeyexprDialect) :
    List Chunk → List Chunk → ℕ → Bool → Except KeyexprCanonError (List Chunk)
  | [], out, runSingleStars, runHasDoubleStar =>
    .ok (out ++ flushRun runSingleStars runHasDoubleStar)
  | chunk :: rest, out, runSingleStars, runHasDoubleStar =>
    match analyzeChunk chunk with
    | .error e => .error e
    | .ok shape =>
      if foldsIntoRun shape dialect then
        canonizeLoop dialect rest out (runSingleStars + 1) runHasDoubleStar
      else if shape = .doubleStar then
        canonizeLoop dialect rest out runSingleStars true
      else
        canonizeLoop dialect rest
          (out ++ flushRun runSingleStars runHasDoubleStar ++
            [if shape = .loneDollarStar then singleStar else chunk]) 0 false

def canonizeChunks (input : Bytes) (dialect : KeyexprDialect) : Except KeyexprCanonError Bytes :=
  match canonizeLoop dialect (Text.chunks input) [] 0 false with
  | .error e => .error e
  | .ok outChunks => .ok (Text.join outChunks)

def canonizeInTwoPasses (input : Bytes) (dialect : KeyexprDialect) :
    Except KeyexprCanonError Bytes :=
  canonizeChunks (collapseDslRuns input) dialect

def analyzeAll : List Chunk → Except KeyexprCanonError Unit
  | [] => .ok ()
  | chunk :: rest =>
    match analyzeChunk chunk with
    | .error e => .error e
    | .ok _ => analyzeAll rest

/-- A text with neither `$` nor `*` is its own canonical form once every chunk has been judged. -/
def canonizeKeyexprIn (input : Bytes) (dialect : KeyexprDialect) :
    Except KeyexprCanonError Bytes :=
  if !input.any (fun b => b == dollar || b == star) then
    match analyzeAll (Text.chunks input) with
    | .error e => .error e
    | .ok () => .ok input
  else canonizeInTwoPasses input dialect

def canonizeKeyexpr (input : Bytes) : Except KeyexprCanonError Bytes :=
  canonizeKeyexprIn input .pico

inductive KeyexprFault where
  | emptyChunk
  | starInChunk
  | singleStarAfterDoubleStar
  | doubleStarAfterDoubleStar
  | loneDollarStar
  | dollarAfterDollar
  | sharpOrQuestionMark
  | unboundDollar
  deriving DecidableEq, Repr

structure KeyexprRefusal where
  chunk : ℕ
  offset : ℕ
  fault : KeyexprFault
  deriving DecidableEq, Repr

def refuse (chunk offset : ℕ) (fault : KeyexprFault) : Except KeyexprRefusal Unit :=
  .error ⟨chunk, offset, fault⟩

/-- After the loop: the last byte was a `/`, or there are no bytes. `rest` is what the loop left
unread, so `i + rest.length` is the length of the text. -/
def validateEnd (rest : Bytes) (i chunk chunkStart : ℕ) : Except KeyexprRefusal Unit :=
  if chunkStart = i + rest.length then refuse chunk (i + rest.length) .emptyChunk else .ok ()

/-- The fault of a chunk that starts with `*` right after `**/`; `after` is what follows its `*`. -/
def faultAfterDoubleStar (after : Bytes) : KeyexprFault :=
  match after[0]?, after[1]? with
  | none, _ => .singleStarAfterDoubleStar
  | some b, next =>
    if b = slash then .singleStarAfterDoubleStar
    else if b = star ∧ (next = none ∨ next = some slash) then .doubleStarAfterDoubleStar
    else .starInChunk

/-- The byte cursor of `validate_keyexpr` at offset `i`, with `rest` the bytes from there on. -/
def validateFrom (rest : Bytes) (i chunk chunkStart : ℕ) : Except KeyexprRefusal Unit :=
  match rest with
  | [] => validateEnd [] i chunk chunkStart
  | b :: tail =>
    if b = slash then
      if i = chunkStart then refuse chunk i .emptyChunk
      else validateFrom tail (i + 1) (chunk + 1) (i + 1)
    else if b = star then
      if i ≠ chunkStart then refuse chunk i .starInChunk
      else match tail with
        | [] => validateEnd (b :: tail) i chunk chunkStart
        | c :: tail =>
          if c = slash then validateFrom tail (i + 2) (chunk + 1) (i + 2)
          else if c = star then
            match tail with
            | [] => validateEnd (b :: c :: tail) i chunk chunkStart
            | d :: tail =>
              if d = slash then
                if tail.head? = some star then
                  refuse (chunk + 1) (i + 3) (faultAfterDoubleStar (tail.drop 1))
                else validateFrom tail (i + 3) (chunk + 1) (i + 3)
              else refuse chunk i .starInChunk
          else refuse chunk i .starInChunk
    else if b = dollar then
      match tail with
      | [] => refuse chunk i .unboundDollar
      | c :: tail =>
        if c ≠ star then refuse chunk i .unboundDollar
        else if tail.head? = some dollar then refuse chunk (i + 2) .dollarAfterDollar
        else if (tail.head? = some slash ∨ tail = []) ∧ i = chunkStart then
          refuse chunk chunkStart .loneDollarStar
        else if tail = [] then validateEnd (b :: c :: tail) i chunk chunkStart
        else validateFrom tail (i + 2) chunk chunkStart
    else if b = sharp ∨ b = question then refuse chunk i .sharpOrQuestionMark
    else validateFrom tail (i + 1) chunk chunkStart

def validateKeyexpr (text : Bytes) : Except KeyexprRefusal Unit := validateFrom text 0 0 0

end WatchingZenoh.KeyexprCanon
