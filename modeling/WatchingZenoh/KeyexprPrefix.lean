import WatchingZenoh.Text

/-! `keyexpr_prefix` and the storage adapter over it: a prefix without wildcards is stripped from a
key expression that may have some. A panic of the source (an index out of range, a subtraction
below zero) is a value of its own, so that its absence is a statement. -/

namespace WatchingZenoh.KeyexprPrefix

inductive StripPanic where
  | underflow
  | outOfBounds
  deriving DecidableEq, Repr

inductive NonWildError where
  | empty
  | wild
  deriving DecidableEq, Repr

structure NonWildKeyExpr where
  text : Bytes
  nonempty : text ≠ []
  nonwild : star ∉ text
  deriving DecidableEq

def NonWildKeyExpr.new (s : Bytes) : Except NonWildError NonWildKeyExpr :=
  if hempty : s = [] then .error .empty
  else if hwild : star ∈ s then .error .wild
  else .ok ⟨s, hempty, hwild⟩

/-- The offsets `is_chunk_matching` tries behind a `$*`: the loop stops one byte before the end of
the prefix chunk. -/
def anchors : Bytes → List Bytes
  | a :: b :: rest => (a :: b :: rest) :: anchors (b :: rest)
  | _ => []

/-- A verbatim prefix chunk is matched only by a verbatim target chunk. -/
def verbatimRefuses (target pre : Chunk) : Bool :=
  pre.head? == some atSign && target.head? != some atSign

/-- The byte walk of `is_chunk_matching` over what is left of both chunks; `tprev` is the target
byte just read. Behind a `$*` the whole test starts again at every offset. -/
def matchBytes : Bytes → Bytes → UInt8 → Bool
  | b :: target, c :: pre, tprev =>
    if b = star then
      if tprev = star ∨ target = [] then true
      else if tprev = dollar then
        ((anchors (c :: pre)).any fun rest =>
          !verbatimRefuses target rest && matchBytes target rest slash) ||
          matchBytes target (c :: pre) b
      else matchBytes target (c :: pre) b
    else if b = c then matchBytes target pre b
    else if b ≠ dollar then false
    else matchBytes target (c :: pre) b
  | target, pre, _ =>
    if pre ≠ [] then false
    else target.isEmpty || (target.length == 2 && target.head? == some dollar)

def isChunkMatching (target pre : Chunk) : Bool :=
  !verbatimRefuses target pre && matchBytes target pre slash

/-- `position` of the next `/`, or the end of the text. -/
def chunkEnd (text : Bytes) (i : ℕ) : ℕ := i + (text.drop i).findIdx (· == slash)

/-- `while p > 0 && remaining[p - 1] != b'/'`. -/
def walkBack (remaining : Bytes) : ℕ → Except StripPanic ℕ
  | 0 => .ok 0
  | p + 1 =>
    match remaining[p]? with
    | none => .error .outOfBounds
    | some b => if b = slash then .ok (p + 1) else walkBack remaining p

theorem walkBack_le {remaining : Bytes} {p q : ℕ} (h : walkBack remaining p = .ok q) : q ≤ p := by
  induction p with
  | zero =>
    obtain rfl : 0 = q := by simpa [walkBack] using h
    exact le_rfl
  | succ p ih =>
    rw [walkBack] at h
    split at h
    · simp at h
    · split at h
      · obtain rfl : p + 1 = q := by simpa using h
        exact le_rfl
      · exact (ih h).trans (Nat.le_succ p)

/-- The loop of the `**` arm: strip what follows the `**` from the prefix at `p`, else walk `p` back
by a chunk. -/
def backOff (strip : Bytes → Except StripPanic (Option Bytes)) (remaining : Bytes) (p : ℕ) :
    Except StripPanic (Option Bytes) :=
  if p ≤ remaining.length then
    match strip (remaining.drop p) with
    | .error e => .error e
    | .ok (some tail) => .ok (some tail)
    | .ok none =>
      if p = 0 then .ok none
      else if p < 2 then .error .underflow
      else match h : walkBack remaining (p - 2) with
        | .error e => .error e
        | .ok q => backOff strip remaining q
  else .error .outOfBounds
termination_by p
decreasing_by
  have := walkBack_le h
  omega

/-- The chunk walk of `strip_inner`, with its two cursors. -/
def stripInner (target pre : Bytes) (ti pi : ℕ) : Except StripPanic (Option Bytes) :=
  if ti < target.length ∧ pi < pre.length then
    let te := chunkEnd target ti
    let pe := chunkEnd pre pi
    let tchunk := (target.drop ti).take (te - ti)
    if tchunk.length = 2 ∧ tchunk.head? = some star then
      match (pre.drop pi).findIdx? (· == atSign) with
      | none => .ok (some (target.drop ti))
      | some p =>
        if te + 1 ≥ target.length then .ok none
        else backOff (fun rest => stripInner (target.drop (te + 1)) rest 0 0) (pre.drop pi) p
    else if te = target.length then .ok none
    else if !isChunkMatching tchunk ((pre.drop pi).take (pe - pi)) then .ok none
    else if pe = pre.length then .ok (some (target.drop (te + 1)))
    else stripInner target pre (te + 1) (pe + 1)
  else .ok none
termination_by target.length - ti
decreasing_by
  · simp only [List.length_drop, chunkEnd]
    omega
  · simp only [chunkEnd]
    omega

/-- The tail is cut at a `/`, so it is UTF-8 whenever the target is. -/
def stripNonwildPrefix (target : Bytes) (pre : NonWildKeyExpr) : Except StripPanic (Option Bytes) :=
  stripInner target pre.text 0 0

/-- `OwnedNonWildKeyExpr::prepend`. -/
def prepend (ns : NonWildKeyExpr) (suffix : Bytes) : Bytes :=
  if suffix.isEmpty then ns.text else ns.text ++ slash :: suffix

inductive StripError where
  | wildPrefix
  | notPrefixed
  deriving DecidableEq, Repr

/-- The storage side of stripping; `Ok(None)` is the value at the mount point itself. -/
def stripPrefix (pre : Option Bytes) (key : Bytes) :
    Except StripPanic (Except StripError (Option Bytes)) :=
  match pre with
  | none => .ok (.ok (some key))
  | some pre =>
    match NonWildKeyExpr.new pre with
    | .error .wild => .ok (.error .wildPrefix)
    | .error .empty => .ok (.error .notPrefixed)
    | .ok nonwild =>
      if key = pre then .ok (.ok none)
      else match stripNonwildPrefix key nonwild with
        | .error e => .error e
        | .ok (some rest) =>
          if rest.isEmpty then .ok (.error .notPrefixed) else .ok (.ok (some rest))
        | .ok none => .ok (.error .notPrefixed)

def restorePrefix (pre stripped : Option Bytes) : Option Bytes :=
  match pre, stripped with
  | some p, some s => some (p ++ slash :: s)
  | some p, none => some p
  | none, some k => some k
  | none, none => none

end WatchingZenoh.KeyexprPrefix
