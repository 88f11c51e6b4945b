import WatchingZenoh.Library.KeyedRows

/-! The return table of routed queries. A query that fans out to several faces has one entry for each
branch, all of them sharing the query's fan, and the fan counts its holders: the call that routes the
query, until it lets go, and each branch until it ends. Whoever takes the count to zero owes the
querier the final. The table is under a lock; the counts are atomic, and a routing call lets go of its
fan without the lock. -/

namespace WatchingZenoh.PendingQueries

open KeyedRows

/-- Where anything owed to the querier goes back, and as what. -/
structure QueryReturn (Face Qos : Type) where
  face : Face
  rid : ℕ
  qos : Qos
  deriving DecidableEq

/-- A query's shared return target, with its live holders. -/
structure QueryFan (Face Qos : Type) where
  live : ℕ
  inbound : Face
  inboundRid : ℕ
  srcQos : Qos

/-- An entry of the table: the fan it shares, by the number of its query. -/
structure PendingReturn where
  fan : ℕ
  deadline : ℕ
  deriving DecidableEq

/-- A face without a slot hands out its ids from the start, as one with a slot of its own does. -/
structure PendingQueries (Face : Type) where
  nextQid : Face → ℕ
  returns : List ((Face × ℕ) × PendingReturn)

/-- What a call that holds the lock still has to do: enter a branch it has counted, or end branches it
has taken out of the table and then take out others. -/
inductive Section (Face Qos : Type)
  | allocate (face : Face) (fan : ℕ) (deadline : ℕ)
  | close (branches : List (ℕ × QueryReturn Face Qos)) (victims : List (Face × ℕ))

/-- The fans and the table. The last three fields are history: which routing calls have let go, which
ids each face has handed out since its slot was made, and for what, and who was told to be the last. -/
structure Mesh (Face Qos : Type) where
  fans : ℕ → Option (QueryFan Face Qos)
  made : ℕ
  table : PendingQueries Face
  busy : Option (Section Face Qos)
  released : ℕ → Bool
  handed : Face → List (ℕ × ℕ)
  reports : List (ℕ × QueryReturn Face Qos)

/-- A step of some task. The order a hash table is gone through in is the caller's. -/
inductive Act (Face Qos : Type)
  | newFan (inbound : Face) (inboundRid : ℕ) (srcQos : Qos)
  | allocate (face : Face) (fan : ℕ) (deadline : ℕ)
  | release (fan : ℕ)
  | take (face : Face) (qid : ℕ)
  | expired (now : ℕ) (order : List (Face × ℕ))
  | removeFace (face : Face) (order : List ((Face × ℕ) × PendingReturn))
  /-- The call that holds the lock goes on. -/
  | proceed

variable {Face Qos : Type} [DecidableEq Face]

def QueryFan.queryReturn (f : QueryFan Face Qos) : QueryReturn Face Qos :=
  ⟨f.inbound, f.inboundRid, f.srcQos⟩

namespace PendingQueries

variable (table : PendingQueries Face)

def lookup (face : Face) (qid : ℕ) : Option PendingReturn := row table.returns (face, qid)

def remove (key : Face × ℕ) : PendingQueries Face :=
  { table with returns := table.returns.filter (·.1 ≠ key) }

/-- The next id of a face, which goes around after the last. -/
def freshQid (face : Face) : ℕ := (table.nextQid face + 1) % 2 ^ 64

def insert (face : Face) (ret : PendingReturn) : PendingQueries Face where
  nextQid := Function.update table.nextQid face (table.freshQid face)
  returns := ((face, table.freshQid face), ret) ::
    table.returns.filter (·.1 ≠ (face, table.freshQid face))

def overdue (now : ℕ) : List (Face × ℕ) :=
  (table.returns.filter (·.2.deadline ≤ now)).map Prod.fst

def onFace (face : Face) : List ((Face × ℕ) × PendingReturn) :=
  table.returns.filter (·.1.1 = face)

def dropFace (face : Face) : PendingQueries Face where
  nextQid := Function.update table.nextQid face 0
  returns := table.returns.filter (·.1.1 ≠ face)

end PendingQueries

namespace Mesh

variable (m : Mesh Face Qos)

def new : Mesh Face Qos :=
  ⟨fun _ => none, 0, ⟨fun _ => 0, []⟩, none, fun _ => false, fun _ => [], []⟩

def held (fan : ℕ) : Bool := (m.fans fan).isSome && !m.released fan

/-- The routing call of the fan is entering a branch. -/
def starting (fan : ℕ) : Bool :=
  match m.busy with
  | some (.allocate _ f _) => decide (f = fan)
  | _ => false

def branchStarted (fan : ℕ) : Mesh Face Qos :=
  { m with fans := fun g => if g = fan
      then (m.fans g).map fun f => { f with live := f.live + 1 } else m.fans g }

/-- A holder is done; it is told when it was the last. -/
def holderEnded (fan : ℕ) : Mesh Face Qos :=
  (m.fans fan).elim m fun f =>
    { m with
      fans := Function.update m.fans fan (some { f with live := f.live - 1 })
      reports := if f.live = 1 then m.reports ++ [(fan, f.queryReturn)] else m.reports }

/-- The branches of entries that are taken out, with where their fans lead. -/
def branches (entries : List ((Face × ℕ) × PendingReturn)) : List (ℕ × QueryReturn Face Qos) :=
  entries.filterMap fun e => (m.fans e.2.fan).map fun f => (e.2.fan, f.queryReturn)

def peek (face : Face) (qid : ℕ) : Option (QueryReturn Face Qos) := do
  let ret ← m.table.lookup face qid
  let fan ← m.fans ret.fan
  some fan.queryReturn

/-- An entry is taken out, and its branch is to be ended. -/
def takeOut (key : Face × ℕ) (victims : List (Face × ℕ)) : Mesh Face Qos :=
  (m.table.lookup key.1 key.2).elim { m with busy := some (.close [] victims) } fun ret =>
    { m with
      table := m.table.remove key
      busy := some (.close (m.branches [(key, ret)]) victims) }

def proceed : Option (Mesh Face Qos) :=
  match m.busy with
  | none => none
  | some (.allocate face fan deadline) =>
    some { m with
      table := m.table.insert face ⟨fan, deadline⟩
      busy := none
      handed := Function.update m.handed face (m.handed face ++ [(m.table.freshQid face, fan)]) }
  | some (.close (branch :: rest) victims) =>
    some { m.holderEnded branch.1 with busy := some (.close rest victims) }
  | some (.close [] (victim :: rest)) => some (m.takeOut victim rest)
  | some (.close [] []) => some { m with busy := none }

def step : Act Face Qos → Option (Mesh Face Qos)
  | .newFan inbound inboundRid srcQos =>
    some { m with
      fans := Function.update m.fans m.made (some ⟨1, inbound, inboundRid, srcQos⟩)
      made := m.made + 1 }
  | .allocate face fan deadline =>
    if m.busy.isNone ∧ m.held fan then
      some { m.branchStarted fan with busy := some (.allocate face fan deadline) }
    else none
  | .release fan =>
    if m.held fan ∧ m.starting fan = false then
      some { m.holderEnded fan with released := Function.update m.released fan true }
    else none
  | .take face qid => if m.busy.isNone then some (m.takeOut (face, qid) []) else none
  | .expired now order =>
    if m.busy.isNone ∧ order.Perm (m.table.overdue now) then
      some { m with busy := some (.close [] order) }
    else none
  | .removeFace face order =>
    if m.busy.isNone ∧ order.Perm (m.table.onFace face) then
      some { m with
        table := m.table.dropFace face
        busy := some (.close (m.branches order) [])
        handed := Function.update m.handed face [] }
    else none
  | .proceed => m.proceed

end Mesh

end WatchingZenoh.PendingQueries
