import Mathlib
import WatchingZenoh.NetworkIngest
import WatchingZenoh.Library.Predecessors

/-! The spanning trees: for every root, what this node's parent, children and first hops are in the
root's tree, and what is read off them. -/

namespace WatchingZenoh.NetworkGraph

open StableGraph StableUnGraph

namespace LinkstateNetwork

variable {G ω : Type} [StableUnGraph G Node ω]

section Routes

variable (net : LinkstateNetwork G)

def selfZid : Option Zid := (nodeWeight net.graph net.idx).map Node.zid

def treeChildrenOf (source : Zid) : List Zid :=
  match net.getIdx source with
  | none => []
  | some root =>
    match net.trees[root]? with
    | some tree => tree.children.filterMap fun child => (nodeWeight net.graph child).map Node.zid
    | none => []

/-- The first hop toward `dest` in the tree of `source`, in linkstate mode. -/
def nextHopInTree (source dest : Zid) : Option Zid := do
  let root ← net.getIdx source
  let destIdx ← net.getIdx dest
  let tree ← net.trees[root]?
  let hop ← (tree.directions[destIdx]?).join
  let node ← nodeWeight net.graph hop
  some node.zid

def nextHop (source dest : Zid) : Option (Option Zid) :=
  if !net.fullLinkstate then do
    let selfZid ← net.selfZid
    some (if source = selfZid && net.isDirectNeighbour dest then some dest else none)
  else some (net.nextHopInTree source dest)

/-- The ids of the children of a root that are not among its old ones. -/
def gained (oldChildren : List (List ℕ)) (root : ℕ) : Option (List Zid) := do
  let tree ← net.trees[root]?
  (tree.children.filter fun child => oldChildren[root]?.all fun old => child ∉ old).mapM
    fun child => (nodeWeight net.graph child).map Node.zid

/-- A root that has gained children, after those before it. -/
def noteGained (oldChildren : List (List ℕ)) (newChildren : List (Zid × List Zid)) (root : ℕ) :
    Option (List (Zid × List Zid)) := do
  let delta ← net.gained oldChildren root
  if delta.isEmpty then some newChildren
  else
    let node ← nodeWeight net.graph root
    some (newChildren ++ [(node.zid, delta)])

end Routes

variable [GraphSearch G] (net : LinkstateNetwork G)

/-- The first hop to one destination: the node below self on the way back to the root, or else self's
own parent. -/
def aim (predecessors : ℕ → Option ℕ) (directions : List (Option ℕ)) (destination : ℕ) :
    Option (List (Option ℕ)) :=
  if net.idx = destination || !hasPathConnecting net.graph net.idx destination then some directions
  else do
    let direction ←
      climb predecessors net.idx ((nodeIndices net.graph).length + 1) destination
    some (directions.set destination (direction.or (predecessors net.idx)))

def treeFrom (maxIdx root : ℕ) : Option Tree := do
  let indexes := nodeIndices net.graph
  let predecessors ← bellmanFord net.graph root
  let directions ← indexes.foldlM (net.aim predecessors) (List.replicate (maxIdx + 1) none)
  some
    { parent := predecessors net.idx
      children := indexes.filter fun i => predecessors i = some net.idx
      directions }

def computeTrees : Option (LinkstateNetwork G × List (Zid × List Zid)) :=
  let indexes := nodeIndices net.graph
  match indexes.max? with
  | none => some (net, [])
  | some maxIdx => do
    let oldChildren := net.trees.map Tree.children
    let trees ← indexes.foldlM (fun trees root => do
      let tree ← net.treeFrom maxIdx root
      some (trees.set root tree)) (List.replicate (maxIdx + 1) {})
    let net := { net with trees }
    let newChildren ← indexes.foldlM (net.noteGained oldChildren) []
    some (net, newChildren)

variable {net}

theorem computeTrees_frame {net' : LinkstateNetwork G} {newChildren : List (Zid × List Zid)}
    (h : net.computeTrees = some (net', newChildren)) : net' = { net with trees := net'.trees } := by
  dsimp only [computeTrees] at h
  split at h
  · cases h
    rfl
  · simp only [Option.bind_eq_bind, Option.bind_eq_some_iff] at h
    obtain ⟨trees, -, delta, -, h⟩ := h
    cases h
    rfl

end LinkstateNetwork

end WatchingZenoh.NetworkGraph
