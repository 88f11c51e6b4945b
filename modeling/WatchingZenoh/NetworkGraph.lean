import Mathlib
import WatchingZenoh.Library.DepthFirst
import WatchingZenoh.Library.StableGraph
import WatchingZenoh.Timestamp

/-! The topology a node keeps from the link states it is told: the nodes with what each advertises,
and an edge where two of them advertise each other. A function that would index a node that is not
there returns `none`, which stands for its panic. -/

namespace WatchingZenoh.NetworkGraph

open StableGraph StableUnGraph
open Std (ExtTreeMap)

/-- An id is its sixteen bytes: the shorter ones are padded with zeros. -/
structure Zid where
  bytes : Bytes
  length_bytes : bytes.length = 16
  deriving DecidableEq

instance : Ord Zid := ⟨compareOn Zid.bytes⟩

instance : Std.TransOrd Zid := inferInstanceAs (Std.TransCmp (compareOn Zid.bytes))

instance : Std.LawfulEqOrd Zid where
  eq_of_compare {a b} h := by
    have hbytes : a.bytes = b.bytes := Std.LawfulEqOrd.eq_of_compare h
    cases a
    cases b
    simpa using hbytes

inductive ZidError
  | empty
  | oversized (length : ℕ)

def Zid.fromSlice (src : Bytes) : Zid := ⟨_, Timestamp.length_zidToLeArray src⟩

def Zid.tryFrom (src : Bytes) : Except ZidError Zid :=
  if 16 < src.length then .error (.oversized src.length)
  else if src.all (· = 0) then .error .empty
  else .ok (.fromSlice src)

inductive WhatAmI
  | router
  | peer
  | client
  deriving DecidableEq

def WhatAmI.tryFrom (v : UInt8) : Option WhatAmI :=
  if v = 1 then some .router else if v = 2 then some .peer else if v = 4 then some .client else none

/-- An explicit weight, which is never zero, or none. -/
structure LinkEdgeWeight where
  explicit : Option { w : UInt16 // w ≠ 0 } := none
  deriving DecidableEq

namespace LinkEdgeWeight

def default : UInt16 := 100

def fromRaw (value : UInt16) : LinkEdgeWeight :=
  if h : value ≠ 0 then ⟨some ⟨value, h⟩⟩ else ⟨none⟩

def value (w : LinkEdgeWeight) : UInt16 := (w.explicit.map Subtype.val).getD default

def isSet (w : LinkEdgeWeight) : Bool := w.explicit.isSome

end LinkEdgeWeight

abbrev Links := ExtTreeMap Zid LinkEdgeWeight

structure Node where
  zid : Zid
  whatami : Option WhatAmI
  locators : Option (List Bytes)
  sn : UInt64
  links : Links
  isGateway : Bool

/-- The translation of the ids a peer uses on a link. -/
structure Link where
  zid : Zid
  remoteIsGateway : Bool
  mappings : ExtTreeMap UInt64 Zid := ∅

structure LocalLinkState where
  sn : UInt64
  zid : Zid
  whatami : WhatAmI
  links : Links
  locators : Option (List Bytes)
  isGateway : Bool

structure Changes where
  new : List Zid := []
  updated : List Zid := []
  removed : List Zid := []

/-- What this node knows of the tree of one root: its own parent and children in it, and the first hop
toward each index. -/
structure Tree where
  parent : Option ℕ := none
  children : List ℕ := []
  directions : List (Option ℕ) := []

inductive NetObject
  | network
  | gossip
  deriving DecidableEq

structure LinkstateNetwork (G : Type) where
  idx : ℕ
  graph : G
  idxByZid : ExtTreeMap Zid ℕ
  links : ExtTreeMap ℕ Link := ∅
  nextLinkId : ℕ := 0
  linksSn : ExtTreeMap Zid UInt64 := ∅
  trees : List Tree := [{ directions := [none] }]
  gossipMultihop : Bool := false
  fullLinkstate : Bool := true
  linkWeights : Links := ∅
  object : NetObject := .network

/-- A tree without the freed indices, wherever they stand in it. -/
def Tree.scrub (freed : List ℕ) (tree : Tree) : Tree where
  parent := tree.parent.filter (· ∉ freed)
  children := tree.children.filter (· ∉ freed)
  directions := tree.directions.mapIdx fun slot dir =>
    if slot ∈ freed then none else dir.filter (· ∉ freed)

/-- The order in which the keys of a hash map come. -/
class HashOrder where
  keys : Links → List Zid
  keys_perm : ∀ links : Links, (keys links).Perm links.keys

export HashOrder (keys)

/-- The weight of an edge: the hash of two ids, one written after the other, and the product of the
advertised weight with the jitter that the low half of that hash gives. -/
class EdgeArith (ω : Type) where
  finish : Bytes → Bytes → UInt64
  jittered : UInt16 → UInt32 → ω

variable {G ω : Type} [StableUnGraph G Node ω] [EdgeArith ω] [HashOrder]

/-- What an edge weighs by the two advertisements: the larger of the explicit weights. -/
def edgeWeightOf (one two : Node) : ω :=
  let hash :=
    if compare one.zid two.zid = .gt then EdgeArith.finish ω two.zid.bytes one.zid.bytes
    else EdgeArith.finish ω one.zid.bytes two.zid.bytes
  let w1 := (one.links[two.zid]?.filter LinkEdgeWeight.isSet).map LinkEdgeWeight.value
  let w2 := (two.links[one.zid]?.filter LinkEdgeWeight.isSet).map LinkEdgeWeight.value
  let w :=
    match w1, w2 with
    | none, none => LinkEdgeWeight.default
    | none, some b => b
    | some a, none => a
    | some a, some b => max a b
  EdgeArith.jittered w hash.toUInt32

namespace LinkstateNetwork

def newInRegion (selfZid : Zid) (selfWhatami : WhatAmI) (isGateway : Bool) : LinkstateNetwork G :=
  let (graph, idx) := addNode (default : G)
    { zid := selfZid, whatami := some selfWhatami, locators := none, sn := 1, links := ∅, isGateway }
  { idx, graph, idxByZid := (∅ : ExtTreeMap Zid ℕ).insert selfZid idx }

def new (selfZid : Zid) (selfWhatami : WhatAmI) : LinkstateNetwork G :=
  { newInRegion selfZid selfWhatami false with object := .gossip }

variable (net : LinkstateNetwork G)

def isSingleHopNetwork : Bool :=
  net.object = .network && !net.fullLinkstate && !net.gossipMultihop

def isSingleHopGossip : Bool :=
  net.object = .gossip && !net.fullLinkstate && !net.gossipMultihop

def getIdx (zid : Zid) : Option ℕ := net.idxByZid[zid]?

def insertNode (node : Node) : LinkstateNetwork G × ℕ :=
  let (graph, idx) := addNode net.graph node
  ({ net with graph, idxByZid := net.idxByZid.insert node.zid idx }, idx)

def placeholder (zid : Zid) : Node :=
  { zid, whatami := none, locators := none, sn := 0, links := ∅, isGateway := false }

def ensureNode (zid : Zid) : LinkstateNetwork G × ℕ :=
  match net.getIdx zid with
  | some i => (net, i)
  | none => net.insertNode (placeholder zid)

def modify (i : ℕ) (f : Node → Node) : LinkstateNetwork G :=
  { net with graph := modifyNode net.graph i f }

def updateEdge (idx1 idx2 : ℕ) : Option (LinkstateNetwork G) := do
  let one ← nodeWeight net.graph idx1
  let two ← nodeWeight net.graph idx2
  some { net with graph := StableUnGraph.updateEdge net.graph idx1 idx2 (edgeWeightOf one two) }

/-- One destination of the node at `idx1`, and the ids introduced so far. -/
def rebuildDest (idx1 : ℕ) (zid1 : Zid) :
    LinkstateNetwork G × List Zid → Zid → Option (LinkstateNetwork G × List Zid)
  | (net, introduced), dest =>
    match net.getIdx dest with
    | some idx2 =>
      if idx2 ≠ idx1 then do
        let two ← nodeWeight net.graph idx2
        if zid1 ∈ two.links then
          let net ← net.updateEdge idx1 idx2
          some (net, introduced)
        else some (net, introduced)
      else some (net, introduced)
    | none => some ((net.ensureNode dest).1, introduced ++ [dest])

/-- The neighbours at `idx1` whose ids are none of those given. -/
def stale (idx1 : ℕ) (linkZids : List Zid) : List ℕ :=
  (neighbors net.graph idx1).filter fun neighbour =>
    (nodeWeight net.graph neighbour).any fun node => node.zid ∉ linkZids

def removeEdges (idx1 : ℕ) (stale : List ℕ) : LinkstateNetwork G :=
  { net with graph := stale.foldl (fun g neighbour => removeEdge g idx1 neighbour) net.graph }

def rebuildEdges (idx1 : ℕ) : Option (LinkstateNetwork G × List Zid) := do
  let one ← nodeWeight net.graph idx1
  let linkZids := keys one.links
  let (net, introduced) ← linkZids.foldlM (rebuildDest idx1 one.zid) (net, [])
  some (net.removeEdges idx1 (net.stale idx1 linkZids), introduced)

/-- Self's own state changes, and its edges are rebuilt. -/
def restateSelf (f : Node → Node) : Option (LinkstateNetwork G × List Zid) := do
  let _ ← nodeWeight net.graph net.idx
  (net.modify net.idx f).rebuildEdges net.idx

/-- The node of a new neighbour, unless it is there. -/
def introducePeer (peerZid : Zid) (peerWhatami : WhatAmI) (remoteIsGateway : Bool) :
    LinkstateNetwork G :=
  if (net.getIdx peerZid).isNone then
    (net.insertNode
      { zid := peerZid
        whatami := some peerWhatami
        locators := none
        sn := 0
        links := ∅
        isGateway := net.isSingleHopGossip && remoteIsGateway }).1
  else net

def addLinkBound (peerZid : Zid) (peerWhatami : WhatAmI) (remoteIsGateway : Bool) :
    Option (LinkstateNetwork G × ℕ) := do
  let id := net.nextLinkId
  let net :=
    { net with
      nextLinkId := id + 1
      links := net.links.insert id { zid := peerZid, remoteIsGateway } }
  if net.isSingleHopNetwork then some (net, id)
  else
    let net := net.introducePeer peerZid peerWhatami remoteIsGateway
    let weight := net.linkWeights[peerZid]?.getD {}
    let (net, _) ← net.restateSelf fun node =>
      { node with links := node.links.insert peerZid weight, sn := node.sn + 1 }
    some (net, id)

/-- The weights of a node's links after the configured ones have changed from `old` to `new`. -/
def reweigh (old new links : Links) : Links :=
  links.map fun dst weight => if old[dst]? = new[dst]? then weight else new[dst]?.getD {}

/-- The edge to a neighbour whose weight has changed. -/
def refreshEdge (selfZid : Zid) (net : LinkstateNetwork G) (dest : Zid) :
    Option (LinkstateNetwork G) :=
  match net.getIdx dest with
  | some destIdx => do
    let node ← nodeWeight net.graph destIdx
    if selfZid ∈ node.links then net.updateEdge net.idx destIdx else some net
  | none => some net

/-- A node's links whose configured weights change. -/
def touched (linkWeights : Links) (node : Node) : List Zid :=
  (keys node.links).filter fun dst => net.linkWeights[dst]? ≠ linkWeights[dst]?

def reweighed (linkWeights : Links) (node : Node) : Node :=
  { node with links := reweigh net.linkWeights linkWeights node.links }

def updateLinkWeights (linkWeights : Links) : Option (LinkstateNetwork G × Bool) := do
  let self ← nodeWeight net.graph net.idx
  let destsToUpdate := net.touched linkWeights self
  let net := { net.modify net.idx (net.reweighed linkWeights) with linkWeights }
  if destsToUpdate.isEmpty || !(net.fullLinkstate || net.gossipMultihop) then some (net, false)
  else
    let net ← destsToUpdate.foldlM (refreshEdge self.zid) net
    some (net.modify net.idx fun node => { node with sn := node.sn + 1 }, true)

/-- The indices of the nodes that a node advertises. -/
def advertised (i : ℕ) : List ℕ :=
  match nodeWeight net.graph i with
  | some node => (keys node.links).filterMap net.getIdx
  | none => []

/-- A node that was not visited goes, from the graph and from the index; its id and its index are
noted. -/
def dropUnvisited (visited : Finset ℕ) :
    LinkstateNetwork G × List Zid × List ℕ → ℕ → LinkstateNetwork G × List Zid × List ℕ
  | (net, removed, removedIdxs), i =>
    if i ∈ visited then (net, removed, removedIdxs)
    else
      match nodeWeight net.graph i with
      | some node =>
        ({ net with graph := removeNode net.graph i, idxByZid := net.idxByZid.erase node.zid },
          removed ++ [node.zid], removedIdxs ++ [i])
      | none => (net, removed, removedIdxs)

def scrubTrees (freed : List ℕ) : LinkstateNetwork G :=
  { net with
    trees := net.trees.mapIdx fun root tree => (if root ∈ freed then {} else tree).scrub freed }

def removeDetachedNodes : Option (LinkstateNetwork G × List Zid) := do
  let live := (nodeIndices net.graph).toFinset
  let visited ← DepthFirst.walk live net.advertised live.card [net.idx] ∅
  let (net, removed, removedIdxs) :=
    (nodeIndices net.graph).foldl (dropUnvisited visited) (net, [], [])
  some (if removedIdxs.isEmpty then net else net.scrubTrees removedIdxs, removed)

def isDirectNeighbour (zid : Zid) : Bool := net.links.values.any fun link => link.zid = zid

def removeLink (id : ℕ) : Option (LinkstateNetwork G × List Zid) :=
  match net.links[id]? with
  | none => some (net, [])
  | some link => do
    let net := { net with links := net.links.erase id }
    if net.isSingleHopNetwork then
      if net.isDirectNeighbour link.zid then some (net, [])
      else
        match net.getIdx link.zid with
        | some i =>
          match nodeWeight net.graph i with
          | some _ =>
            let net :=
              { net with
                graph := removeNode net.graph i
                idxByZid := net.idxByZid.erase link.zid }
            some (net.scrubTrees [i], [link.zid])
          | none => some (net, [link.zid])
        | none => some (net, [link.zid])
    else
      let (net, _) ← net.restateSelf fun node =>
        { node with links := node.links.erase link.zid, sn := node.sn + 1 }
      net.removeDetachedNodes

end LinkstateNetwork

end WatchingZenoh.NetworkGraph
