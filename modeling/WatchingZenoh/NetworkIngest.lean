import Mathlib
import WatchingZenoh.Library.Steps
import WatchingZenoh.NetworkGraph

/-! The list of link states a neighbour sends: its ids are translated by the mappings of its link, and
the states are applied to the graph one after another. In gossip mode the graph learns nodes only. -/

namespace WatchingZenoh.NetworkGraph

open StableGraph StableUnGraph
open Std (ExtTreeMap)

/-- An entry as it is read off the wire. Where there are weights, they stand in the order of the
links. -/
structure LinkstateEntry where
  psid : UInt64
  sn : UInt64
  zid : Option Bytes
  whatami : Option UInt8
  g : Bool
  links : List UInt64
  weights : Option (List UInt64)
  locators : Option (List Bytes)

structure ResolvedEntry where
  zid : Zid
  whatami : WhatAmI
  sn : UInt64
  links : List UInt64
  weights : Option (List UInt64)
  locators : Option (List Bytes)
  isGateway : Bool

def locatorsFromWire (locators : Option (List Bytes)) : Option (List Bytes) :=
  locators.filter fun strings => !strings.isEmpty

def linkstateWeightFromWire (raw : UInt64) : UInt16 := raw.toUInt16

/-- An entry's own id, given or known from before, and its role; an entry without either is left out.
The mapping of a given id stays although the role is refused. -/
def resolveEntry : ExtTreeMap UInt64 Zid × List ResolvedEntry → LinkstateEntry →
    ExtTreeMap UInt64 Zid × List ResolvedEntry
  | (mappings, resolved), entry =>
    let named : Option (ExtTreeMap UInt64 Zid × Zid) :=
      match entry.zid with
      | some bytes =>
        match Zid.tryFrom bytes with
        | .ok zid => some (mappings.insert entry.psid zid, zid)
        | .error _ => none
      | none => mappings[entry.psid]?.map fun zid => (mappings, zid)
    match named with
    | none => (mappings, resolved)
    | some (mappings, zid) =>
      let role :=
        match entry.whatami with
        | none => some WhatAmI.router
        | some w => WhatAmI.tryFrom w
      match role with
      | none => (mappings, resolved)
      | some whatami =>
        (mappings, resolved ++
          [{ zid
             whatami
             sn := entry.sn
             links := entry.links
             weights := entry.weights
             locators := locatorsFromWire entry.locators
             isGateway := entry.g }])

/-- The links of an entry with their weights; one whose id is not known is left out, and of two to the
same node the later holds. -/
def resolveLinks (mappings : ExtTreeMap UInt64 Zid) (entry : ResolvedEntry) : Links :=
  entry.links.zipIdx.foldl (fun links (psid, i) =>
    match mappings[psid]? with
    | some dst =>
      let weight := ((entry.weights.bind (·[i]?)).map fun w =>
        LinkEdgeWeight.fromRaw (linkstateWeightFromWire w)).getD {}
      links.insert dst weight
    | none => links) ∅

namespace LinkstateNetwork

variable {G ω : Type} [StableUnGraph G Node ω] [EdgeArith ω] [HashOrder]

def convertToLocalLinkStates (net : LinkstateNetwork G) (srcLinkId : ℕ)
    (list : List LinkstateEntry) : LinkstateNetwork G × List LocalLinkState :=
  match net.links[srcLinkId]? with
  | none => (net, [])
  | some link =>
    let (mappings, resolved) := list.foldl resolveEntry (link.mappings, [])
    ({ net with links := net.links.insert srcLinkId { link with mappings } },
      resolved.map fun entry =>
        { sn := entry.sn
          zid := entry.zid
          whatami := entry.whatami
          links := resolveLinks mappings entry
          locators := entry.locators
          isGateway := entry.isGateway })

omit [StableUnGraph G Node ω] [EdgeArith ω] [HashOrder] in
theorem convertToLocalLinkStates_frame (net : LinkstateNetwork G) (srcLinkId : ℕ)
    (list : List LinkstateEntry) :
    (net.convertToLocalLinkStates srcLinkId list).1 =
      { net with links := (net.convertToLocalLinkStates srcLinkId list).1.links } := by
  unfold convertToLocalLinkStates
  split <;> rfl

/-- A newer state of a node that is known: locators it does not carry stay. -/
def restate (ls : LocalLinkState) (node : Node) : Node :=
  { node with
    sn := ls.sn
    links := ls.links
    isGateway := ls.isGateway
    whatami := some ls.whatami
    locators := ls.locators.or node.locators }

def nodeOf (ls : LocalLinkState) : Node :=
  { zid := ls.zid
    whatami := some ls.whatami
    locators := ls.locators
    sn := ls.sn
    links := ls.links
    isGateway := ls.isGateway }

def pushIfAbsent (zids : List Zid) (zid : Zid) : List Zid :=
  if zid ∈ zids then zids else zids ++ [zid]

/-- The ids a state has introduced, and the id of its own node, among what is new; a node that was
known before is among what is updated. -/
def note (changes : Changes) (introduced : List Zid) (isNew : Bool) (zid : Zid) : Changes :=
  let changes := { changes with new := introduced.foldl pushIfAbsent changes.new }
  if isNew then { changes with new := pushIfAbsent changes.new zid }
  else { changes with updated := changes.updated ++ [zid] }

/-- The node a state is about, in the graph, and whether it is new; a state that is not newer than the
node's own is passed over. -/
def admitState (net : LinkstateNetwork G) (ls : LocalLinkState) :
    Option (Option (LinkstateNetwork G × ℕ × Bool)) :=
  match net.getIdx ls.zid with
  | none =>
    let (net, i) := net.insertNode (nodeOf ls)
    some (some (net, i, true))
  | some i => do
    let node ← nodeWeight net.graph i
    if ls.sn ≤ node.sn then some none
    else some (some (net.modify i (restate ls), i, node.sn = 0))

def applyLinkState : LinkstateNetwork G × Changes → LocalLinkState →
    Option (LinkstateNetwork G × Changes)
  | (net, changes), ls => do
    match ← net.admitState ls with
    | none => some (net, changes)
    | some (net, i, isNew) =>
      let (net, introduced) ← net.rebuildEdges i
      let node ← nodeWeight net.graph i
      some (net, note changes introduced isNew node.zid)

/-- What a known node takes of a state in gossip mode. -/
def overhear (ls : LocalLinkState) (takesLinks : Bool) (node : Node) : Node :=
  { node with
    sn := ls.sn
    links := if takesLinks then ls.links else node.links
    whatami := node.whatami.or (some ls.whatami)
    locators := ls.locators.or node.locators }

def gossipLinkState : LinkstateNetwork G × Changes → LocalLinkState →
    Option (LinkstateNetwork G × Changes)
  | (net, changes), ls =>
    match net.getIdx ls.zid with
    | none =>
      let linksSn := if ls.links.isEmpty then net.linksSn else net.linksSn.insert ls.zid ls.sn
      some (({ net with linksSn }.insertNode (nodeOf ls)).1,
        { changes with new := changes.new ++ [ls.zid] })
    | some i => do
      let linksAt := net.linksSn[ls.zid]?.getD 0
      let node ← nodeWeight net.graph i
      let completesHearsay := node.sn = ls.sn ∧ !ls.links.isEmpty ∧ linksAt < ls.sn
      if ls.sn < node.sn ∨ (node.sn = ls.sn ∧ ¬completesHearsay) then some (net, changes)
      else
        let takesLinks := !ls.links.isEmpty || net.object = .gossip
        let net :=
          { net.modify i (overhear ls takesLinks) with
            linksSn := if takesLinks then net.linksSn.insert ls.zid ls.sn else net.linksSn }
        if node.sn = 0 then some (net, { changes with new := changes.new ++ [ls.zid] })
        else some (net, { changes with updated := changes.updated ++ [ls.zid] })

def processLinkstatesPeerToPeer (net : LinkstateNetwork G) (states : List LocalLinkState) :
    Option (LinkstateNetwork G × Changes) :=
  states.foldlM gossipLinkState (net, {})

def processLinkstates (net : LinkstateNetwork G) (states : List LocalLinkState) :
    Option (LinkstateNetwork G × Changes) := do
  if !net.fullLinkstate && !net.gossipMultihop then net.processLinkstatesPeerToPeer states
  else
    let (net, changes) ← states.foldlM applyLinkState (net, {})
    let (net, removed) ← net.removeDetachedNodes
    some (net,
      { new := changes.new.filter (· ∉ removed)
        updated := changes.updated.filter (· ∉ removed)
        removed })

def ingestLinkstateList (net : LinkstateNetwork G) (srcLinkId : ℕ) (list : List LinkstateEntry) :
    Option (LinkstateNetwork G × Changes) :=
  let (net, states) := net.convertToLocalLinkStates srcLinkId list
  net.processLinkstates states

end LinkstateNetwork

inductive Call
  | addLinkBound (peerZid : Zid) (peerWhatami : WhatAmI) (remoteIsGateway : Bool)
  | updateLinkWeights (linkWeights : Links)
  | removeLink (id : ℕ)
  | ingestLinkstateList (srcLinkId : ℕ) (list : List LinkstateEntry)

inductive Answer
  | linkId (id : ℕ)
  | moved (any : Bool)
  | removed (zids : List Zid)
  | changes (changes : Changes)

variable {G ω : Type} [StableUnGraph G Node ω] [EdgeArith ω] [HashOrder]

def step (net : LinkstateNetwork G) : Call → Option (LinkstateNetwork G × Answer)
  | .addLinkBound peerZid peerWhatami remoteIsGateway =>
    (net.addLinkBound peerZid peerWhatami remoteIsGateway).map (Prod.map id .linkId)
  | .updateLinkWeights linkWeights => (net.updateLinkWeights linkWeights).map (Prod.map id .moved)
  | .removeLink link => (net.removeLink link).map (Prod.map id .removed)
  | .ingestLinkstateList srcLinkId list =>
    (net.ingestLinkstateList srcLinkId list).map (Prod.map id .changes)

end WatchingZenoh.NetworkGraph
