import Mathlib
import WatchingZenoh.NetworkWeights

/-! Runs of calls from a new network. Every call returns and leaves the nodes settled; the topology is
exact as long as no call gives self an edge with itself. -/

namespace WatchingZenoh.NetworkGraph

open StableGraph StableUnGraph LinkstateNetwork
open Std (ExtTreeMap)

variable {G ω : Type} [StableUnGraph G Node ω]
variable {selfZid : Zid} {net net' : LinkstateNetwork G}

inductive Fresh (selfZid : Zid) : LinkstateNetwork G → Prop
  | new (whatami : WhatAmI) : Fresh selfZid (LinkstateNetwork.new selfZid whatami)
  | newInRegion (whatami : WhatAmI) (isGateway : Bool) :
    Fresh selfZid (LinkstateNetwork.newInRegion selfZid whatami isGateway)

/-- The weight configured for self's own id stays, or self does not advertise itself. -/
def Steady (net : LinkstateNetwork G) : Call → Prop
  | .updateLinkWeights linkWeights => ∀ n, nodeWeight net.graph net.idx = some n →
    net.linkWeights[n.zid]? = linkWeights[n.zid]? ∨ n.zid ∉ n.links
  | _ => True

def selfNode (selfZid : Zid) (whatami : WhatAmI) (isGateway : Bool) : Node :=
  { zid := selfZid, whatami := some whatami, locators := none, sn := 1, links := ∅, isGateway }

theorem nodeWeight_newInRegion (whatami : WhatAmI) (isGateway : Bool) (i : ℕ) :
    let net : LinkstateNetwork G := .newInRegion selfZid whatami isGateway
    nodeWeight net.graph i =
      if net.idx = i then some (selfNode selfZid whatami isGateway) else none := by
  intro net
  change nodeWeight (addNode (StableUnGraph.default : G) _).1 i = _
  rw [nodeWeight_addNode, nodeWeight_default]
  rfl

/-- There is no node but self, which advertises nothing. -/
theorem idx_of_fresh (h : Fresh selfZid net) {i : ℕ} {n : Node}
    (hn : nodeWeight net.graph i = some n) : i = net.idx ∧ n.links = ∅ := by
  have hnode : ∃ whatami isGateway, nodeWeight net.graph i =
      if net.idx = i then some (selfNode selfZid whatami isGateway) else none := by
    cases h with
    | new whatami => exact ⟨whatami, false, nodeWeight_newInRegion whatami false i⟩
    | newInRegion whatami isGateway =>
      exact ⟨whatami, isGateway, nodeWeight_newInRegion whatami isGateway i⟩
  obtain ⟨whatami, isGateway, hnode⟩ := hnode
  rw [hnode] at hn
  split_ifs at hn with hi
  exact ⟨hi.symm, by rw [← Option.some_inj.mp hn]; rfl⟩

variable [EdgeArith ω]

theorem settled_newInRegion (selfZid : Zid) (whatami : WhatAmI) (isGateway : Bool) :
    Settled ∅ selfZid (LinkstateNetwork.newInRegion selfZid whatami isGateway : LinkstateNetwork G) ∧
      Loopless (LinkstateNetwork.newInRegion selfZid whatami isGateway : LinkstateNetwork G) := by
  have hnode := @nodeWeight_newInRegion G ω _ selfZid whatami isGateway
  set net : LinkstateNetwork G := LinkstateNetwork.newInRegion selfZid whatami isGateway
  have hedge : ∀ a b, edgeWeight net.graph a b = none := by
    intro a b
    change edgeWeight (addNode (StableUnGraph.default : G) _).1 a b = none
    rw [edgeWeight_addNode, edgeWeight_default]
  have hindex : ∀ zid, net.getIdx zid = if selfZid = zid then some net.idx else none := by
    intro zid
    change ((∅ : ExtTreeMap Zid ℕ).insert selfZid net.idx)[zid]? = _
    simp [ExtTreeMap.getElem?_insert]
  refine ⟨⟨⟨⟨fun zid i => ?_, selfNode selfZid whatami isGateway, by rw [hnode, if_pos rfl],
    rfl⟩, rfl⟩, fun i n _ hn zid hzid => ?_, fun i j hij _ _ one two hone htwo => ?_,
    fun _ _ _ _ hi => hi.elim⟩, fun i => hedge i i⟩
  · rw [hindex, hnode]
    by_cases hzid : selfZid = zid <;> by_cases hi : net.idx = i <;> simp [hzid, hi, selfNode]
  · rw [(idx_of_fresh (.newInRegion whatami isGateway) hn).2] at hzid
    simp at hzid
  · refine absurd ?_ hij
    rw [(idx_of_fresh (.newInRegion whatami isGateway) hone).1,
      (idx_of_fresh (.newInRegion whatami isGateway) htwo).1]

theorem settled_fresh (h : Fresh selfZid net) : Settled ∅ selfZid net ∧ Loopless net := by
  cases h with
  | new whatami =>
    obtain ⟨hsettled, hloop⟩ := settled_newInRegion (G := G) selfZid whatami false
    exact ⟨hsettled.frame rfl rfl rfl rfl, hloop⟩
  | newInRegion whatami isGateway => exact settled_newInRegion selfZid whatami isGateway

variable [HashOrder]

/-- Every call returns, leaves the nodes settled, and joins no node with itself unless it moves the
weight of a link of self to itself. -/
theorem exists_step (h : Settled ∅ selfZid net) (call : Call) :
    ∃ net' answer, step net call = some (net', answer) ∧ Settled ∅ selfZid net' ∧
      (Steady net call → Loopless net → Loopless net') := by
  cases call with
  | addLinkBound peerZid peerWhatami remoteIsGateway =>
    obtain ⟨net', n, heq, hsettled, -, -, hloop, -⟩ :=
      exists_addLinkBound h peerZid peerWhatami remoteIsGateway
    exact ⟨net', _, by rw [step, heq]; rfl, hsettled, fun _ => hloop⟩
  | updateLinkWeights linkWeights =>
    obtain ⟨net', moved, n, n', heq, hsettled, hn, -, -, hloop, -⟩ :=
      exists_updateLinkWeights h linkWeights
    obtain ⟨m, hm, rfl⟩ := h.root
    rw [hn] at hm
    obtain rfl := Option.some_inj.mp hm
    exact ⟨net', _, by rw [step, heq]; rfl, hsettled, fun hsteady => hloop (hsteady n hn)⟩
  | removeLink id =>
    rcases hlink : net.links[id]? with _ | link
    · exact ⟨net, _, by rw [step, removeLink, hlink]; rfl, h, fun _ hl => hl⟩
    · obtain ⟨mid, net', removed, n, heq, -, hsettled, -, -, -, hloop, -⟩ := exists_removeLink h hlink
      exact ⟨net', _, by rw [step, heq]; rfl, hsettled, fun _ => hloop⟩
  | ingestLinkstateList srcLinkId list =>
    obtain ⟨mid, net', changes, removed, -, heq, -, hloop, hsettled, hcollected⟩ :=
      exists_ingestLinkstateList h srcLinkId list (P := fun mid => Loopless net → Loopless mid)
        (by rw [convertToLocalLinkStates_frame]; exact fun hl => hl) (by
          intro net₁ net₂ ls _ _ happlied hl hnet
          cases happlied with
          | stale => exact hl hnet
          | restated _ _ _ _ _ hloop => exact hloop (hl hnet))
    exact ⟨net', _, by rw [step, heq]; rfl, hsettled, fun _ hl => hcollected.loopless (hloop hl)⟩

/-- In every run of calls that are steady where they are made, every call returns and the topology is
exact at the end. -/
theorem topology_run (h : Fresh selfZid net) (calls : List Call)
    (hsteady : Steps.Along step Steady net calls) :
    ∃ net' answers, Steps.run step net calls = some (net', answers) ∧ Topology selfZid net' := by
  obtain ⟨net', answers, hrun, hsettled, hloop⟩ := Steps.run_keeps_along
    (I := fun net => Settled ∅ selfZid net ∧ Loopless net) (fun s call hs hcall => by
      obtain ⟨s', answer, heq, hsettled, hloop⟩ := exists_step hs.1 call
      exact ⟨s', answer, heq, hsettled, hloop hcall hs.2⟩) calls (settled_fresh h) hsteady
  exact ⟨net', answers, hrun, .of_settled hsettled hloop⟩

abbrev sortedOrder : HashOrder := ⟨fun links => links.keys, fun _ => .refl _⟩

abbrev plainArith : EdgeArith ℕ := ⟨fun _ _ => 0, fun weight _ => weight.toNat⟩

abbrev zidA : Zid := .fromSlice [0xA]
abbrev zidB : Zid := .fromSlice [0xB]
abbrev zidC : Zid := .fromSlice [0xC]

/-- A peer's entry, with the local ids of its links. -/
abbrev entryOf (psid : UInt64) (zid : Zid) (sn : UInt64) (links : List UInt64) : LinkstateEntry :=
  ⟨psid, sn, some zid.bytes, some 2, false, links, none, none⟩

omit [StableUnGraph G Node ω] [EdgeArith ω] [HashOrder] in
/-- A neighbour is linked, says that it is linked with self, and gets a weight: the edge has it. -/
theorem topology_run_joined :
    letI := sortedOrder
    letI := plainArith
    let entries := [entryOf 0 zidB 1 [1], entryOf 1 zidA 0 []]
    ∃ (net : LinkstateNetwork (UnGraph Node ℕ)) (answers : List Answer),
      Steps.run step (.new zidA .peer)
        [.addLinkBound zidB .peer false, .ingestLinkstateList 0 entries,
          .updateLinkWeights ((∅ : Links).insert zidB (.fromRaw 7))] = some (net, answers) ∧
      Topology zidA net := by
  let _ := sortedOrder
  let _ := plainArith
  intro entries
  refine topology_run (Fresh.new .peer) _ ⟨trivial, fun s₁ _ h₁ => ⟨trivial, fun s₂ _ h₂ => ⟨?_, ?_⟩⟩⟩
  · intro n hn
    have hweights : ((step (.new zidA .peer : LinkstateNetwork (UnGraph Node ℕ))
        (.addLinkBound zidB .peer false)).bind fun r => step r.1 (.ingestLinkstateList 0 entries)).all
          (fun r => (nodeWeight r.1.graph r.1.idx).all fun n =>
            r.1.linkWeights[n.zid]? = (((∅ : Links).insert zidB (.fromRaw 7))[n.zid]?)) = true := by
      decide +kernel
    rw [h₁, Option.bind_some, h₂, Option.all_some, hn, Option.all_some, decide_eq_true_iff] at hweights
    exact .inl hweights
  · exact fun _ _ _ => trivial

omit [StableUnGraph G Node ω] [EdgeArith ω] [HashOrder] in
/-- An entry about self makes it advertise itself; a weight for its own id then joins it with itself. -/
theorem topology_run_loop :
    letI := sortedOrder
    letI := plainArith
    let calls : List Call := [.addLinkBound zidB .peer false,
      .ingestLinkstateList 0 [entryOf 0 zidA 5 [0]],
      .updateLinkWeights ((∅ : Links).insert zidA (.fromRaw 7))]
    ∃ (net : LinkstateNetwork (UnGraph Node ℕ)) (answers : List Answer),
      Steps.run step (.new zidA .peer) calls = some (net, answers) ∧ ¬Topology zidA net := by
  let _ := sortedOrder
  let _ := plainArith
  intro calls
  have hend : (Steps.run step (.new zidA .peer : LinkstateNetwork (UnGraph Node ℕ)) calls).any
      (fun r => edgeWeight r.1.graph 0 0 = some 7) = true := by
    decide +kernel
  obtain ⟨⟨net, answers⟩, hrun, hedge⟩ := (Option.any_eq_true _ _).mp hend
  refine ⟨net, answers, hrun, fun h => ?_⟩
  have hw : edgeWeight net.graph 0 0 = some 7 := of_decide_eq_true hedge
  obtain ⟨n, hn⟩ := node_of_edge net.graph hw
  exact ((h.edges 0 0 n n hn hn 7).mp hw).1 rfl

end WatchingZenoh.NetworkGraph
