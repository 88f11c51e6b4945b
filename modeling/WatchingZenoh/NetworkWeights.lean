import Mathlib
import WatchingZenoh.NetworkCalls

/-! New configured weights: the links of self whose weights change take them, and so do the edges to
the neighbours that advertise self back. The loop over these has no guard against self, so a link of
self to itself gets an edge. -/

namespace WatchingZenoh.NetworkGraph

open StableGraph StableUnGraph LinkstateNetwork
open Std (ExtTreeMap)

variable {G ω : Type} [StableUnGraph G Node ω] [EdgeArith ω]
variable {selfZid : Zid} {net net' : LinkstateNetwork G}

omit [StableUnGraph G Node ω] in
theorem edgeWeightOf_congr {one one' two : Node} (hzid : one'.zid = one.zid)
    (hlinks : one'.links[two.zid]? = one.links[two.zid]?) :
    (edgeWeightOf one' two : ω) = edgeWeightOf one two := by
  simp only [edgeWeightOf, hzid, hlinks]

omit [StableUnGraph G Node ω] [EdgeArith ω] in
theorem getElem?_reweigh (old new links : Links) (zid : Zid) :
    (reweigh old new links)[zid]? =
      links[zid]?.map fun weight => if old[zid]? = new[zid]? then weight else new[zid]?.getD {} := by
  rw [reweigh, ExtTreeMap.getElem?_map]

omit [StableUnGraph G Node ω] [EdgeArith ω] in
@[simp] theorem mem_reweigh {old new links : Links} {zid : Zid} :
    zid ∈ reweigh old new links ↔ zid ∈ links := by
  rw [ExtTreeMap.mem_iff_isSome_getElem?, getElem?_reweigh, Option.isSome_map,
    ← ExtTreeMap.mem_iff_isSome_getElem?]

theorem Settled.close {i : ℕ} (h : Settled {i} selfZid net) {n : Node}
    (hn : nodeWeight net.graph i = some n) (hknown : ∀ zid ∈ n.links, ∃ j, net.getIdx zid = some j)
    (hjoined : ∀ j, i ≠ j → Joined net.graph i j) : Settled ∅ selfZid net where
  toRooted := h.toRooted
  known j m _ hm := by
    rcases eq_or_ne j i with rfl | hne
    · rw [hn] at hm
      exact Option.some_inj.mp hm ▸ hknown
    · exact h.known j m hne hm
  joined j k hjk _ _ := by
    rcases eq_or_ne j i with rfl | hj
    · exact hjoined k hjk
    rcases eq_or_ne k i with rfl | hk
    · exact joined_comm (hjoined j hjk.symm)
    · exact h.joined j k hjk hj hk
  back _ _ _ _ hi := hi.elim

theorem Settled.modify_of_links (h : Settled ∅ selfZid net) {f : Node → Node}
    (hzid : ∀ m, (f m).zid = m.zid) (hlinks : ∀ m, (f m).links = m.links) {i : ℕ} {n : Node}
    (hn : nodeWeight net.graph i = some n) : Settled ∅ selfZid (net.modify i f) := by
  have hrestated := Restated.modify f hzid hn
  refine (h.modify hzid i).close hrestated.node (hlinks n ▸ h.known i n id hn) fun j hij => ?_
  intro one two hone htwo w
  rw [hrestated.node] at hone
  obtain rfl := Option.some_inj.mp hone
  rw [nodeWeight_modify, if_neg hij] at htwo
  rw [edgeWeight_modify, h.joined i j hij id id n two hn htwo, Mutual, Mutual, hzid, hlinks,
    edgeWeightOf_congr (hzid n) (by rw [hlinks])]

theorem Settled.updateEdge_self {s : Set ℕ} (h : Settled s selfZid net) {i : ℕ} {n : Node}
    (hn : nodeWeight net.graph i = some n) (w : ω) :
    Settled s selfZid { net with graph := StableUnGraph.updateEdge net.graph i i w } := by
  have hlive : i ∈ nodeIndices net.graph := (mem_nodeIndices net.graph i).mpr ⟨n, hn⟩
  have hedge : ∀ {a b : ℕ}, a ≠ b →
      edgeWeight (StableUnGraph.updateEdge net.graph i i w) a b = edgeWeight net.graph a b := by
    intro a b hab
    rw [edgeWeight_updateEdge _ _ _ _ hlive hlive, if_neg (by omega)]
  refine ⟨h.toRooted.congr (nodeWeight_updateEdge net.graph i i w), ?_, ?_, ?_⟩
  · intro k m hk hm
    rw [nodeWeight_updateEdge] at hm
    exact h.known k m hk hm
  · intro k l hkl hk hl one two hone htwo w'
    rw [nodeWeight_updateEdge] at hone htwo
    rw [hedge hkl]
    exact h.joined k l hkl hk hl one two hone htwo w'
  · intro k one l w' hk hkl hone hw
    rw [nodeWeight_updateEdge] at hone
    rw [hedge hkl] at hw
    obtain ⟨two, htwo, hmem⟩ := h.back k one l w' hk hkl hone hw
    exact ⟨two, by rw [nodeWeight_updateEdge, htwo], hmem⟩

/-- The edges of self once those to the neighbours in `done` have been refreshed: every one is where
it should be, and has the weight it should have unless its neighbour is still to come. -/
structure Refreshed (selfZid : Zid) (n : Node) (dests done : List Zid)
    (start net : LinkstateNetwork G) : Prop where
  settled : Settled {net.idx} selfZid net
  frame : net = { start with graph := net.graph }
  nodes : ∀ i, nodeWeight net.graph i = nodeWeight start.graph i
  self : nodeWeight net.graph net.idx = some n
  present : ∀ j two, net.idx ≠ j → nodeWeight net.graph j = some two →
    ((∃ w, edgeWeight net.graph net.idx j = some w) ↔ Mutual n two)
  weight : ∀ j two w, net.idx ≠ j → nodeWeight net.graph j = some two →
    edgeWeight net.graph net.idx j = some w → (two.zid ∈ dests → two.zid ∈ done) →
    w = edgeWeightOf n two
  loopless : selfZid ∉ dests → Loopless start → Loopless net

namespace Refreshed

variable {n : Node} {dests done : List Zid} {start : LinkstateNetwork G}

theorem skip (h : Refreshed selfZid n dests done start net) {dest : Zid}
    (hdest : ∀ j two, net.idx ≠ j → nodeWeight net.graph j = some two → two.zid = dest →
      ¬Mutual n two) : Refreshed selfZid n dests (done ++ [dest]) start net where
  settled := h.settled
  frame := h.frame
  nodes := h.nodes
  self := h.self
  present := h.present
  weight j two w hj htwo hw hdone := by
    refine h.weight j two w hj htwo hw fun hmem => ?_
    rcases List.mem_append.mp (hdone hmem) with hin | hin
    · exact hin
    · exact absurd ((h.present j two hj htwo).mp ⟨w, hw⟩)
        (hdest j two hj htwo (List.mem_singleton.mp hin))
  loopless := h.loopless

theorem refreshSelf (h : Refreshed selfZid n dests done start net) (hmem : n.zid ∈ dests)
    (hself : n.zid = selfZid) :
    Refreshed selfZid n dests (done ++ [n.zid]) start
      { net with graph := StableUnGraph.updateEdge net.graph net.idx net.idx (edgeWeightOf n n) } := by
  have hlive := (mem_nodeIndices net.graph net.idx).mpr ⟨n, h.self⟩
  have hedge : ∀ {j : ℕ}, net.idx ≠ j →
      edgeWeight (StableUnGraph.updateEdge net.graph net.idx net.idx (edgeWeightOf n n)) net.idx j =
        edgeWeight net.graph net.idx j := by
    intro j hj
    rw [edgeWeight_updateEdge _ _ _ _ hlive hlive, if_neg (by omega)]
  refine ⟨h.settled.updateEdge_self h.self _, ?_, fun i => ?_, ?_, ?_, ?_, ?_⟩
  · rw [h.frame]
  · rw [nodeWeight_updateEdge, h.nodes]
  · rw [nodeWeight_updateEdge, h.self]
  · intro j two hj htwo
    rw [nodeWeight_updateEdge] at htwo
    rw [hedge hj]
    exact h.present j two hj htwo
  · intro j two w hj htwo hw hdone
    rw [nodeWeight_updateEdge] at htwo
    rw [hedge hj] at hw
    refine h.weight j two w hj htwo hw fun hin => ?_
    rcases List.mem_append.mp (hdone hin) with hin | hin
    · exact hin
    · exact absurd (h.settled.index.zid_inj h.self htwo (List.mem_singleton.mp hin).symm) hj
  · exact fun hnot => absurd (hself ▸ hmem) hnot

theorem refreshOther (h : Refreshed selfZid n dests done start net) {d : ℕ} {two : Node}
    (htwo : nodeWeight net.graph d = some two) (hne : net.idx ≠ d) (hmutual : Mutual n two) :
    Refreshed selfZid n dests (done ++ [two.zid]) start
      { net with graph := StableUnGraph.updateEdge net.graph net.idx d (edgeWeightOf n two) } := by
  have hlive := (mem_nodeIndices net.graph net.idx).mpr ⟨n, h.self⟩
  have hlive' := (mem_nodeIndices net.graph d).mpr ⟨two, htwo⟩
  have hedge : ∀ {j : ℕ}, net.idx ≠ j →
      edgeWeight (StableUnGraph.updateEdge net.graph net.idx d (edgeWeightOf n two)) net.idx j =
        if d = j then some (edgeWeightOf n two) else edgeWeight net.graph net.idx j := by
    intro j hj
    rw [edgeWeight_updateEdge _ _ _ _ hlive hlive']
    simp [hj]
  have hsame : ∀ {j : ℕ} {three : Node}, nodeWeight net.graph j = some three → d = j →
      three = two := by
    rintro j three hthree rfl
    rw [htwo] at hthree
    exact (Option.some_inj.mp hthree).symm
  refine ⟨h.settled.updateEdge rfl hne.symm h.self htwo hmutual.2 _, ?_, fun i => ?_, ?_, ?_, ?_, ?_⟩
  · rw [h.frame]
  · rw [nodeWeight_updateEdge, h.nodes]
  · rw [nodeWeight_updateEdge, h.self]
  · intro j three hj hthree
    rw [nodeWeight_updateEdge] at hthree
    rw [hedge hj]
    split_ifs with hdj
    · simp [hsame hthree hdj, hmutual]
    · exact h.present j three hj hthree
  · intro j three w hj hthree hw hdone
    rw [nodeWeight_updateEdge] at hthree
    rw [hedge hj] at hw
    split_ifs at hw with hdj
    · rw [hsame hthree hdj, ← Option.some_inj.mp hw]
    · refine h.weight j three w hj hthree hw fun hin => ?_
      rcases List.mem_append.mp (hdone hin) with hin | hin
      · exact hin
      · exact absurd (h.settled.index.zid_inj htwo hthree (List.mem_singleton.mp hin).symm) hdj
  · intro hnot hloop i
    rw [edgeWeight_updateEdge _ _ _ _ hlive hlive', if_neg (by omega)]
    exact h.loopless hnot hloop i

theorem refreshEdge (h : Refreshed selfZid n dests done start net) {dest : Zid} (hdest : dest ∈ dests)
    (hlinks : dest ∈ n.links) :
    ∃ net', LinkstateNetwork.refreshEdge n.zid net dest = some net' ∧
      Refreshed selfZid n dests (done ++ [dest]) start net' := by
  rcases hidx : net.getIdx dest with _ | d
  · refine ⟨net, by simp [LinkstateNetwork.refreshEdge, hidx], h.skip fun j two hj htwo hzid => ?_⟩
    exact absurd hzid (h.settled.index.zid_ne hidx htwo)
  obtain ⟨two, htwo, rfl⟩ := (h.settled.index dest d).mp hidx
  by_cases hback : n.zid ∈ two.links
  · have heq : LinkstateNetwork.refreshEdge n.zid net two.zid = net.updateEdge net.idx d := by
      simp [LinkstateNetwork.refreshEdge, hidx, htwo, hback]
    rw [heq, updateEdge_eq h.self htwo]
    refine ⟨_, rfl, ?_⟩
    rcases eq_or_ne net.idx d with hd | hd
    · rw [← hd, h.self] at htwo
      obtain rfl := Option.some_inj.mp htwo
      obtain ⟨m, hm, hself⟩ := h.settled.root
      rw [h.self] at hm
      exact hd ▸ h.refreshSelf hdest (Option.some_inj.mp hm ▸ hself)
    · exact h.refreshOther htwo hd ⟨hlinks, hback⟩
  · refine ⟨net, by simp [LinkstateNetwork.refreshEdge, hidx, htwo, hback],
      h.skip fun j three hj hthree hzid hmutual => ?_⟩
    obtain rfl := h.settled.index.zid_inj htwo hthree hzid.symm
    rw [htwo] at hthree
    exact hback (Option.some_inj.mp hthree ▸ hmutual.2)

theorem settle (h : Refreshed selfZid n dests dests start net)
    (hknown : ∀ zid ∈ n.links, ∃ j, net.getIdx zid = some j) : Settled ∅ selfZid net := by
  refine h.settled.close h.self hknown fun j hj one two hone htwo w => ?_
  rw [h.self] at hone
  obtain rfl := Option.some_inj.mp hone
  constructor
  · intro hw
    exact ⟨(h.present j two hj htwo).mp ⟨w, hw⟩, h.weight j two w hj htwo hw id⟩
  · rintro ⟨hmutual, rfl⟩
    obtain ⟨w, hw⟩ := (h.present j two hj htwo).mpr hmutual
    rw [hw, h.weight j two w hj htwo hw id]

end Refreshed

variable [HashOrder]

omit [StableUnGraph G Node ω] [EdgeArith ω] in
theorem mem_touched {linkWeights : Links} {n : Node} {zid : Zid} :
    zid ∈ net.touched linkWeights n ↔
      zid ∈ n.links ∧ net.linkWeights[zid]? ≠ linkWeights[zid]? := by
  simp [touched, mem_keys]

theorem Refreshed.start (h : Settled ∅ selfZid net) {n : Node}
    (hn : nodeWeight net.graph net.idx = some n) (linkWeights : Links) :
    let start := { net.modify net.idx (net.reweighed linkWeights) with linkWeights }
    Refreshed selfZid (net.reweighed linkWeights n) (net.touched linkWeights n) [] start start := by
  intro start
  have hrestated : Restated net.idx _ net (net.modify net.idx (net.reweighed linkWeights)) :=
    Restated.modify (net.reweighed linkWeights) (fun _ => rfl) hn
  have hsettled : Settled {net.idx} selfZid start :=
    (h.modify (f := net.reweighed linkWeights) (fun _ => rfl) net.idx).frame rfl rfl rfl rfl
  have hold : ∀ {j : ℕ} {two : Node}, net.idx ≠ j → nodeWeight start.graph j = some two →
      nodeWeight net.graph j = some two := by
    intro j two hj htwo
    change nodeWeight (net.modify net.idx _).graph j = some two at htwo
    rwa [nodeWeight_modify, if_neg hj] at htwo
  have hedge : ∀ {j : ℕ}, edgeWeight start.graph net.idx j = edgeWeight net.graph net.idx j :=
    edgeWeight_modify _ _ _ _
  have hmutual : ∀ two, Mutual (net.reweighed linkWeights n) two ↔ Mutual n two := by
    simp [Mutual, reweighed]
  refine ⟨hsettled, rfl, fun _ => rfl, hrestated.node, ?_, ?_, fun _ => id⟩
  · intro j two hj htwo
    change (∃ w, edgeWeight start.graph net.idx j = some w) ↔ _
    rw [hedge, hmutual]
    simp [h.joined net.idx j hj id id n two hn (hold hj htwo)]
  · intro j two w hj htwo hw hdone
    change edgeWeight start.graph net.idx j = some w at hw
    rw [hedge] at hw
    rw [((h.joined net.idx j hj id id n two hn (hold hj htwo) w).mp hw).2]
    symm
    refine edgeWeightOf_congr (show (net.reweighed linkWeights n).zid = n.zid from rfl) ?_
    rw [reweighed, getElem?_reweigh]
    rcases hlink : n.links[two.zid]? with _ | weight
    · rfl
    · have hsame : net.linkWeights[two.zid]? = linkWeights[two.zid]? := by
        by_contra hne
        refine List.not_mem_nil (hdone (mem_touched.mpr ⟨?_, hne⟩))
        simp [ExtTreeMap.mem_iff_isSome_getElem?, hlink]
      simp [hsame]

/-- Self's links take the new weights, and the network stays settled. A node is joined with itself
only if self's own link is among those whose weight changes. -/
theorem exists_updateLinkWeights (h : Settled ∅ selfZid net) (linkWeights : Links) :
    ∃ net' moved n n', net.updateLinkWeights linkWeights = some (net', moved) ∧
      Settled ∅ selfZid net' ∧ nodeWeight net.graph net.idx = some n ∧
      Restated net.idx n' net net' ∧ (∀ zid, zid ∈ n'.links ↔ zid ∈ n.links) ∧
      (net.linkWeights[selfZid]? = linkWeights[selfZid]? ∨ selfZid ∉ n.links →
        Loopless net → Loopless net') ∧
      net' = { net with graph := net'.graph, linkWeights } := by
  obtain ⟨n, hn, -⟩ := h.root
  have hstart := Refreshed.start h hn linkWeights
  set start : LinkstateNetwork G :=
    { net.modify net.idx (net.reweighed linkWeights) with linkWeights } with hstartDef
  set dests := net.touched linkWeights n with hdests
  have hrestated : Restated net.idx (net.reweighed linkWeights n) net start := by
    have hmodify : Restated net.idx (net.reweighed linkWeights n) net
        (net.modify net.idx (net.reweighed linkWeights)) := Restated.modify (net.reweighed linkWeights) (fun _ => rfl) hn
    exact ⟨hmodify.node, hmodify.zid, hmodify.old, hmodify.fresh⟩
  have hloop : net.linkWeights[selfZid]? = linkWeights[selfZid]? ∨ selfZid ∉ n.links →
      selfZid ∉ dests := by
    rw [hdests, mem_touched]
    tauto
  have hknown : ∀ zid ∈ (net.reweighed linkWeights n).links, ∃ j, net.getIdx zid = some j :=
    fun zid hzid => h.known net.idx n id hn zid (mem_reweigh.mp hzid)
  by_cases hempty : dests = []
  · refine ⟨start, false, n, net.reweighed linkWeights n, ?_, ?_, hn, hrestated,
      fun _ => mem_reweigh, fun _ hl => loopless_modify hl _ _, rfl⟩
    · simp [updateLinkWeights, hn, ← hdests, hempty, hstartDef]
    · exact (hempty ▸ hstart).settle hknown
  obtain ⟨net', heq, hdone⟩ := Steps.foldlM_keeps (f := LinkstateNetwork.refreshEdge n.zid)
    (P := fun done s => Refreshed selfZid (net.reweighed linkWeights n) dests done start s) dests
    (fun done s dest hdest hs => hs.refreshEdge hdest (mem_reweigh.mpr (mem_touched.mp hdest).1))
    [] hstart
  rw [List.nil_append] at hdone
  have hidx : net'.idx = net.idx := by
    rw [hdone.frame]
    rfl
  have hindex : net'.getIdx = net.getIdx := by
    rw [hdone.frame]
    rfl
  have hsettled := hdone.settle (hindex ▸ hknown)
  set bump : Node → Node := fun node => { node with sn := node.sn + 1 } with hbump
  have hbumped : Restated net'.idx _ net' (net'.modify net'.idx bump) :=
    Restated.modify bump (fun _ => rfl) hdone.self
  refine ⟨net'.modify net'.idx bump, true, n, bump (net.reweighed linkWeights n), ?_,
    hsettled.modify_of_links (f := bump) (fun _ => rfl) (fun _ => rfl) hdone.self, hn, ?_,
    fun _ => mem_reweigh, fun hcond hl => loopless_modify (hdone.loopless (hloop hcond)
      (loopless_modify hl _ _)) _ _, ?_⟩
  · have hmode : (dests.isEmpty || !(start.fullLinkstate || start.gossipMultihop)) = false := by
      rw [show start.fullLinkstate = true from h.full]
      simpa using hempty
    simp only [updateLinkWeights, hn, Option.bind_eq_bind, Option.bind_some, ← hdests, ← hstartDef]
    rw [if_neg (by simpa using hmode), heq, Option.bind_some]
  · rw [hidx] at hbumped ⊢
    refine ⟨hbumped.node, fun m hm => ?_, fun j m hj hm => ?_, fun j m hj hm hnone => ?_⟩
    · rw [hn] at hm
      exact Option.some_inj.mp hm ▸ rfl
    · exact hbumped.old j m hj (by rw [hdone.nodes, hrestated.old j m hj hm])
    · refine hrestated.fresh j m hj ?_ hnone
      rwa [nodeWeight_modify, if_neg hj.symm, hdone.nodes] at hm
  · rw [LinkstateNetwork.modify, hdone.frame]
    rfl

end WatchingZenoh.NetworkGraph
