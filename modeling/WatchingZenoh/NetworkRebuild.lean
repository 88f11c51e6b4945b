import Mathlib
import WatchingZenoh.Library.Steps
import WatchingZenoh.NetworkTopology

/-! Rebuilding the edges of one node settles it: the edges to those that advertise it back take their
weights, unknown destinations come in as placeholders, and the edges it no longer advertises go. -/

namespace WatchingZenoh.NetworkGraph

open StableGraph StableUnGraph LinkstateNetwork
open Std (ExtTreeMap)

variable {G ω : Type} [StableUnGraph G Node ω] [EdgeArith ω]
variable {selfZid : Zid} {net : LinkstateNetwork G}

/-- The edges of the node `n` at `i` have been rebuilt for the destinations in `done`. -/
structure Rebuilt (selfZid : Zid) (i : ℕ) (n : Node) (done : List Zid) (net : LinkstateNetwork G) :
    Prop where
  settled : Settled {i} selfZid net
  node : nodeWeight net.graph i = some n
  known : ∀ zid ∈ done, ∃ j, net.getIdx zid = some j
  joined : ∀ zid ∈ done, ∀ j two, nodeWeight net.graph j = some two → two.zid = zid → i ≠ j →
    n.zid ∈ two.links → edgeWeight net.graph i j = some (edgeWeightOf n two)

theorem updateEdge_eq {i j : ℕ} {one two : Node} (hone : nodeWeight net.graph i = some one)
    (htwo : nodeWeight net.graph j = some two) :
    net.updateEdge i j =
      some { net with graph := StableUnGraph.updateEdge net.graph i j (edgeWeightOf one two) } := by
  simp [LinkstateNetwork.updateEdge, hone, htwo]

theorem Settled.updateEdge {s : Set ℕ} (h : Settled s selfZid net) {i j : ℕ} {one two : Node}
    (hi : i ∈ s) (hj : j ∉ s) (hone : nodeWeight net.graph i = some one)
    (htwo : nodeWeight net.graph j = some two) (hback : one.zid ∈ two.links) (w : ω) :
    Settled s selfZid { net with graph := StableUnGraph.updateEdge net.graph i j w } := by
  have hne : i ≠ j := fun heq => hj (heq ▸ hi)
  have hlive : ∀ {k : ℕ} {n : Node}, nodeWeight net.graph k = some n → k ∈ nodeIndices net.graph :=
    fun hn => (mem_nodeIndices net.graph _).mpr ⟨_, hn⟩
  refine ⟨h.toRooted.congr (nodeWeight_updateEdge net.graph i j w), ?_, ?_, ?_⟩
  · intro k n hk hn
    rw [nodeWeight_updateEdge] at hn
    exact h.known k n hk hn
  · intro k l hkl hk hl a b ha hb w'
    rw [nodeWeight_updateEdge] at ha hb
    rw [edgeWeight_updateEdge _ _ _ _ (hlive hone) (hlive htwo), if_neg]
    · exact h.joined k l hkl hk hl a b ha hb w'
    · rintro (⟨rfl, -⟩ | ⟨rfl, -⟩)
      · exact hk hi
      · exact hl hi
  · intro k a l w' hk hkl ha hw
    rw [nodeWeight_updateEdge] at ha
    rw [edgeWeight_updateEdge _ _ _ _ (hlive hone) (hlive htwo)] at hw
    split_ifs at hw with hends
    · rcases hends with ⟨rfl, rfl⟩ | ⟨rfl, rfl⟩
      · rw [hone] at ha
        obtain rfl := Option.some_inj.mp ha
        exact ⟨two, by rw [nodeWeight_updateEdge, htwo], hback⟩
      · exact absurd hk hj
    · obtain ⟨b, hb, hmem⟩ := h.back k a l w' hk hkl ha hw
      exact ⟨b, by rw [nodeWeight_updateEdge, hb], hmem⟩

namespace Rebuilt

variable {i : ℕ} {n : Node} {done : List Zid}

theorem joined_append (h : Rebuilt selfZid i n done net) {dest : Zid}
    (hdest : ∀ j two, nodeWeight net.graph j = some two → two.zid = dest → i ≠ j →
      n.zid ∈ two.links → edgeWeight net.graph i j = some (edgeWeightOf n two))
    (hknown : ∃ j, net.getIdx dest = some j) : Rebuilt selfZid i n (done ++ [dest]) net where
  settled := h.settled
  node := h.node
  known zid hzid := by
    rcases List.mem_append.mp hzid with hzid | hzid
    · exact h.known zid hzid
    · exact List.mem_singleton.mp hzid ▸ hknown
  joined zid hzid := by
    rcases List.mem_append.mp hzid with hzid | hzid
    · exact h.joined zid hzid
    · exact List.mem_singleton.mp hzid ▸ hdest

theorem updateEdge (h : Rebuilt selfZid i n done net) {j : ℕ} {two : Node} (hne : i ≠ j)
    (htwo : nodeWeight net.graph j = some two) (hback : n.zid ∈ two.links) :
    Rebuilt selfZid i n (done ++ [two.zid])
      { net with graph := StableUnGraph.updateEdge net.graph i j (edgeWeightOf n two) } := by
  have hedge : ∀ k, edgeWeight (StableUnGraph.updateEdge net.graph i j (edgeWeightOf n two)) i k =
      if j = k then some (edgeWeightOf n two) else edgeWeight net.graph i k := by
    intro k
    rw [edgeWeight_updateEdge _ _ _ _ ((mem_nodeIndices net.graph i).mpr ⟨n, h.node⟩)
      ((mem_nodeIndices net.graph j).mpr ⟨two, htwo⟩)]
    simp [hne.symm]
  have hsame : ∀ {k : ℕ} {three : Node}, nodeWeight net.graph k = some three → j = k →
      three = two := by
    rintro k three hthree rfl
    rw [htwo] at hthree
    exact (Option.some_inj.mp hthree).symm
  refine joined_append ⟨h.settled.updateEdge rfl hne.symm h.node htwo hback _,
    by rw [nodeWeight_updateEdge, h.node], h.known, ?_⟩ ?_ ?_
  · intro zid hzid k three hthree hthree' hik hmem
    rw [nodeWeight_updateEdge] at hthree
    rw [hedge]
    split_ifs with hjk
    · rw [hsame hthree hjk]
    · exact h.joined zid hzid k three hthree hthree' hik hmem
  · intro k three hthree hzid _ _
    rw [nodeWeight_updateEdge] at hthree
    have hjk := h.settled.index.zid_inj htwo hthree hzid.symm
    rw [hedge, if_pos hjk, hsame hthree hjk]
  · exact ⟨j, (h.settled.index two.zid j).mpr ⟨two, htwo, rfl⟩⟩

theorem ensureNode (h : Rebuilt selfZid i n done net) {dest : Zid} (hnone : net.getIdx dest = none) :
    Rebuilt selfZid i n (done ++ [dest]) (net.ensureNode dest).1 := by
  have heq : net.ensureNode dest = net.insertNode (placeholder dest) := by
    simp [LinkstateNetwork.ensureNode, hnone]
  rw [heq]
  have hold : ∀ {j : ℕ} {two : Node}, n.zid ∈ two.links →
      nodeWeight (net.insertNode (placeholder dest)).1.graph j = some two →
      nodeWeight net.graph j = some two := by
    intro j two hmem htwo
    rw [nodeWeight_insertNode] at htwo
    split_ifs at htwo
    · obtain rfl := Option.some_inj.mp htwo
      simp [placeholder] at hmem
    · exact htwo
  refine joined_append ⟨h.settled.insertNode_of_links_empty hnone rfl,
    nodeWeight_insertNode_of_some h.node, ?_, ?_⟩ ?_ ?_
  · intro zid hzid
    obtain ⟨j, hj⟩ := h.known zid hzid
    rw [getIdx_insertNode]
    split_ifs
    · exact ⟨_, rfl⟩
    · exact ⟨j, hj⟩
  · intro zid hzid j two htwo hzid' hij hmem
    rw [edgeWeight_insertNode]
    exact h.joined zid hzid j two (hold hmem htwo) hzid' hij hmem
  · intro j two htwo hzid hij hmem
    exact absurd hzid (h.settled.index.zid_ne hnone (hold hmem htwo))
  · exact ⟨_, by rw [getIdx_insertNode, if_pos (by rfl)]⟩

theorem rebuildDest (h : Rebuilt selfZid i n done net) (introduced : List Zid) (dest : Zid) :
    ∃ net' zids, LinkstateNetwork.rebuildDest i n.zid (net, introduced) dest =
        some (net', introduced ++ zids) ∧
      Rebuilt selfZid i n (done ++ [dest]) net' ∧ Grown zids net net' ∧ ∀ z ∈ zids, z = dest := by
  rcases hdest : net.getIdx dest with _ | j
  · have heq : net.ensureNode dest = net.insertNode (placeholder dest) := by
      simp [LinkstateNetwork.ensureNode, hdest]
    exact ⟨_, [dest], by simp [LinkstateNetwork.rebuildDest, hdest], h.ensureNode hdest,
      heq ▸ Grown.insertNode dest, by simp⟩
  obtain ⟨two, htwo, rfl⟩ := (h.settled.index dest j).mp hdest
  rcases eq_or_ne j i with rfl | hne
  · refine ⟨net, [], by simp [LinkstateNetwork.rebuildDest, hdest],
      h.joined_append (fun k three hthree hzid hjk => ?_) ⟨j, hdest⟩, .refl net, by simp⟩
    exact absurd (h.settled.index.zid_inj htwo hthree hzid.symm) hjk
  by_cases hback : n.zid ∈ two.links
  · refine ⟨_, [], by
        simp [LinkstateNetwork.rebuildDest, hdest, hne, htwo, hback, updateEdge_eq h.node htwo],
      h.updateEdge hne.symm htwo hback, .of_nodes (nodeWeight_updateEdge net.graph i j _) ?_,
      by simp⟩
    intro k w hw
    rwa [edgeWeight_updateEdge _ _ _ _ ((mem_nodeIndices net.graph i).mpr ⟨n, h.node⟩)
      ((mem_nodeIndices net.graph j).mpr ⟨two, htwo⟩), if_neg (by omega)] at hw
  · refine ⟨net, [], by simp [LinkstateNetwork.rebuildDest, hdest, hne, htwo, hback],
      h.joined_append (fun k three hthree hzid _ hmem => ?_) ⟨j, hdest⟩, .refl net, by simp⟩
    obtain rfl := h.settled.index.zid_inj htwo hthree hzid.symm
    rw [htwo] at hthree
    exact absurd (Option.some_inj.mp hthree ▸ hmem) hback

end Rebuilt

variable [HashOrder]

theorem mem_keys {links : Links} {zid : Zid} : zid ∈ keys links ↔ zid ∈ links := by
  rw [(HashOrder.keys_perm links).mem_iff, ExtTreeMap.mem_keys]

theorem Rebuilt.settle {i : ℕ} {n : Node} (h : Rebuilt selfZid i n (keys n.links) net) :
    Settled ∅ selfZid (net.removeEdges i (net.stale i (keys n.links))) := by
  set far := net.stale i (keys n.links) with hfar
  have hnode : ∀ j, nodeWeight (net.removeEdges i far).graph j = nodeWeight net.graph j :=
    nodeWeight_removeEdges i far net.graph
  have hstale : ∀ {j : ℕ} {two : Node} {w : ω}, nodeWeight net.graph j = some two →
      edgeWeight net.graph i j = some w → (j ∈ far ↔ two.zid ∉ n.links) := by
    intro j two w htwo hw
    simp [hfar, stale, mem_neighbors, hw, htwo, mem_keys]
  have hself : ∀ j, i ≠ j → Joined (net.removeEdges i far).graph i j := by
    intro j hne one two hone htwo w
    rw [hnode] at hone htwo
    rw [h.node] at hone
    obtain rfl := Option.some_inj.mp hone
    rw [LinkstateNetwork.removeEdges, edgeWeight_removeEdges]
    constructor
    · intro hw
      split_ifs at hw with hgone
      obtain ⟨three, hthree, hback⟩ := h.settled.back i n j w rfl hne h.node hw
      rw [htwo] at hthree
      obtain rfl := Option.some_inj.mp hthree
      have hmem : two.zid ∈ n.links := by
        by_contra hmem
        exact hgone (.inl ⟨rfl, (hstale htwo hw).mpr hmem⟩)
      rw [h.joined two.zid (mem_keys.mpr hmem) j two htwo rfl hne hback] at hw
      exact ⟨⟨hmem, hback⟩, (Option.some_inj.mp hw).symm⟩
    · rintro ⟨⟨hmem, hback⟩, rfl⟩
      have hw := h.joined two.zid (mem_keys.mpr hmem) j two htwo rfl hne hback
      have hkept : j ∉ far := fun hj => (hstale htwo hw).mp hj hmem
      rw [if_neg (by simp [hkept, hne.symm]), hw]
  have hother : ∀ {j k : ℕ}, j ≠ k → j ≠ i → k ≠ i →
      Joined (net.removeEdges i far).graph j k := by
    intro j k hjk hj hk one two hone htwo w
    rw [hnode] at hone htwo
    rw [LinkstateNetwork.removeEdges, edgeWeight_removeEdges, if_neg (by simp [hj, hk])]
    exact h.settled.joined j k hjk hj hk one two hone htwo w
  refine ⟨h.settled.toRooted.congr hnode, fun j two _ htwo zid hzid => ?_, fun j k hjk _ _ => ?_,
    fun _ _ _ _ hi => hi.elim⟩
  · rw [hnode] at htwo
    rcases eq_or_ne j i with rfl | hne
    · rw [h.node] at htwo
      obtain rfl := Option.some_inj.mp htwo
      exact h.known zid (mem_keys.mpr hzid)
    · exact h.settled.known j two hne htwo zid hzid
  · rcases eq_or_ne j i with rfl | hj
    · exact hself k hjk
    rcases eq_or_ne k i with rfl | hk
    · exact joined_comm (hself j hjk.symm)
    · exact hother hjk hj hk

/-- A node whose edges are rebuilt is settled. Nothing is changed but for placeholders of what it
advertises. -/
theorem exists_rebuildEdges {i : ℕ} {n : Node} (h : Settled {i} selfZid net)
    (hn : nodeWeight net.graph i = some n) :
    ∃ net' introduced, net.rebuildEdges i = some (net', introduced) ∧ Settled ∅ selfZid net' ∧
      Grown introduced net net' ∧ ∀ zid ∈ introduced, zid ∈ n.links := by
  have hstart : Rebuilt selfZid i n [] net ∧ Grown [] net net ∧ ∀ zid ∈ ([] : List Zid),
      zid ∈ n.links := ⟨⟨h, hn, by simp, by simp⟩, .refl net, by simp⟩
  obtain ⟨⟨net', introduced⟩, hloop, hrebuilt, hgrown, hmem⟩ := Steps.foldlM_keeps
    (f := LinkstateNetwork.rebuildDest i n.zid)
    (P := fun done s => Rebuilt selfZid i n done s.1 ∧ Grown s.2 net s.1 ∧
      ∀ zid ∈ s.2, zid ∈ n.links)
    (keys n.links) (fun past s dest hdest hs => by
      obtain ⟨hrebuilt, hgrown, hmem⟩ := hs
      obtain ⟨net', zids, heq, hrebuilt', hgrown', hzids⟩ := hrebuilt.rebuildDest s.2 dest
      refine ⟨(net', s.2 ++ zids), heq, hrebuilt', hgrown.trans hgrown', fun z hz => ?_⟩
      rcases List.mem_append.mp hz with hz | hz
      · exact hmem z hz
      · exact hzids z hz ▸ mem_keys.mp hdest) [] (s := (net, [])) hstart
  refine ⟨_, introduced, by simp [rebuildEdges, hn, hloop], Rebuilt.settle hrebuilt, ?_, hmem⟩
  have hpruned : Grown [] net' (net'.removeEdges i (net'.stale i (keys n.links))) := by
    refine .of_nodes (nodeWeight_removeEdges i _ net'.graph) fun j w hw => ?_
    rw [edgeWeight_removeEdges] at hw
    split_ifs at hw
    exact hw
  simpa using hgrown.trans hpruned

end WatchingZenoh.NetworkGraph
