import Mathlib
import WatchingZenoh.NetworkGraph

/-! What holds of a network between calls: the index is the inverse of the ids in the graph, whatever
is advertised is in the graph, and two nodes are joined exactly if they are different and advertise
each other, by an edge of the weight their advertisements give. While one node's advertisement has
changed and its edges have not been rebuilt, this holds of the other nodes. -/

namespace WatchingZenoh.NetworkGraph

open StableGraph StableUnGraph
open Std (ExtTreeMap)

variable {G ω : Type} [StableUnGraph G Node ω]

def Mutual (one two : Node) : Prop := two.zid ∈ one.links ∧ one.zid ∈ two.links

theorem mutual_comm {one two : Node} : Mutual one two ↔ Mutual two one := and_comm

def Inverse (net : LinkstateNetwork G) : Prop :=
  ∀ zid i, net.getIdx zid = some i ↔ ∃ n, nodeWeight net.graph i = some n ∧ n.zid = zid

/-- The index is in step with the graph, and self is in it. -/
structure Indexed (selfZid : Zid) (net : LinkstateNetwork G) : Prop where
  index : Inverse net
  root : ∃ n, nodeWeight net.graph net.idx = some n ∧ n.zid = selfZid

structure Rooted (selfZid : Zid) (net : LinkstateNetwork G) : Prop extends Indexed selfZid net where
  full : net.fullLinkstate = true

variable {selfZid : Zid} {net : LinkstateNetwork G}

namespace Inverse

theorem zid_inj (h : Inverse net) {i j : ℕ} {one two : Node}
    (hone : nodeWeight net.graph i = some one) (htwo : nodeWeight net.graph j = some two)
    (hzid : one.zid = two.zid) : i = j := by
  have hi := (h two.zid i).mpr ⟨one, hone, hzid⟩
  rw [(h two.zid j).mpr ⟨two, htwo, rfl⟩] at hi
  exact (Option.some_inj.mp hi).symm

theorem zid_ne (h : Inverse net) {zid : Zid} (hnone : net.getIdx zid = none) {i : ℕ} {n : Node}
    (hn : nodeWeight net.graph i = some n) : n.zid ≠ zid := by
  rintro rfl
  simp [(h n.zid i).mpr ⟨n, hn, rfl⟩] at hnone

end Inverse

namespace LinkstateNetwork

theorem nodeWeight_insertNode (node : Node) (i : ℕ) :
    nodeWeight (net.insertNode node).1.graph i =
      if (net.insertNode node).2 = i then some node else nodeWeight net.graph i :=
  nodeWeight_addNode net.graph node i

theorem nodeWeight_insertNode_of_some {node n : Node} {i : ℕ} (h : nodeWeight net.graph i = some n) :
    nodeWeight (net.insertNode node).1.graph i = some n := by
  rw [nodeWeight_insertNode, if_neg, h]
  rintro rfl
  rw [insertNode, addNode_fresh] at h
  cases h

theorem nodeWeight_of_insertNode {node n : Node} {i : ℕ} (hne : i ≠ (net.insertNode node).2)
    (h : nodeWeight (net.insertNode node).1.graph i = some n) :
    nodeWeight net.graph i = some n := by
  rwa [nodeWeight_insertNode, if_neg hne.symm] at h

@[simp] theorem edgeWeight_insertNode (node : Node) (a b : ℕ) :
    edgeWeight (net.insertNode node).1.graph a b = edgeWeight net.graph a b :=
  edgeWeight_addNode net.graph node a b

theorem getIdx_insertNode (node : Node) (zid : Zid) :
    (net.insertNode node).1.getIdx zid =
      if node.zid = zid then some (net.insertNode node).2 else net.getIdx zid := by
  simp [getIdx, insertNode, ExtTreeMap.getElem?_insert]

theorem nodeWeight_modify (i : ℕ) (f : Node → Node) (j : ℕ) :
    nodeWeight (net.modify i f).graph j =
      if i = j then (nodeWeight net.graph j).map f else nodeWeight net.graph j :=
  nodeWeight_modifyNode net.graph i f j

@[simp] theorem edgeWeight_modify (i : ℕ) (f : Node → Node) (a b : ℕ) :
    edgeWeight (net.modify i f).graph a b = edgeWeight net.graph a b :=
  edgeWeight_modifyNode net.graph i f a b

end LinkstateNetwork

open LinkstateNetwork

def Loopless (net : LinkstateNetwork G) : Prop := ∀ i, edgeWeight net.graph i i = none

/-- Nothing but nodes and edges is added: every node stays as it is, and the new ones are
placeholders for the ids given. -/
structure Grown (zids : List Zid) (net net' : LinkstateNetwork G) : Prop where
  frame : net' = { net with graph := net'.graph, idxByZid := net'.idxByZid }
  old : ∀ i n, nodeWeight net.graph i = some n → nodeWeight net'.graph i = some n
  fresh : ∀ i n, nodeWeight net'.graph i = some n → nodeWeight net.graph i = none →
    n.zid ∈ zids ∧ n = placeholder n.zid
  named : ∀ zid ∈ zids, ∃ i, nodeWeight net.graph i = none ∧
    nodeWeight net'.graph i = some (placeholder zid)
  loopless : Loopless net → Loopless net'

namespace Grown

variable {net' net'' : LinkstateNetwork G} {zids zids' : List Zid}

theorem refl (net : LinkstateNetwork G) : Grown [] net net :=
  ⟨rfl, fun _ _ => id, fun i n hn hnone => by simp [hnone] at hn, by simp, id⟩

theorem trans (h : Grown zids net net') (h' : Grown zids' net' net'') :
    Grown (zids ++ zids') net net'' where
  frame := by
    rw [h'.frame, h.frame]
  old i n hn := h'.old i n (h.old i n hn)
  fresh i n hn hnone := by
    rcases hmid : nodeWeight net'.graph i with _ | m
    · obtain ⟨hzid, heq⟩ := h'.fresh i n hn hmid
      exact ⟨List.mem_append_right _ hzid, heq⟩
    · rw [h'.old i m hmid] at hn
      obtain rfl := Option.some_inj.mp hn
      obtain ⟨hzid, heq⟩ := h.fresh i m hmid hnone
      exact ⟨List.mem_append_left _ hzid, heq⟩
  named zid hzid := by
    rcases List.mem_append.mp hzid with hzid | hzid
    · obtain ⟨i, hnone, hi⟩ := h.named zid hzid
      exact ⟨i, hnone, h'.old i _ hi⟩
    · obtain ⟨i, hnone, hi⟩ := h'.named zid hzid
      refine ⟨i, ?_, hi⟩
      rcases hn : nodeWeight net.graph i with _ | n
      · rfl
      · simp [h.old i n hn] at hnone
  loopless hloop := h'.loopless (h.loopless hloop)

theorem of_nodes {g : G} (hg : ∀ i, nodeWeight g i = nodeWeight net.graph i)
    (hloop : ∀ i w, edgeWeight g i i = some w → edgeWeight net.graph i i = some w) :
    Grown [] net { net with graph := g } where
  frame := rfl
  old i n hn := (hg i).trans hn
  fresh i n hn hnone := by
    rw [hg i, hnone] at hn
    cases hn
  named := by simp
  loopless h i := by
    rcases hw : edgeWeight g i i with _ | w
    · rfl
    · exact absurd (hloop i w hw) (by simp [h i])

theorem insertNode (zid : Zid) : Grown [zid] net (net.insertNode (placeholder zid)).1 where
  frame := rfl
  old i n := nodeWeight_insertNode_of_some
  fresh i n hn hnone := by
    rw [nodeWeight_insertNode, hnone] at hn
    split_ifs at hn
    obtain rfl := Option.some_inj.mp hn
    exact ⟨List.mem_singleton.mpr rfl, rfl⟩
  named z hz := by
    obtain rfl := List.mem_singleton.mp hz
    exact ⟨(net.insertNode (placeholder z)).2, addNode_fresh net.graph _,
      by rw [nodeWeight_insertNode, if_pos rfl]⟩
  loopless h i := by
    rw [edgeWeight_insertNode]
    exact h i

end Grown

namespace Inverse

theorem congr (h : Inverse net) {g : G} (hg : ∀ i, nodeWeight g i = nodeWeight net.graph i) :
    Inverse { net with graph := g } := by
  intro zid i
  rw [hg i]
  exact h zid i

theorem insertNode (h : Inverse net) {node : Node} (hnew : net.getIdx node.zid = none) :
    Inverse (net.insertNode node).1 := by
  intro zid i
  rw [getIdx_insertNode]
  constructor
  · intro hi
    split_ifs at hi with hzid
    · obtain rfl := Option.some_inj.mp hi
      exact ⟨node, by rw [nodeWeight_insertNode, if_pos rfl], hzid⟩
    · obtain ⟨n, hn, hzid⟩ := (h zid i).mp hi
      exact ⟨n, nodeWeight_insertNode_of_some hn, hzid⟩
  · rintro ⟨n, hn, rfl⟩
    rw [nodeWeight_insertNode] at hn
    split_ifs at hn with hi
    · obtain rfl := Option.some_inj.mp hn
      rw [if_pos rfl, hi]
    · rw [if_neg (h.zid_ne hnew hn).symm]
      exact (h n.zid i).mpr ⟨n, hn, rfl⟩

theorem modify (h : Inverse net) {f : Node → Node} (hf : ∀ n, (f n).zid = n.zid) (i : ℕ) :
    Inverse (net.modify i f) := by
  intro zid j
  change net.getIdx zid = some j ↔ _
  rw [h zid j, nodeWeight_modify]
  split_ifs
  · constructor
    · rintro ⟨n, hn, hzid⟩
      exact ⟨f n, by simp [hn], by rw [hf, hzid]⟩
    · rintro ⟨n, hn, hzid⟩
      obtain ⟨m, hm, rfl⟩ := Option.map_eq_some_iff.mp hn
      exact ⟨m, hm, by rw [← hf m, hzid]⟩
  · rfl

end Inverse

namespace Indexed

theorem congr (h : Indexed selfZid net) {g : G}
    (hg : ∀ i, nodeWeight g i = nodeWeight net.graph i) :
    Indexed selfZid { net with graph := g } where
  index := h.index.congr hg
  root := by
    obtain ⟨n, hn, hzid⟩ := h.root
    exact ⟨n, by rw [hg, hn], hzid⟩

theorem insertNode (h : Indexed selfZid net) {node : Node} (hnew : net.getIdx node.zid = none) :
    Indexed selfZid (net.insertNode node).1 where
  index := h.index.insertNode hnew
  root := by
    obtain ⟨n, hn, hzid⟩ := h.root
    exact ⟨n, nodeWeight_insertNode_of_some hn, hzid⟩

theorem modify (h : Indexed selfZid net) {f : Node → Node} (hf : ∀ n, (f n).zid = n.zid) (i : ℕ) :
    Indexed selfZid (net.modify i f) where
  index := h.index.modify hf i
  root := by
    obtain ⟨n, hn, hzid⟩ := h.root
    change ∃ m, nodeWeight (net.modify i f).graph net.idx = some m ∧ _
    rw [nodeWeight_modify, hn]
    split_ifs
    · exact ⟨f n, rfl, by rw [hf, hzid]⟩
    · exact ⟨n, rfl, hzid⟩

end Indexed

namespace Rooted

theorem congr (h : Rooted selfZid net) {g : G}
    (hg : ∀ i, nodeWeight g i = nodeWeight net.graph i) :
    Rooted selfZid { net with graph := g } :=
  ⟨h.toIndexed.congr hg, h.full⟩

theorem insertNode (h : Rooted selfZid net) {node : Node} (hnew : net.getIdx node.zid = none) :
    Rooted selfZid (net.insertNode node).1 :=
  ⟨h.toIndexed.insertNode hnew, h.full⟩

theorem modify (h : Rooted selfZid net) {f : Node → Node} (hf : ∀ n, (f n).zid = n.zid) (i : ℕ) :
    Rooted selfZid (net.modify i f) :=
  ⟨h.toIndexed.modify hf i, h.full⟩

end Rooted

variable [EdgeArith ω] {s : Set ℕ}

omit [StableUnGraph G Node ω] in
theorem edgeWeightOf_comm (one two : Node) :
    (edgeWeightOf one two : ω) = edgeWeightOf two one := by
  have hhash : (if compare one.zid two.zid = .gt
        then EdgeArith.finish ω two.zid.bytes one.zid.bytes
        else EdgeArith.finish ω one.zid.bytes two.zid.bytes) =
      if compare two.zid one.zid = .gt then EdgeArith.finish ω one.zid.bytes two.zid.bytes
        else EdgeArith.finish ω two.zid.bytes one.zid.bytes := by
    rw [Std.OrientedOrd.eq_swap (a := two.zid) (b := one.zid)]
    rcases hcmp : compare one.zid two.zid with _ | _ | _
    · simp
    · simp [Std.LawfulEqOrd.eq_of_compare hcmp]
    · simp
  simp only [edgeWeightOf, hhash]
  congr 1
  generalize (one.links[two.zid]?.filter LinkEdgeWeight.isSet).map LinkEdgeWeight.value = w1
  generalize (two.links[one.zid]?.filter LinkEdgeWeight.isSet).map LinkEdgeWeight.value = w2
  rcases w1 with _ | a <;> rcases w2 with _ | b
  · rfl
  · rfl
  · rfl
  · change (if a ≤ b then b else a) = if b ≤ a then a else b
    grind [UInt16.le_antisymm]

/-- The edge between two indices is the one their nodes call for. -/
def Joined (g : G) (i j : ℕ) : Prop :=
  ∀ one two, nodeWeight g i = some one → nodeWeight g j = some two →
    ∀ w, edgeWeight g i j = some w ↔ Mutual one two ∧ w = edgeWeightOf one two

theorem joined_comm {g : G} {i j : ℕ} (h : Joined g i j) : Joined g j i := by
  intro one two hone htwo w
  rw [edgeWeight_comm, h two one htwo hone, mutual_comm, edgeWeightOf_comm]

/-- What is advertised is in the graph, and different nodes are joined as they advertise each other,
but for the nodes in `s`, whose edges lead to nodes that advertise them. -/
structure Settled (s : Set ℕ) (selfZid : Zid) (net : LinkstateNetwork G) : Prop
    extends Rooted selfZid net where
  known : ∀ i n, i ∉ s → nodeWeight net.graph i = some n →
    ∀ zid ∈ n.links, ∃ j, net.getIdx zid = some j
  joined : ∀ i j, i ≠ j → i ∉ s → j ∉ s → Joined net.graph i j
  back : ∀ i one j w, i ∈ s → i ≠ j → nodeWeight net.graph i = some one →
    edgeWeight net.graph i j = some w → ∃ two, nodeWeight net.graph j = some two ∧ one.zid ∈ two.links

structure Topology (selfZid : Zid) (net : LinkstateNetwork G) : Prop extends Rooted selfZid net where
  known : ∀ i n, nodeWeight net.graph i = some n → ∀ zid ∈ n.links, ∃ j, net.getIdx zid = some j
  edges : ∀ i j one two, nodeWeight net.graph i = some one → nodeWeight net.graph j = some two →
    ∀ w, edgeWeight net.graph i j = some w ↔ i ≠ j ∧ Mutual one two ∧ w = edgeWeightOf one two

theorem Topology.of_settled (h : Settled ∅ selfZid net) (hloop : Loopless net) :
    Topology selfZid net where
  toRooted := h.toRooted
  known i n := h.known i n id
  edges i j one two hone htwo w := by
    rcases eq_or_ne i j with rfl | hne
    · simp [hloop i]
    · rw [h.joined i j hne id id one two hone htwo]
      simp [hne]

namespace Settled

theorem insertNode (h : Settled s selfZid net) {node : Node} (hnew : net.getIdx node.zid = none) :
    Settled (insert (net.insertNode node).2 s) selfZid (net.insertNode node).1 where
  toRooted := h.toRooted.insertNode hnew
  known i n hi hn zid hzid := by
    obtain ⟨hne, hi⟩ := not_or.mp hi
    obtain ⟨j, hj⟩ := h.known i n hi (nodeWeight_of_insertNode hne hn) zid hzid
    rw [getIdx_insertNode]
    split_ifs
    · exact ⟨_, rfl⟩
    · exact ⟨j, hj⟩
  joined i j hij hi hj one two hone htwo w := by
    obtain ⟨hine, hi⟩ := not_or.mp hi
    obtain ⟨hjne, hj⟩ := not_or.mp hj
    rw [edgeWeight_insertNode]
    exact h.joined i j hij hi hj one two (nodeWeight_of_insertNode hine hone)
      (nodeWeight_of_insertNode hjne htwo) w
  back i one j w hi hij hone hw := by
    rw [edgeWeight_insertNode] at hw
    obtain ⟨n, hn⟩ := node_of_edge net.graph hw
    have hone' : nodeWeight net.graph i = some one := by
      rw [nodeWeight_insertNode_of_some hn] at hone
      rwa [← Option.some_inj.mp hone]
    have hi : i ∈ s := by
      refine hi.resolve_left ?_
      rintro rfl
      rw [LinkstateNetwork.insertNode, addNode_fresh] at hn
      cases hn
    obtain ⟨two, htwo, hmem⟩ := h.back i one j w hi hij hone' hw
    exact ⟨two, nodeWeight_insertNode_of_some htwo, hmem⟩

theorem close_of_links_empty {i : ℕ} (h : Settled (insert i s) selfZid net) {n : Node}
    (hn : nodeWeight net.graph i = some n) (hlinks : ∀ zid, zid ∉ n.links)
    (hedges : ∀ j, edgeWeight net.graph i j = none) : Settled s selfZid net where
  toRooted := h.toRooted
  known j m hj hm zid hzid := by
    rcases eq_or_ne j i with rfl | hne
    · rw [hn] at hm
      exact absurd (Option.some_inj.mp hm ▸ hzid) (hlinks zid)
    · exact h.known j m (by simp [hne, hj]) hm zid hzid
  joined j k hjk hj hk := by
    have hempty : ∀ k, Joined net.graph i k := by
      intro k one two hone htwo w
      rw [hn] at hone
      obtain rfl := Option.some_inj.mp hone
      simp [hedges k, Mutual, hlinks]
    rcases eq_or_ne j i with rfl | hj'
    · exact hempty k
    rcases eq_or_ne k i with rfl | hk'
    · exact joined_comm (hempty j)
    · exact h.joined j k hjk (by simp [hj, hj']) (by simp [hk, hk'])
  back j one k w hj := h.back j one k w (Set.mem_insert_of_mem i hj)

theorem insertNode_of_links_empty (h : Settled s selfZid net) {node : Node}
    (hnew : net.getIdx node.zid = none) (hlinks : node.links = ∅) :
    Settled s selfZid (net.insertNode node).1 := by
  refine (h.insertNode hnew).close_of_links_empty (n := node) ?_ (by simp [hlinks]) fun j => ?_
  · rw [nodeWeight_insertNode, if_pos rfl]
  · rw [edgeWeight_insertNode]
    exact edgeWeight_of_absent (addNode_fresh net.graph node) j

theorem modify (h : Settled ∅ selfZid net) {f : Node → Node} (hf : ∀ n, (f n).zid = n.zid) (i : ℕ) :
    Settled {i} selfZid (net.modify i f) where
  toRooted := h.toRooted.modify hf i
  known j n hj hn := by
    rw [nodeWeight_modify, if_neg (Ne.symm hj)] at hn
    exact h.known j n id hn
  joined j k hjk hj hk one two hone htwo w := by
    rw [nodeWeight_modify, if_neg (Ne.symm hj)] at hone
    rw [nodeWeight_modify, if_neg (Ne.symm hk)] at htwo
    rw [edgeWeight_modify]
    exact h.joined j k hjk id id one two hone htwo w
  back j one k w hj hjk hone hw := by
    obtain rfl : j = i := hj
    rw [nodeWeight_modify, if_pos rfl] at hone
    obtain ⟨n, hn, rfl⟩ := Option.map_eq_some_iff.mp hone
    rw [edgeWeight_modify] at hw
    obtain ⟨two, htwo⟩ := (nodes_of_edge hw).2
    obtain ⟨hmutual, -⟩ := (h.joined j k hjk id id n two hn htwo w).mp hw
    exact ⟨two, by rw [nodeWeight_modify, if_neg hjk, htwo], by rw [hf]; exact hmutual.2⟩

end Settled

end WatchingZenoh.NetworkGraph
