import Mathlib
import WatchingZenoh.Library.Steps
import WatchingZenoh.NetworkRebuild

/-! Nodes that no chain of advertisements leads to from the node itself are dropped: exactly those are
reported, what remains advertises nothing that was dropped, and the cached trees lose every mention of
the freed indices. -/

namespace WatchingZenoh.NetworkGraph

open StableGraph StableUnGraph LinkstateNetwork
open Std (ExtTreeMap)

variable {G ω : Type} [StableUnGraph G Node ω]
variable {selfZid : Zid} {net : LinkstateNetwork G}

/-- The node at `i` advertises the one at `j`. -/
def Advertises (net : LinkstateNetwork G) (i j : ℕ) : Prop :=
  ∃ n, nodeWeight net.graph i = some n ∧ ∃ zid ∈ n.links, net.getIdx zid = some j

/-- A chain of advertisements leads from the node itself to `i`. -/
def Reachable (net : LinkstateNetwork G) (i : ℕ) : Prop :=
  Relation.ReflTransGen (Advertises net) net.idx i

/-- What is left of `net` once the nodes that cannot be reached have been dropped. -/
structure Collected (net net' : LinkstateNetwork G) (removed : List Zid) : Prop where
  frame : net' = { net with graph := net'.graph, idxByZid := net'.idxByZid, trees := net'.trees }
  node : ∀ i n, nodeWeight net'.graph i = some n ↔ nodeWeight net.graph i = some n ∧ Reachable net i
  removed : ∀ zid, zid ∈ removed ↔
    ∃ i n, nodeWeight net.graph i = some n ∧ n.zid = zid ∧ ¬Reachable net i
  trees : ∃ freed, (∀ i, i ∈ freed ↔ (∃ n, nodeWeight net.graph i = some n) ∧ ¬Reachable net i) ∧
    net'.trees = (net.scrubTrees freed).trees
  loopless : Loopless net → Loopless net'

theorem Inverse.removeNode (h : Inverse net) {i : ℕ} {n : Node}
    (hn : nodeWeight net.graph i = some n) :
    Inverse
      { net with graph := removeNode net.graph i, idxByZid := net.idxByZid.erase n.zid } := by
  intro zid j
  change (net.idxByZid.erase n.zid)[zid]? = some j ↔ _
  rw [ExtTreeMap.getElem?_erase, nodeWeight_removeNode]
  simp only [Std.LawfulEqCmp.compare_eq_iff_eq]
  have hindex := h zid j
  rw [getIdx] at hindex
  constructor
  · intro hj
    split_ifs at hj with hzid
    obtain ⟨m, hm, rfl⟩ := hindex.mp hj
    have hij : i ≠ j := by
      rintro rfl
      rw [hn] at hm
      exact hzid (congrArg Node.zid (Option.some_inj.mp hm))
    exact ⟨m, by rw [if_neg hij, hm], rfl⟩
  · rintro ⟨m, hm, rfl⟩
    split_ifs at hm with hij
    rw [if_neg fun hzid => hij (h.zid_inj hn hm hzid)]
    exact hindex.mpr ⟨m, hm, rfl⟩

theorem Indexed.removeNode (h : Indexed selfZid net) {i : ℕ} {n : Node}
    (hn : nodeWeight net.graph i = some n) (hne : i ≠ net.idx) :
    Indexed selfZid
      { net with graph := removeNode net.graph i, idxByZid := net.idxByZid.erase n.zid } where
  index := h.index.removeNode hn
  root := by
    obtain ⟨m, hm, hzid⟩ := h.root
    exact ⟨m, by rw [nodeWeight_removeNode, if_neg hne, hm], hzid⟩

/-- What is left of `net`, and what is noted, once the indices in `done` that were not visited have
been dropped. -/
structure Pruned (selfZid : Zid) (net : LinkstateNetwork G) (visited : Finset ℕ) (done : List ℕ)
    (s : LinkstateNetwork G × List Zid × List ℕ) : Prop extends Indexed selfZid s.1 where
  frame : s.1 = { net with graph := s.1.graph, idxByZid := s.1.idxByZid }
  node : ∀ i, nodeWeight s.1.graph i =
    if i ∈ done ∧ i ∉ visited then none else nodeWeight net.graph i
  edge : ∀ a b, edgeWeight s.1.graph a b =
    if (a ∈ done ∧ a ∉ visited) ∨ (b ∈ done ∧ b ∉ visited) then none else edgeWeight net.graph a b
  removed : ∀ zid, zid ∈ s.2.1 ↔
    ∃ i n, i ∈ done ∧ i ∉ visited ∧ nodeWeight net.graph i = some n ∧ n.zid = zid
  freed : ∀ i, i ∈ s.2.2 ↔ i ∈ done ∧ i ∉ visited ∧ ∃ n, nodeWeight net.graph i = some n

namespace Pruned

variable {visited : Finset ℕ} {done : List ℕ} {s : LinkstateNetwork G × List Zid × List ℕ}

theorem skip (h : Pruned selfZid net visited done s) {i : ℕ}
    (hi : i ∉ visited → nodeWeight s.1.graph i = none) :
    Pruned selfZid net visited (done ++ [i]) s where
  toIndexed := h.toIndexed
  frame := h.frame
  node j := by
    by_cases hj : j = i ∧ i ∉ visited
    · obtain ⟨rfl, hj⟩ := hj
      rw [hi hj, if_pos ⟨by simp, hj⟩]
    · rw [h.node]
      refine if_congr ?_ rfl rfl
      grind
  edge a b := by
    have habsent : ∀ {a}, a = i ∧ i ∉ visited → ∀ b, edgeWeight s.1.graph a b = none := by
      rintro a ⟨rfl, ha⟩ b
      exact edgeWeight_of_absent (hi ha) b
    by_cases ha : a = i ∧ i ∉ visited
    · rw [habsent ha, if_pos (.inl ⟨by simp [ha.1], ha.1 ▸ ha.2⟩)]
    by_cases hb : b = i ∧ i ∉ visited
    · rw [edgeWeight_comm, habsent hb, if_pos (.inr ⟨by simp [hb.1], hb.1 ▸ hb.2⟩)]
    · rw [h.edge]
      refine if_congr ?_ rfl rfl
      grind
  removed zid := by
    rw [h.removed]
    have hnode := h.node i
    grind
  freed j := by
    rw [h.freed]
    have hnode := h.node i
    grind

theorem dropUnvisited (h : Pruned selfZid net visited done s) (hroot : net.idx ∈ visited) (i : ℕ) :
    Pruned selfZid net visited (done ++ [i]) (LinkstateNetwork.dropUnvisited visited s i) := by
  unfold LinkstateNetwork.dropUnvisited
  by_cases hi : i ∈ visited
  · simpa [hi] using h.skip fun hi' => absurd hi hi'
  rcases hn : nodeWeight s.1.graph i with _ | n
  · simpa [hi, hn] using h.skip fun _ => hn
  simp only [hi, ↓reduceIte, hn]
  have hne : i ≠ s.1.idx := by
    rintro rfl
    rw [h.frame] at hi
    exact hi hroot
  have hnode := h.node i
  refine ⟨h.toIndexed.removeNode hn hne, ?_, fun j => ?_, fun a b => ?_, fun zid => ?_, fun j => ?_⟩
  · rw [h.frame]
  · rw [nodeWeight_removeNode, h.node]
    grind
  · rw [edgeWeight_removeNode, h.edge]
    grind
  · rw [List.mem_append, h.removed]
    grind
  · rw [List.mem_append, h.freed]
    grind

end Pruned

theorem mapIdx_snd {α : Type} (l : List α) : l.mapIdx (fun _ a => a) = l :=
  List.ext_getElem? fun i => by simp

theorem scrub_nil (tree : Tree) : tree.scrub [] = tree := by
  have hfilter : ∀ o : Option ℕ, o.filter (fun i => decide (i ∉ ([] : List ℕ))) = o := by
    rintro (_ | i) <;> simp
  cases tree
  simp only [Tree.scrub, hfilter]
  simp [mapIdx_snd]

theorem scrubTrees_nil (net : LinkstateNetwork G) : net.scrubTrees [] = net := by
  simp [scrubTrees, scrub_nil, mapIdx_snd]

section Walk

variable [HashOrder]

theorem mem_advertised {i j : ℕ} : j ∈ net.advertised i ↔ Advertises net i j := by
  rw [advertised, Advertises]
  split
  · next n hn => simp [hn, mem_keys]
  · next hn => simp [hn]

theorem exists_visited (h : Indexed selfZid net) :
    ∃ visited, DepthFirst.walk (nodeIndices net.graph).toFinset net.advertised
        (nodeIndices net.graph).toFinset.card [net.idx] ∅ = some visited ∧
      ∀ i, i ∈ visited ↔ Reachable net i := by
  have hlive : ∀ {i : ℕ}, i ∈ (nodeIndices net.graph).toFinset ↔
      ∃ n, nodeWeight net.graph i = some n := by
    simp [mem_nodeIndices]
  obtain ⟨n, hn, -⟩ := h.root
  obtain ⟨visited, hwalk, -, hroot, hclosed, hfrom⟩ := DepthFirst.exists_walk
    (show ∀ i ∈ (nodeIndices net.graph).toFinset, ∀ j ∈ net.advertised i, _ from by
      intro i _ j hj
      obtain ⟨m, -, zid, -, hzid⟩ := mem_advertised.mp hj
      obtain ⟨k, hk, -⟩ := (h.index zid j).mp hzid
      exact hlive.mpr ⟨k, hk⟩) (nodeIndices net.graph).toFinset.card [net.idx] ∅ (by simp)
    (by simpa using hlive.mpr ⟨n, hn⟩) (by simp [DepthFirst.Pending])
  refine ⟨visited, hwalk, fun i => ⟨fun hi => ?_, fun hi => ?_⟩⟩
  · obtain ⟨j, hj, hpath⟩ := (hfrom i hi).resolve_left (by simp)
    obtain rfl := List.mem_singleton.mp hj
    exact Relation.ReflTransGen.mono (fun _ _ => mem_advertised.mp) _ _ hpath
  · induction hi with
    | refl => exact hroot net.idx (by simp)
    | tail _ hstep ih => exact hclosed _ ih _ (mem_advertised.mpr hstep)

theorem exists_removeDetachedNodes (h : Indexed selfZid net) :
    ∃ net' removed, net.removeDetachedNodes = some (net', removed) ∧ Collected net net' removed ∧
      Indexed selfZid net' ∧
      ∀ a b, Reachable net a → Reachable net b →
        edgeWeight net'.graph a b = edgeWeight net.graph a b := by
  obtain ⟨visited, hwalk, hvisited⟩ := exists_visited h
  have hpruned := Steps.foldl_keeps (f := LinkstateNetwork.dropUnvisited visited)
    (P := Pruned selfZid net visited)
    (fun done s i hs => hs.dropUnvisited ((hvisited net.idx).mpr .refl) i)
    (nodeIndices net.graph) [] (s := (net, [], []))
    ⟨h, rfl, by simp, by simp, by simp, by simp⟩
  rw [List.nil_append] at hpruned
  set s := (nodeIndices net.graph).foldl (LinkstateNetwork.dropUnvisited visited) (net, [], [])
    with hs
  have heq : net.removeDetachedNodes = some (s.1.scrubTrees s.2.2, s.2.1) := by
    rw [removeDetachedNodes, hwalk]
    simp only [Option.bind_eq_bind, Option.bind_some, ← hs]
    rcases hfreed : s.2.2 with _ | ⟨i, rest⟩
    · simp [scrubTrees_nil]
    · simp
  have hlive : ∀ {i : ℕ} {n : Node}, nodeWeight net.graph i = some n →
      i ∈ nodeIndices net.graph := fun hn => (mem_nodeIndices net.graph _).mpr ⟨_, hn⟩
  have hnode : ∀ i n, nodeWeight s.1.graph i = some n ↔
      nodeWeight net.graph i = some n ∧ Reachable net i := by
    intro i n
    rw [hpruned.node, ← hvisited]
    grind
  refine ⟨_, _, heq, ⟨?_, hnode, fun zid => ?_, ⟨s.2.2, fun i => ?_, ?_⟩, fun hloop i => ?_⟩,
    ⟨hpruned.index, hpruned.root⟩, fun a b ha hb => ?_⟩
  · rw [scrubTrees, hpruned.frame]
  · rw [hpruned.removed]
    grind
  · rw [hpruned.freed, mem_nodeIndices, ← hvisited]
    tauto
  · rw [scrubTrees, hpruned.frame]
    rfl
  · change edgeWeight s.1.graph i i = none
    rw [hpruned.edge, hloop i]
    split_ifs <;> rfl
  · change edgeWeight s.1.graph a b = _
    rw [hpruned.edge, if_neg (by simp [(hvisited a).mpr ha, (hvisited b).mpr hb])]

end Walk

end WatchingZenoh.NetworkGraph
