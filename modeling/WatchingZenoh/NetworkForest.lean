import Mathlib
import WatchingZenoh.NetworkTrees
import WatchingZenoh.NetworkTopology

/-! What the trees of a computation say: the tree of every root in the graph comes from the search from
that root, and the tree at any other index is empty. -/

namespace WatchingZenoh.NetworkGraph

open StableGraph StableUnGraph

theorem getElem?_foldlM_set {α : Type} {f : ℕ → Option α} {indexes : List ℕ} {l l' : List α}
    (h : indexes.foldlM (fun l i => do
      let a ← f i
      some (l.set i a)) l = some l') (hlt : ∀ i ∈ indexes, i < l.length) :
    l'.length = l.length ∧ (∀ i ∈ indexes, l'[i]? = f i ∧ (f i).isSome) ∧
      ∀ i ∉ indexes, l'[i]? = l[i]? := by
  induction indexes generalizing l with
  | nil =>
    cases h
    simp
  | cons i indexes ih =>
    rw [List.foldlM_cons] at h
    obtain ⟨mid, hmid, hrest⟩ := Option.bind_eq_some_iff.mp h
    obtain ⟨a, ha, hset⟩ := Option.bind_eq_some_iff.mp hmid
    cases hset
    obtain ⟨hlength, hin, hout⟩ := ih hrest fun j hj => by
      rw [List.length_set]
      exact hlt j (by simp [hj])
    have hi := hlt i (by simp)
    refine ⟨by rw [hlength, List.length_set], fun j hj => ?_, fun j hj => ?_⟩
    · by_cases hmem : j ∈ indexes
      · exact hin j hmem
      · obtain rfl : j = i := by simpa [hmem] using hj
        rw [hout j hmem, ha]
        simp [hi]
    · rw [List.mem_cons, not_or] at hj
      rw [hout j hj.2, List.getElem?_set_ne (Ne.symm hj.1)]

variable {G ω : Type} [StableUnGraph G Node ω] {net net' : LinkstateNetwork G}

def Live (net : LinkstateNetwork G) (i : ℕ) : Prop := ∃ n, nodeWeight net.graph i = some n

theorem mem_nodeIndices_iff {i : ℕ} : i ∈ nodeIndices net.graph ↔ Live net i :=
  mem_nodeIndices net.graph i

variable [GraphSearch G]

/-- The first hop to a destination, by the walk back from it and the parent of self. -/
def Aimed (net : LinkstateNetwork G) (predecessors : ℕ → Option ℕ) (destination hop : ℕ) : Prop :=
  Live net destination ∧ net.idx ≠ destination ∧ hasPathConnecting net.graph net.idx destination = true ∧
    ∃ direction, climb predecessors net.idx ((nodeIndices net.graph).length + 1) destination =
        some direction ∧ direction.or (predecessors net.idx) = some hop

/-- The directions to the destinations that are done. -/
def Directs (net : LinkstateNetwork G) (predecessors : ℕ → Option ℕ) (done : List ℕ)
    (directions : List (Option ℕ)) : Prop :=
  ∀ i hop, (directions[i]?).join = some hop ↔ i ∈ done ∧ Aimed net predecessors i hop

theorem Directs.aim {predecessors : ℕ → Option ℕ} {directions directions' : List (Option ℕ)}
    {done : List ℕ} {destination : ℕ} (h : Directs net predecessors done directions)
    (heq : net.aim predecessors directions destination = some directions')
    (hlive : Live net destination) (hlt : destination < directions.length) :
    directions'.length = directions.length ∧
      Directs net predecessors (done ++ [destination]) directions' := by
  rw [LinkstateNetwork.aim] at heq
  split_ifs at heq with hskip
  · cases heq
    refine ⟨rfl, fun i hop => ?_⟩
    rw [h, List.mem_append, List.mem_singleton]
    refine and_congr_left fun haimed => ⟨.inl, fun hmem => hmem.resolve_right ?_⟩
    rintro rfl
    simp [haimed.2.1, haimed.2.2.1] at hskip
  obtain ⟨direction, hclimb, hset⟩ := Option.bind_eq_some_iff.mp heq
  cases hset
  refine ⟨List.length_set, fun i hop => ?_⟩
  rw [List.mem_append, List.mem_singleton]
  by_cases hi : i = destination
  · subst hi
    rw [List.getElem?_set_self hlt, Option.join_some]
    simp only [Bool.or_eq_true, decide_eq_true_eq, Bool.not_eq_true', not_or,
      Bool.not_eq_false] at hskip
    refine ⟨fun hhop => ⟨.inr rfl, hlive, hskip.1, hskip.2, direction, hclimb, hhop⟩, ?_⟩
    rintro ⟨-, -, -, -, direction', hclimb', hhop⟩
    rw [hclimb] at hclimb'
    cases hclimb'
    exact hhop
  · rw [List.getElem?_set_ne (Ne.symm hi), h]
    simp [hi]

theorem Directs.aims {predecessors : ℕ → Option ℕ} {directions directions' : List (Option ℕ)}
    {done indexes : List ℕ} (h : Directs net predecessors done directions)
    (heq : indexes.foldlM (net.aim predecessors) directions = some directions')
    (hlive : ∀ i ∈ indexes, Live net i) (hlt : ∀ i ∈ indexes, i < directions.length) :
    Directs net predecessors (done ++ indexes) directions' := by
  induction indexes generalizing directions done with
  | nil =>
    cases heq
    simpa using h
  | cons i indexes ih =>
    rw [List.foldlM_cons] at heq
    obtain ⟨mid, hmid, hrest⟩ := Option.bind_eq_some_iff.mp heq
    obtain ⟨hlength, hdirects⟩ := h.aim hmid (hlive i (by simp)) (hlt i (by simp))
    have hdone := ih hdirects hrest (fun j hj => hlive j (by simp [hj]))
      fun j hj => hlength ▸ hlt j (by simp [hj])
    rwa [List.append_assoc, List.singleton_append] at hdone

/-- What the tree of a root says, by the search from the root. -/
structure Planned (net : LinkstateNetwork G) (root : ℕ) (tree : Tree) : Prop where
  searched : ∃ predecessors, bellmanFord net.graph root = some predecessors ∧
    tree.parent = predecessors net.idx ∧
    (∀ i, i ∈ tree.children ↔ Live net i ∧ predecessors i = some net.idx) ∧
    ∀ i hop, (tree.directions[i]?).join = some hop ↔ Aimed net predecessors i hop
  nodup : tree.children.Nodup

theorem planned_of_treeFrom {maxIdx root : ℕ} {tree : Tree}
    (h : net.treeFrom maxIdx root = some tree) (hmax : ∀ i, Live net i → i ≤ maxIdx) :
    Planned net root tree := by
  simp only [LinkstateNetwork.treeFrom, Option.bind_eq_bind, Option.bind_eq_some_iff] at h
  obtain ⟨predecessors, hsearch, directions, hfold, heq⟩ := h
  cases heq
  have hlive : ∀ i ∈ nodeIndices net.graph, Live net i := fun i hi => mem_nodeIndices_iff.mp hi
  have hstart : Directs net predecessors [] (List.replicate (maxIdx + 1) none) := by
    intro i hop
    rw [List.getElem?_replicate]
    split_ifs <;> simp
  have hdirects := hstart.aims hfold hlive fun i hi => by
    rw [List.length_replicate]
    exact Nat.lt_succ_of_le (hmax i (hlive i hi))
  refine ⟨⟨predecessors, hsearch, rfl, fun i => ?_, fun i hop => ?_⟩,
    (nodeIndices_nodup net.graph).filter _⟩
  · rw [List.mem_filter, decide_eq_true_eq, mem_nodeIndices_iff]
  · rw [hdirects, List.nil_append, mem_nodeIndices_iff]
    exact ⟨And.right, fun haimed => ⟨haimed.1, haimed⟩⟩

theorem exists_treeFrom (maxIdx : ℕ) {root : ℕ} (h : (bellmanFord net.graph root).isSome) :
    ∃ tree, net.treeFrom maxIdx root = some tree := by
  obtain ⟨predecessors, hsearch⟩ := Option.isSome_iff_exists.mp h
  obtain ⟨rank, hrank⟩ := GraphSearch.ranked hsearch
  have hlive : ∀ i p, predecessors i = some p → p ∈ (nodeIndices net.graph).toFinset := by
    intro i p hp
    obtain ⟨w, hw⟩ := GraphSearch.edge_of_predecessor hsearch hp
    exact List.mem_toFinset.mpr (mem_nodeIndices_iff.mpr (nodes_of_edge hw).1)
  have haim : ∀ directions destination, ∃ directions',
      net.aim predecessors directions destination = some directions' := by
    intro directions destination
    have hfuel : ((nodeIndices net.graph).toFinset.filter fun j => rank j < rank destination).card <
        (nodeIndices net.graph).length + 1 :=
      Nat.lt_succ_of_le ((Finset.card_filter_le _ _).trans (List.toFinset_card_le _))
    have hclimb : ∃ hop, climb predecessors net.idx ((nodeIndices net.graph).length + 1) destination =
        some hop := (exists_climb hrank hlive _ _ hfuel).imp fun _ => And.left
    obtain ⟨hop, hclimb⟩ := hclimb
    rw [LinkstateNetwork.aim, hclimb]
    split_ifs <;> exact ⟨_, rfl⟩
  obtain ⟨directions, hfold, -⟩ := Steps.foldlM_keeps (P := fun _ _ => True) (nodeIndices net.graph)
    (fun _ directions i _ _ => (haim directions i).imp fun _ heq => ⟨heq, trivial⟩) []
    (s := List.replicate (maxIdx + 1) none) trivial
  simp only [LinkstateNetwork.treeFrom, hsearch, hfold, Option.bind_eq_bind, Option.bind_some]
  exact ⟨_, rfl⟩

/-- A computation sets the tree of every root in the graph and leaves nothing else. -/
structure Computed (net net' : LinkstateNetwork G) : Prop where
  frame : net' = { net with trees := net'.trees }
  planned : ∀ root, Live net root → ∃ tree, net'.trees[root]? = some tree ∧ Planned net root tree
  vacant : ∀ root tree, ¬Live net root → net'.trees[root]? = some tree → tree = {}

omit [GraphSearch G] in
theorem exists_max (h : Live net net.idx) : ∃ maxIdx, (nodeIndices net.graph).max? = some maxIdx ∧
    ∀ i, Live net i → i ≤ maxIdx := by
  rcases hmax : (nodeIndices net.graph).max? with _ | maxIdx
  · rw [List.max?_eq_none_iff] at hmax
    have := mem_nodeIndices_iff.mpr h
    simp [hmax] at this
  · refine ⟨maxIdx, rfl, fun i hi => ?_⟩
    exact (List.max?_eq_some_iff.mp hmax).2 i (mem_nodeIndices_iff.mpr hi)

theorem computed_of_computeTrees (h : Live net net.idx) {delta : List (Zid × List Zid)}
    (heq : net.computeTrees = some (net', delta)) : Computed net net' ∧
      (nodeIndices net.graph).foldlM (net'.noteGained (net.trees.map Tree.children)) [] = some delta := by
  obtain ⟨maxIdx, hmax, hle⟩ := exists_max h
  simp only [LinkstateNetwork.computeTrees, hmax, Option.bind_eq_bind, Option.bind_eq_some_iff] at heq
  obtain ⟨trees, hfold, delta', hnoted, hpair⟩ := heq
  cases hpair
  obtain ⟨-, hin, hout⟩ := getElem?_foldlM_set hfold fun i hi => by
    rw [List.length_replicate]
    exact Nat.lt_succ_of_le (hle i (mem_nodeIndices_iff.mp hi))
  refine ⟨⟨rfl, fun root hroot => ?_, fun root tree hroot htree => ?_⟩, hnoted⟩
  · obtain ⟨heq, hsome⟩ := hin root (mem_nodeIndices_iff.mpr hroot)
    obtain ⟨tree, htree⟩ := Option.isSome_iff_exists.mp hsome
    exact ⟨tree, heq.trans htree, planned_of_treeFrom htree hle⟩
  · have hvacant := hout root fun hmem => hroot (mem_nodeIndices_iff.mp hmem)
    have htree : trees[root]? = some tree := htree
    rw [hvacant, List.getElem?_replicate] at htree
    split_ifs at htree
    exact (Option.some_inj.mp htree).symm

end WatchingZenoh.NetworkGraph
