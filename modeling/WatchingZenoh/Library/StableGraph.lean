import Mathlib

/-! Undirected graphs whose indices stay put while other nodes come and go. The interface says what
each operation does to the nodes and to the edges, and leaves open which index a new node is given as
long as it is not in use. One graph of this kind follows: a removed node leaves its index vacant, and
of the vacant indices the one left last is used first. -/

namespace WatchingZenoh.StableGraph

open Std (ExtTreeMap)

/-- Between two nodes there is at most one edge, so an edge is named by its ends. -/
class StableUnGraph (G : Type) (ν ω : outParam Type) where
  default : G
  nodeWeight : G → ℕ → Option ν
  edgeWeight : G → ℕ → ℕ → Option ω
  nodeIndices : G → List ℕ
  neighbors : G → ℕ → List ℕ
  addNode : G → ν → G × ℕ
  modifyNode : G → ℕ → (ν → ν) → G
  removeNode : G → ℕ → G
  updateEdge : G → ℕ → ℕ → ω → G
  removeEdge : G → ℕ → ℕ → G
  nodeWeight_default (i : ℕ) : nodeWeight default i = none
  edgeWeight_default (a b : ℕ) : edgeWeight default a b = none
  mem_nodeIndices (g : G) (i : ℕ) : i ∈ nodeIndices g ↔ ∃ n, nodeWeight g i = some n
  nodeIndices_nodup (g : G) : (nodeIndices g).Nodup
  mem_neighbors (g : G) (i j : ℕ) : j ∈ neighbors g i ↔ ∃ w, edgeWeight g i j = some w
  edgeWeight_comm (g : G) (a b : ℕ) : edgeWeight g a b = edgeWeight g b a
  node_of_edge (g : G) {a b : ℕ} {w : ω} :
    edgeWeight g a b = some w → ∃ n, nodeWeight g a = some n
  addNode_fresh (g : G) (n : ν) : nodeWeight g (addNode g n).2 = none
  nodeWeight_addNode (g : G) (n : ν) (i : ℕ) :
    nodeWeight (addNode g n).1 i = if (addNode g n).2 = i then some n else nodeWeight g i
  edgeWeight_addNode (g : G) (n : ν) (a b : ℕ) : edgeWeight (addNode g n).1 a b = edgeWeight g a b
  nodeWeight_modifyNode (g : G) (i : ℕ) (f : ν → ν) (j : ℕ) :
    nodeWeight (modifyNode g i f) j = if i = j then (nodeWeight g j).map f else nodeWeight g j
  edgeWeight_modifyNode (g : G) (i : ℕ) (f : ν → ν) (a b : ℕ) :
    edgeWeight (modifyNode g i f) a b = edgeWeight g a b
  nodeWeight_removeNode (g : G) (i j : ℕ) :
    nodeWeight (removeNode g i) j = if i = j then none else nodeWeight g j
  edgeWeight_removeNode (g : G) (i a b : ℕ) :
    edgeWeight (removeNode g i) a b = if a = i ∨ b = i then none else edgeWeight g a b
  nodeWeight_updateEdge (g : G) (a b : ℕ) (w : ω) (i : ℕ) :
    nodeWeight (updateEdge g a b w) i = nodeWeight g i
  edgeWeight_updateEdge (g : G) {a b : ℕ} (w : ω) (c d : ℕ) :
    a ∈ nodeIndices g → b ∈ nodeIndices g →
      edgeWeight (updateEdge g a b w) c d =
        if (a = c ∧ b = d) ∨ (a = d ∧ b = c) then some w else edgeWeight g c d
  nodeWeight_removeEdge (g : G) (a b i : ℕ) : nodeWeight (removeEdge g a b) i = nodeWeight g i
  edgeWeight_removeEdge (g : G) (a b c d : ℕ) :
    edgeWeight (removeEdge g a b) c d =
      if (a = c ∧ b = d) ∨ (a = d ∧ b = c) then none else edgeWeight g c d

namespace StableUnGraph

variable {G ν ω : Type} [StableUnGraph G ν ω] {g : G}

theorem nodes_of_edge {a b : ℕ} {w : ω} (h : edgeWeight g a b = some w) :
    (∃ n, nodeWeight g a = some n) ∧ ∃ n, nodeWeight g b = some n :=
  ⟨node_of_edge g h, node_of_edge g (edgeWeight_comm g a b ▸ h)⟩

theorem edgeWeight_of_absent {a : ℕ} (h : nodeWeight g a = none) (b : ℕ) :
    edgeWeight g a b = none := by
  rcases hw : edgeWeight g a b with _ | w
  · rfl
  · obtain ⟨n, hn⟩ := node_of_edge g hw
    simp [h] at hn

theorem nodeWeight_removeEdges (i : ℕ) (far : List ℕ) (g : G) (a : ℕ) :
    nodeWeight (far.foldl (fun g j => removeEdge g i j) g) a = nodeWeight g a := by
  induction far generalizing g with
  | nil => rfl
  | cons j far ih => rw [List.foldl_cons, ih, nodeWeight_removeEdge]

theorem edgeWeight_removeEdges (i : ℕ) (far : List ℕ) (g : G) (a b : ℕ) :
    edgeWeight (far.foldl (fun g j => removeEdge g i j) g) a b =
      if (a = i ∧ b ∈ far) ∨ (b = i ∧ a ∈ far) then none else edgeWeight g a b := by
  induction far generalizing g with
  | nil => simp
  | cons j far ih =>
    rw [List.foldl_cons, ih, edgeWeight_removeEdge]
    grind

end StableUnGraph

/-- Pairs by their first components, then by their second. -/
instance instOrdPair : Ord (ℕ × ℕ) := lexOrd

/-- An edge is kept under its two ends, the smaller one first. -/
structure UnGraph (ν ω : Type) where
  nodes : ExtTreeMap ℕ ν
  vacant : List ℕ
  nodeBound : ℕ
  edges : ExtTreeMap (ℕ × ℕ) ω
  live_lt : ∀ i n, nodes[i]? = some n → i < nodeBound
  vacant_lt : ∀ i ∈ vacant, i < nodeBound
  vacant_nodup : vacant.Nodup
  vacant_absent : ∀ i ∈ vacant, nodes[i]? = none
  edge_live : ∀ (e : ℕ × ℕ) w, edges[e]? = some w → e.1 ≤ e.2 ∧ e.1 ∈ nodes ∧ e.2 ∈ nodes

variable {ν ω : Type}

namespace UnGraph

def empty : UnGraph ν ω where
  nodes := ∅
  vacant := []
  nodeBound := 0
  edges := ∅
  live_lt := by simp
  vacant_lt := by simp
  vacant_nodup := List.nodup_nil
  vacant_absent := by simp
  edge_live := by simp

variable (g : UnGraph ν ω)

def ends (a b : ℕ) : ℕ × ℕ := (min a b, max a b)

def edge? (a b : ℕ) : Option ω := g.edges[ends a b]?

/-- The new node and its index: a vacant one, or the next that was never used. -/
def addNode (n : ν) : UnGraph ν ω × ℕ :=
  match hvacant : g.vacant with
  | i :: rest =>
    ({ g with
      nodes := g.nodes.insert i n
      vacant := rest
      live_lt := by
        intro j m hm
        rw [ExtTreeMap.getElem?_insert] at hm
        split_ifs at hm with heq
        · obtain rfl : i = j := by simpa using heq
          exact g.vacant_lt i (by simp [hvacant])
        · exact g.live_lt j m hm
      vacant_lt := fun j hj => g.vacant_lt j (by simp [hvacant, hj])
      vacant_nodup := (List.nodup_cons.mp (hvacant ▸ g.vacant_nodup)).2
      vacant_absent := by
        intro j hj
        have hne : i ≠ j := by
          rintro rfl
          exact (List.nodup_cons.mp (hvacant ▸ g.vacant_nodup)).1 hj
        rw [ExtTreeMap.getElem?_insert, if_neg (by simpa using hne)]
        exact g.vacant_absent j (by simp [hvacant, hj])
      edge_live := fun e w h => by simp [ExtTreeMap.mem_insert, g.edge_live e w h] }, i)
  | [] =>
    ({ g with
      nodes := g.nodes.insert g.nodeBound n
      nodeBound := g.nodeBound + 1
      live_lt := by
        intro j m hm
        rw [ExtTreeMap.getElem?_insert] at hm
        split_ifs at hm with heq
        · obtain rfl : g.nodeBound = j := by simpa using heq
          exact Nat.lt_succ_self _
        · exact (g.live_lt j m hm).trans (Nat.lt_succ_self _)
      vacant_lt := by simp [hvacant]
      vacant_absent := by simp [hvacant]
      edge_live := fun e w h => by simp [ExtTreeMap.mem_insert, g.edge_live e w h] }, g.nodeBound)

def modify (i : ℕ) (f : ν → ν) : UnGraph ν ω :=
  match hnode : g.nodes[i]? with
  | none => g
  | some n =>
    { g with
      nodes := g.nodes.insert i (f n)
      live_lt := by
        intro j m hm
        rw [ExtTreeMap.getElem?_insert] at hm
        split_ifs at hm with heq
        · obtain rfl : i = j := by simpa using heq
          exact g.live_lt i n hnode
        · exact g.live_lt j m hm
      vacant_absent := by
        intro j hj
        have habsent := g.vacant_absent j hj
        have hne : i ≠ j := by
          rintro rfl
          simp [hnode] at habsent
        rw [ExtTreeMap.getElem?_insert, if_neg (by simpa using hne), habsent]
      edge_live := fun e w h => by simp [ExtTreeMap.mem_insert, g.edge_live e w h] }

def removeNode (i : ℕ) : UnGraph ν ω :=
  match hnode : g.nodes[i]? with
  | none => g
  | some n =>
    { nodes := g.nodes.erase i
      vacant := i :: g.vacant
      nodeBound := g.nodeBound
      edges := g.edges.filter fun e _ => e.1 ≠ i ∧ e.2 ≠ i
      live_lt := by
        intro j m hm
        rw [ExtTreeMap.getElem?_erase] at hm
        split_ifs at hm
        exact g.live_lt j m hm
      vacant_lt := by
        intro j hj
        rcases List.mem_cons.mp hj with rfl | hj
        · exact g.live_lt j n hnode
        · exact g.vacant_lt j hj
      vacant_nodup := by
        refine List.nodup_cons.mpr ⟨fun hi => ?_, g.vacant_nodup⟩
        simp [g.vacant_absent i hi] at hnode
      vacant_absent := by
        intro j hj
        rw [ExtTreeMap.getElem?_erase]
        split_ifs with heq
        · rfl
        · rcases List.mem_cons.mp hj with rfl | hj
          · simp at heq
          · exact g.vacant_absent j hj
      edge_live := by
        intro e w h
        rw [ExtTreeMap.getElem?_filter'] at h
        obtain ⟨hw, hne⟩ := Option.filter_eq_some_iff.mp h
        obtain ⟨hle, hone, htwo⟩ := g.edge_live e w hw
        simp only [decide_eq_true_eq] at hne
        simp [ExtTreeMap.mem_erase, hle, hone, htwo, Ne.symm hne.1, Ne.symm hne.2] }

/-- The weight of the edge between two nodes, which is added if there is none; indices without a node
are refused by a panic. -/
def updateEdge (a b : ℕ) (w : ω) : UnGraph ν ω :=
  if hlive : a ∈ g.nodes ∧ b ∈ g.nodes then
    { g with
      edges := g.edges.insert (ends a b) w
      edge_live := by
        intro e w' h
        rw [ExtTreeMap.getElem?_insert] at h
        split_ifs at h with heq
        · obtain rfl : ends a b = e := by simpa using heq
          refine ⟨le_max_of_le_left (min_le_left a b), ?_⟩
          rcases le_total a b with hle | hle
          · simpa [ends, hle] using hlive
          · simpa [ends, hle] using hlive.symm
        · exact g.edge_live e w' h }
  else g

def removeEdge (a b : ℕ) : UnGraph ν ω :=
  { g with
    edges := g.edges.erase (ends a b)
    edge_live := by
      intro e w h
      rw [ExtTreeMap.getElem?_erase] at h
      split_ifs at h
      exact g.edge_live e w h }

def neighbors (i : ℕ) : List ℕ :=
  g.edges.toList.filterMap fun entry =>
    if entry.1.1 = i then some entry.1.2
    else if entry.1.2 = i then some entry.1.1
    else none

section Lemmas

variable {g}

theorem ends_comm (a b : ℕ) : ends a b = ends b a := by
  simp [ends, min_comm, max_comm]

theorem ends_eq_iff {a b c d : ℕ} : ends a b = ends c d ↔ (a = c ∧ b = d) ∨ (a = d ∧ b = c) := by
  simp only [ends, Prod.mk.injEq]
  omega

theorem edge?_comm (g : UnGraph ν ω) (a b : ℕ) : g.edge? a b = g.edge? b a := by
  rw [edge?, ends_comm, edge?]

theorem live_of_edge {a b : ℕ} {w : ω} (h : g.edge? a b = some w) : a ∈ g.nodes ∧ b ∈ g.nodes := by
  have hlive := (g.edge_live _ w h).2
  rcases le_total a b with hle | hle
  · simpa [ends, hle] using hlive
  · simpa [ends, hle] using hlive.symm

theorem mem_nodes_iff {i : ℕ} : i ∈ g.nodes ↔ ∃ n, g.nodes[i]? = some n := by
  rw [ExtTreeMap.mem_iff_isSome_getElem?, Option.isSome_iff_exists]

theorem edge?_of_absent {i : ℕ} (h : g.nodes[i]? = none) (j : ℕ) : g.edge? i j = none := by
  rcases hw : g.edge? i j with _ | w
  · rfl
  · obtain ⟨n, hn⟩ := mem_nodes_iff.mp (live_of_edge hw).1
    simp [h] at hn

@[simp] theorem nodes_empty (i : ℕ) : (empty : UnGraph ν ω).nodes[i]? = none := by simp [empty]

@[simp] theorem edge?_empty (a b : ℕ) : (empty : UnGraph ν ω).edge? a b = none := by
  simp [empty, edge?]

theorem addNode_fresh (g : UnGraph ν ω) (n : ν) : g.nodes[(g.addNode n).2]? = none := by
  unfold addNode
  split
  · next i rest hvacant => exact g.vacant_absent i (by simp [hvacant])
  · rcases hn : g.nodes[g.nodeBound]? with _ | n
    · rfl
    · exact absurd (g.live_lt _ n hn) (lt_irrefl _)

theorem nodes_addNode (g : UnGraph ν ω) (n : ν) (i : ℕ) :
    (g.addNode n).1.nodes[i]? = if (g.addNode n).2 = i then some n else g.nodes[i]? := by
  unfold addNode
  split <;> simp [ExtTreeMap.getElem?_insert]

@[simp] theorem edge?_addNode (g : UnGraph ν ω) (n : ν) (a b : ℕ) :
    (g.addNode n).1.edge? a b = g.edge? a b := by
  unfold addNode
  split <;> rfl

theorem nodes_modify (g : UnGraph ν ω) (i : ℕ) (f : ν → ν) (j : ℕ) :
    (g.modify i f).nodes[j]? = if i = j then g.nodes[j]?.map f else g.nodes[j]? := by
  unfold modify
  split
  · next hnode =>
    split_ifs with heq
    · simp [← heq, hnode]
    · rfl
  · next n hnode =>
    by_cases heq : i = j
    · simp [← heq, hnode]
    · simp [ExtTreeMap.getElem?_insert, heq]

@[simp] theorem edge?_modify (g : UnGraph ν ω) (i : ℕ) (f : ν → ν) (a b : ℕ) :
    (g.modify i f).edge? a b = g.edge? a b := by
  unfold modify
  split <;> rfl

theorem nodes_removeNode (g : UnGraph ν ω) (i j : ℕ) :
    (g.removeNode i).nodes[j]? = if i = j then none else g.nodes[j]? := by
  unfold removeNode
  split
  · next hnode =>
    split_ifs with heq
    · rw [← heq, hnode]
    · rfl
  · simp [ExtTreeMap.getElem?_erase]

theorem edge?_removeNode (g : UnGraph ν ω) (i a b : ℕ) :
    (g.removeNode i).edge? a b = if a = i ∨ b = i then none else g.edge? a b := by
  unfold removeNode
  split
  · next hnode =>
    split_ifs with heq
    · rcases heq with rfl | rfl
      · exact edge?_of_absent hnode b
      · rw [edge?_comm]
        exact edge?_of_absent hnode a
    · rfl
  · have hends : ((ends a b).1 ≠ i ∧ (ends a b).2 ≠ i) ↔ ¬(a = i ∨ b = i) := by
      simp only [ends]
      omega
    rw [edge?, ExtTreeMap.getElem?_filter']
    simp only [hends]
    split_ifs with heq
    · simp [heq]
    · rcases hw : g.edges[ends a b]? with _ | w
      · simp [edge?, hw]
      · simp [edge?, hw, heq]

@[simp] theorem nodes_updateEdge (g : UnGraph ν ω) (a b : ℕ) (w : ω) :
    (g.updateEdge a b w).nodes = g.nodes := by
  unfold updateEdge
  split_ifs <;> rfl

theorem edge?_updateEdge {a b : ℕ} (ha : a ∈ g.nodes) (hb : b ∈ g.nodes) (w : ω) (c d : ℕ) :
    (g.updateEdge a b w).edge? c d =
      if (a = c ∧ b = d) ∨ (a = d ∧ b = c) then some w else g.edge? c d := by
  rw [updateEdge, dif_pos ⟨ha, hb⟩, edge?, ExtTreeMap.getElem?_insert]
  simp only [Std.LawfulEqCmp.compare_eq_iff_eq, ends_eq_iff]
  rfl

@[simp] theorem nodes_removeEdge (g : UnGraph ν ω) (a b : ℕ) :
    (g.removeEdge a b).nodes = g.nodes := rfl

theorem edge?_removeEdge (g : UnGraph ν ω) (a b c d : ℕ) :
    (g.removeEdge a b).edge? c d =
      if (a = c ∧ b = d) ∨ (a = d ∧ b = c) then none else g.edge? c d := by
  rw [removeEdge, edge?, ExtTreeMap.getElem?_erase]
  simp only [Std.LawfulEqCmp.compare_eq_iff_eq, ends_eq_iff]
  rfl

theorem ends_eq_of_le {e : ℕ × ℕ} (h : e.1 ≤ e.2) : ends e.1 e.2 = e := by
  simp [ends, h]

theorem mem_neighbors {i j : ℕ} : j ∈ g.neighbors i ↔ ∃ w, g.edge? i j = some w := by
  simp only [neighbors, List.mem_filterMap, ExtTreeMap.mem_toList_iff_getElem?_eq_some, Prod.exists]
  constructor
  · rintro ⟨a, b, w, hw, hj⟩
    have hends := ends_eq_of_le (g.edge_live (a, b) w hw).1
    refine ⟨w, ?_⟩
    split_ifs at hj with ha hb
    · obtain rfl : a = i := ha
      obtain rfl : b = j := by simpa using hj
      rw [edge?, hends, hw]
    · obtain rfl : b = i := hb
      obtain rfl : a = j := by simpa using hj
      rw [edge?, ends_comm, hends, hw]
  · rintro ⟨w, hw⟩
    refine ⟨_, _, w, hw, ?_⟩
    rcases le_total i j with hle | hle
    · simp [hle]
    · rcases eq_or_ne i j with rfl | hne
      · simp
      · simp [hle, hne.symm]

end Lemmas

instance : StableUnGraph (UnGraph ν ω) ν ω where
  default := empty
  nodeWeight g i := g.nodes[i]?
  edgeWeight := edge?
  nodeIndices g := g.nodes.keys
  neighbors := neighbors
  addNode := addNode
  modifyNode := modify
  removeNode := removeNode
  updateEdge := updateEdge
  removeEdge := removeEdge
  nodeWeight_default := nodes_empty
  edgeWeight_default := edge?_empty
  mem_nodeIndices g i := by rw [ExtTreeMap.mem_keys, mem_nodes_iff]
  nodeIndices_nodup g := ExtTreeMap.nodup_keys
  mem_neighbors g i j := mem_neighbors
  edgeWeight_comm := edge?_comm
  node_of_edge g {_ _ _} h := mem_nodes_iff.mp (live_of_edge h).1
  addNode_fresh := addNode_fresh
  nodeWeight_addNode := nodes_addNode
  edgeWeight_addNode := edge?_addNode
  nodeWeight_modifyNode := nodes_modify
  edgeWeight_modifyNode := edge?_modify
  nodeWeight_removeNode := nodes_removeNode
  edgeWeight_removeNode := edge?_removeNode
  nodeWeight_updateEdge g a b w i := by rw [nodes_updateEdge]
  edgeWeight_updateEdge g {_ _} w c d ha hb :=
    edge?_updateEdge (ExtTreeMap.mem_keys.mp ha) (ExtTreeMap.mem_keys.mp hb) w c d
  nodeWeight_removeEdge g a b i := rfl
  edgeWeight_removeEdge := edge?_removeEdge

end UnGraph

end WatchingZenoh.StableGraph
