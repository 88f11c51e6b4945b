import Mathlib
import WatchingZenoh.Library.DepthFirst
import WatchingZenoh.Library.StableGraph

/-! The predecessors that a search from one root gives to the nodes of a graph, and the walk back along
them. The interface says that a predecessor stands across an edge and that no walk back comes round; of
the test whether one node has a path to another it says nothing. One search of this kind, over exact
weights, follows. -/

namespace WatchingZenoh.StableGraph

open StableUnGraph

/-- A search that finds a negative cycle gives nothing. -/
class GraphSearch (G : Type) {ν ω : outParam Type} [StableUnGraph G ν ω] where
  hasPathConnecting : G → ℕ → ℕ → Bool
  bellmanFord : G → ℕ → Option (ℕ → Option ℕ)
  edge_of_predecessor {g : G} {root : ℕ} {predecessors : ℕ → Option ℕ} {i p : ℕ} :
    bellmanFord g root = some predecessors → predecessors i = some p →
      ∃ w, edgeWeight g p i = some w
  ranked {g : G} {root : ℕ} {predecessors : ℕ → Option ℕ} :
    bellmanFord g root = some predecessors →
      ∃ rank : ℕ → ℕ, ∀ i p, predecessors i = some p → rank p < rank i

export GraphSearch (hasPathConnecting bellmanFord)

/-- The walk back from a node to one whose predecessor is the target, with fuel for the nodes on the
way; the walk may also end at a node without a predecessor. -/
def climb (predecessors : ℕ → Option ℕ) (target : ℕ) : ℕ → ℕ → Option (Option ℕ)
  | 0, _ => none
  | fuel + 1, current =>
    match predecessors current with
    | none => some none
    | some pred => if pred = target then some (some current) else climb predecessors target fuel pred

def Above (predecessors : ℕ → Option ℕ) : ℕ → ℕ → Prop :=
  Relation.ReflTransGen fun i p => predecessors i = some p

variable {predecessors : ℕ → Option ℕ} {target : ℕ}

theorem predecessors_of_climb {fuel i k : ℕ} (h : climb predecessors target fuel i = some (some k)) :
    predecessors k = some target := by
  induction fuel generalizing i with
  | zero => cases h
  | succ fuel ih =>
    rw [climb] at h
    split at h
    · cases h
    next pred hpred =>
      split_ifs at h with htarget
      · cases h
        rw [hpred, htarget]
      · exact ih h

/-- With fuel for the live nodes the walk ends, at the node below the target if it meets the target at
all. -/
theorem exists_climb {rank : ℕ → ℕ} (hrank : ∀ i p, predecessors i = some p → rank p < rank i)
    {live : Finset ℕ} (hlive : ∀ i p, predecessors i = some p → p ∈ live) (fuel i : ℕ)
    (hfuel : (live.filter fun j => rank j < rank i).card < fuel) :
    ∃ hop, climb predecessors target fuel i = some hop ∧
      (∀ k, hop = some k → Above predecessors i k ∧ predecessors k = some target) ∧
      (hop = none → ∀ k, Above predecessors i k → predecessors k ≠ some target) := by
  induction fuel generalizing i with
  | zero => exact absurd hfuel (Nat.not_lt_zero _)
  | succ fuel ih =>
    rcases hp : predecessors i with _ | p
    · refine ⟨none, by simp [climb, hp], by simp, fun _ k hk => ?_⟩
      rcases hk.cases_head with rfl | ⟨j, hj, -⟩
      · simp [hp]
      · simp [hp] at hj
    by_cases htarget : p = target
    · exact ⟨some i, by simp [climb, hp, htarget], by simp [Above, Relation.ReflTransGen.refl, hp,
        htarget], by simp⟩
    -- the predecessor ranks lower and is live, so fewer nodes rank lower than it
    have hless : (live.filter fun j => rank j < rank p).card <
        (live.filter fun j => rank j < rank i).card := by
      refine Finset.card_lt_card (Finset.ssubset_iff_of_subset ?_ |>.mpr ⟨p, ?_, ?_⟩)
      · intro j hj
        rw [Finset.mem_filter] at hj ⊢
        exact ⟨hj.1, hj.2.trans (hrank i p hp)⟩
      · exact Finset.mem_filter.mpr ⟨hlive i p hp, hrank i p hp⟩
      · simp
    obtain ⟨hop, heq, hsome, hnone⟩ := ih p (by omega)
    refine ⟨hop, by simp [climb, hp, htarget, heq], fun k hk => ?_, fun hn k hk => ?_⟩
    · exact ⟨(hsome k hk).1.head hp, (hsome k hk).2⟩
    · rcases hk.cases_head with rfl | ⟨j, hj, hk⟩
      · rw [hp]
        exact fun h => htarget (Option.some_inj.mp h)
      · obtain rfl : p = j := Option.some_inj.mp (hp.symm.trans hj)
        exact hnone hn k hk

namespace UnGraph

variable {ν : Type}

/-- The smaller of two distances, of which either may be missing. -/
def least : Option ℕ → Option ℕ → Option ℕ
  | some a, some b => some (min a b)
  | a, b => a.or b

/-- The least weight of a way from the root along at most so many edges. -/
def distance (g : UnGraph ν ℕ) (root : ℕ) : ℕ → ℕ → Option ℕ
  | 0, i => if i = root then some 0 else none
  | k + 1, i =>
    (neighbors g i).foldl (fun best p => least best ((distance g root k p).bind fun d =>
      (edgeWeight g p i).map fun w => d + w)) (distance g root k i)

/-- Whether the distance of the second node is that of the first and the edge between them, and the
first is nearer. -/
def relaxes (g : UnGraph ν ℕ) (distances : ℕ → Option ℕ) (p i : ℕ) : Bool :=
  match distances p, edgeWeight g p i, distances i with
  | some d, some w, some e => d + w = e && d < e
  | _, _, _ => false

instance : GraphSearch (UnGraph ν ℕ) where
  hasPathConnecting g start dest :=
    let live := (nodeIndices g).toFinset
    (DepthFirst.walk live (neighbors g) live.card [start] ∅).any fun visited => dest ∈ visited
  bellmanFord g root := some fun i =>
    (neighbors g i).find? fun p => relaxes g (distance g root (nodeIndices g).length) p i
  edge_of_predecessor := by
    intro g root predecessors i p hsome hp
    cases hsome
    obtain ⟨w, hw⟩ := mem_neighbors.mp (List.mem_of_find?_eq_some hp)
    exact ⟨w, (edgeWeight_comm g p i).trans hw⟩
  ranked := by
    intro g root predecessors hsome
    cases hsome
    refine ⟨fun i => (distance g root (nodeIndices g).length i).getD 0, fun i p hp => ?_⟩
    have hrelaxes := List.find?_some hp
    simp only [relaxes] at hrelaxes
    split at hrelaxes
    · next d w e hd _ he => simp_all
    · cases hrelaxes

end UnGraph

end WatchingZenoh.StableGraph
