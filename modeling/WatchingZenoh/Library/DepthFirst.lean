import Mathlib.Data.Finset.Card
import Mathlib.Data.Finset.SDiff
import Mathlib.Data.List.TakeWhile
import Mathlib.Logic.Relation

/-! The depth-first walk with a stack: what it has visited at its end contains the nodes it set out
from, and everything their successors lead to. -/

namespace WatchingZenoh.DepthFirst

variable {α : Type*} [DecidableEq α]

/-- The nodes visited from those of the stack, whose head is popped first, with fuel for as many
nodes as are still to be visited. A node that is not live stops the walk. -/
def walk (live : Finset α) (succs : α → List α) : ℕ → List α → Finset α → Option (Finset α)
  | 0, stack, visited => if ∀ a ∈ stack, a ∈ visited then some visited else none
  | fuel + 1, stack, visited =>
    match stack.dropWhile fun a => a ∈ visited with
    | [] => some visited
    | a :: rest =>
      if a ∈ live then
        let unseen := (succs a).filter fun b => b ∉ insert a visited
        walk live succs fuel (unseen.reverse ++ rest) (insert a visited)
      else none

variable {live : Finset α} {succs : α → List α} {visited : Finset α}

/-- Every visited node leads to visited nodes, or to nodes that are still on the stack. -/
def Pending (succs : α → List α) (stack : List α) (visited : Finset α) : Prop :=
  ∀ a ∈ visited, ∀ b ∈ succs a, b ∈ visited ∨ b ∈ stack

theorem mem_visited_or_dropWhile {stack : List α} {a : α} (ha : a ∈ stack) :
    a ∈ visited ∨ a ∈ stack.dropWhile fun b => b ∈ visited := by
  rw [← List.takeWhile_append_dropWhile (p := fun b => decide (b ∈ visited)) (l := stack),
    List.mem_append] at ha
  rcases ha with h | h
  · exact .inl (by simpa using List.mem_takeWhile_imp h)
  · exact .inr h

theorem pending_visit {stack rest : List α} {a : α} (h : Pending succs stack visited)
    (hdrop : (stack.dropWhile fun b => b ∈ visited) = a :: rest) :
    Pending succs (((succs a).filter fun b => b ∉ insert a visited).reverse ++ rest)
      (insert a visited) := by
  intro c hc b hb
  by_cases hseen : b ∈ insert a visited
  · exact .inl hseen
  refine .inr ?_
  rcases Finset.mem_insert.mp hc with rfl | hc
  · exact List.mem_append_left _ (List.mem_reverse.mpr (List.mem_filter.mpr ⟨hb, by simpa using hseen⟩))
  · rcases (h c hc b hb).imp_right mem_visited_or_dropWhile with hin | hin | hin
    · exact absurd (Finset.mem_insert_of_mem hin) hseen
    · exact absurd (Finset.mem_insert_of_mem hin) hseen
    · rw [hdrop] at hin
      rcases List.mem_cons.mp hin with rfl | hin
      · exact absurd (Finset.mem_insert_self ..) hseen
      · exact List.mem_append_right _ hin

/-- A walk over live nodes ends; nothing leads out of what it has visited, and all of it can be
reached from the stack. -/
theorem exists_walk (hsuccs : ∀ a ∈ live, ∀ b ∈ succs a, b ∈ live) (fuel : ℕ) (stack : List α)
    (visited : Finset α) (hfuel : (live \ visited).card ≤ fuel) (hstack : ∀ a ∈ stack, a ∈ live)
    (hpending : Pending succs stack visited) :
    ∃ reached, walk live succs fuel stack visited = some reached ∧ visited ⊆ reached ∧
      (∀ a ∈ stack, a ∈ reached) ∧ (∀ a ∈ reached, ∀ b ∈ succs a, b ∈ reached) ∧
      ∀ b ∈ reached, b ∈ visited ∨ ∃ a ∈ stack, Relation.ReflTransGen (fun a b => b ∈ succs a) a b := by
  -- a walk whose stack holds visited nodes only is over
  have hover : ∀ {stack : List α} {visited : Finset α}, (∀ a ∈ stack, a ∈ visited) →
      Pending succs stack visited → ∀ a ∈ visited, ∀ b ∈ succs a, b ∈ visited :=
    fun hall hpending a ha b hb => (hpending a ha b hb).elim id (hall b)
  induction fuel generalizing stack visited with
  | zero =>
    have hall : ∀ a ∈ stack, a ∈ visited := by
      intro a ha
      by_contra hvisited
      have hmem : a ∈ live \ visited := Finset.mem_sdiff.mpr ⟨hstack a ha, hvisited⟩
      simp [Finset.card_eq_zero.mp (Nat.le_zero.mp hfuel)] at hmem
    exact ⟨visited, if_pos hall, le_rfl, hall, hover hall hpending, fun b hb => .inl hb⟩
  | succ fuel ih =>
    rcases hdrop : stack.dropWhile (fun b => b ∈ visited) with _ | ⟨a, rest⟩
    · have hall : ∀ a ∈ stack, a ∈ visited := fun a ha =>
        (mem_visited_or_dropWhile ha).elim id fun h => by simp [hdrop] at h
      exact ⟨visited, by simp [walk, hdrop], le_rfl, hall, hover hall hpending, fun b hb => .inl hb⟩
    · have hsuffix : ∀ b ∈ a :: rest, b ∈ stack := fun b hb =>
        (List.dropWhile_suffix _).subset (hdrop ▸ hb)
      have hfresh : a ∉ visited := by
        have hhead := List.head?_dropWhile_not (fun b => decide (b ∈ visited)) stack
        simpa [hdrop] using hhead
      have hlive : a ∈ live := hstack a (hsuffix a (by simp))
      have hless : (live \ insert a visited).card ≤ fuel := by
        have hmem : a ∈ live \ visited := Finset.mem_sdiff.mpr ⟨hlive, hfresh⟩
        rw [Finset.sdiff_insert, Finset.card_erase_of_mem hmem]
        omega
      obtain ⟨reached, heq, hsub, hrest, hend, hfrom⟩ := ih _ _ hless (by
        intro b hb
        rcases List.mem_append.mp hb with h | h
        · exact hsuccs a hlive b (List.mem_filter.mp (List.mem_reverse.mp h)).1
        · exact hstack b (hsuffix b (by simp [h]))) (pending_visit hpending hdrop)
      refine ⟨reached, by simp only [walk, hdrop, hlive, ↓reduceIte, heq],
        (Finset.subset_insert a visited).trans hsub, fun b hb => ?_, hend, fun b hb => ?_⟩
      · rcases mem_visited_or_dropWhile hb with h | h
        · exact hsub (Finset.mem_insert_of_mem h)
        · rcases List.mem_cons.mp (hdrop ▸ h) with rfl | h
          · exact hsub (Finset.mem_insert_self ..)
          · exact hrest b (List.mem_append_right _ h)
      · rcases hfrom b hb with h | ⟨c, hc, hpath⟩
        · rcases Finset.mem_insert.mp h with rfl | h
          · exact .inr ⟨b, hsuffix b (by simp), .refl⟩
          · exact .inl h
        · rcases List.mem_append.mp hc with hc | hc
          · have hstep := (List.mem_filter.mp (List.mem_reverse.mp hc)).1
            exact .inr ⟨a, hsuffix a (by simp), hpath.head hstep⟩
          · exact .inr ⟨c, hsuffix c (by simp [hc]), hpath⟩

end WatchingZenoh.DepthFirst
