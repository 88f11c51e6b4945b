import Mathlib

/-! Slices of a buffer: one read, and parts written over it one behind another. A slice past the end is
a panic, and a part is read back where no other was written over it. -/

namespace WatchingZenoh.Slices

variable {α : Type*}

/-- The slice of `len` elements from `at'` on. -/
def slice? (area : List α) (at' len : ℕ) : Option (List α) :=
  if at' + len ≤ area.length then some ((area.drop at').take len) else none

/-- A slice that a part of its length is copied into. -/
def copySlice (area : List α) (at' : ℕ) (part : List α) : Option (List α) :=
  if at' + part.length ≤ area.length then
    some (area.take at' ++ part ++ area.drop (at' + part.length))
  else none

def copyParts (area : List α) : ℕ → List (List α) → Option (List α)
  | _, [] => some area
  | at', part :: parts => do
    let area ← copySlice area at' part
    copyParts area (at' + part.length) parts

def overlay (area : List α) (at' : ℕ) (bytes : List α) : List α :=
  area.take at' ++ bytes ++ area.drop (at' + bytes.length)

theorem getElem?_overlay {area bytes : List α} {at' : ℕ} (h : at' + bytes.length ≤ area.length)
    (i : ℕ) : (overlay area at' bytes)[i]? =
      if at' ≤ i ∧ i < at' + bytes.length then bytes[i - at']? else area[i]? := by
  have htake : (area.take at').length = at' := List.length_take_of_le (by omega)
  rw [overlay]
  by_cases hlow : i < at'
  · rw [if_neg (by omega), List.append_assoc, List.getElem?_append_left (by omega),
      List.getElem?_take_of_lt hlow]
  · by_cases hhigh : i < at' + bytes.length
    · rw [if_pos ⟨by omega, hhigh⟩, List.append_assoc, List.getElem?_append_right (by omega), htake,
        List.getElem?_append_left (by omega)]
    · rw [if_neg (by omega), List.getElem?_append_right (by simp; omega), List.getElem?_drop]
      congr 1
      simp
      omega

theorem length_overlay {area bytes : List α} {at' : ℕ} (h : at' + bytes.length ≤ area.length) :
    (overlay area at' bytes).length = area.length := by
  simp [overlay]
  omega

theorem slice_overlay_self {area bytes : List α} {at' : ℕ} (h : at' + bytes.length ≤ area.length) :
    ((overlay area at' bytes).drop at').take bytes.length = bytes := by
  refine List.ext_getElem? fun i => ?_
  rw [List.getElem?_take]
  split_ifs with hi
  · rw [List.getElem?_drop, getElem?_overlay h, if_pos (by omega)]
    congr 1
    omega
  · rw [List.getElem?_eq_none (by omega)]

theorem slice_overlay_other {area bytes : List α} {at' o l : ℕ}
    (h : at' + bytes.length ≤ area.length) (happart : o + l ≤ at' ∨ at' + bytes.length ≤ o) :
    ((overlay area at' bytes).drop o).take l = (area.drop o).take l := by
  refine List.ext_getElem? fun i => ?_
  rw [List.getElem?_take, List.getElem?_take]
  split_ifs with hi
  · rw [List.getElem?_drop, List.getElem?_drop, getElem?_overlay h, if_neg (by omega)]
  · rfl

theorem slice_overlay_other_of_apart {area bytes : List α} {at' o l : ℕ}
    (h : at' + bytes.length ≤ area.length)
    (happart : 0 < l → 0 < bytes.length → o + l ≤ at' ∨ at' + bytes.length ≤ o) :
    ((overlay area at' bytes).drop o).take l = (area.drop o).take l := by
  rcases Nat.eq_zero_or_pos l with rfl | hl
  · rw [List.take_zero, List.take_zero]
  rcases Nat.eq_zero_or_pos bytes.length with hnone | hbytes
  · rw [List.length_eq_zero_iff] at hnone
    subst hnone
    simp [overlay]
  exact slice_overlay_other h (happart hl hbytes)

theorem copyParts_eq {area : List α} {at' : ℕ} {parts : List (List α)}
    (h : at' + parts.flatten.length ≤ area.length) :
    copyParts area at' parts = some (overlay area at' parts.flatten) := by
  induction parts generalizing area at' with
  | nil => simp [copyParts, overlay]
  | cons part parts ih =>
    rw [List.flatten_cons, List.length_append] at h
    have hpart : at' + part.length ≤ area.length := by omega
    have hcopy : copySlice area at' part = some (overlay area at' part) := if_pos hpart
    rw [copyParts, hcopy]
    simp only [Option.bind_eq_bind, Option.bind_some]
    rw [ih (by rw [length_overlay hpart]; omega)]
    congr 1
    refine List.ext_getElem? fun i => ?_
    rw [getElem?_overlay (by rw [length_overlay hpart]; omega), getElem?_overlay hpart,
      getElem?_overlay (by rw [List.flatten_cons, List.length_append]; omega), List.flatten_cons,
      List.length_append]
    by_cases hsecond : at' + part.length ≤ i ∧ i < at' + part.length + parts.flatten.length
    · rw [if_pos hsecond, if_pos (by omega), List.getElem?_append_right (by omega)]
      congr 1
      omega
    · rw [if_neg hsecond]
      by_cases hfirst : at' ≤ i ∧ i < at' + part.length
      · rw [if_pos hfirst, if_pos (by omega), List.getElem?_append_left (by omega)]
      · rw [if_neg hfirst, if_neg (by omega)]

theorem flatMap_split {β : Type*} (f : α → List β) {l : List α} {i : ℕ} {x : α}
    (h : l[i]? = some x) : l.flatMap f = (l.take i).flatMap f ++ f x ++ (l.drop (i + 1)).flatMap f := by
  obtain ⟨hi, rfl⟩ := List.getElem?_eq_some_iff.mp h
  conv_lhs => rw [← List.take_append_drop i l, List.drop_eq_getElem_cons hi]
  rw [List.flatMap_append, List.flatMap_cons, List.append_assoc]

end WatchingZenoh.Slices
