import Mathlib

/-! Consistent overhead byte stuffing, by its groups. A byte string is cut into groups without a zero:
a group of less than `most` bytes stands for its bytes and the zero behind it, a group of `most`
bytes for its bytes alone, and the last group ends the string. On the line each group follows a code
byte that is one more than its length. -/

namespace WatchingZenoh.Cobs

abbrev Bytes := List UInt8

variable {most : ℕ}

inductive Cut (most : ℕ) : Bytes → List Bytes → Prop
  | last {group : Bytes} : group.length < most → 0 ∉ group → Cut most group [group]
  | zero {group rest : Bytes} {groups : List Bytes} : group.length < most → 0 ∉ group →
      Cut most rest groups → Cut most (group ++ 0 :: rest) (group :: groups)
  | full {group rest : Bytes} {groups : List Bytes} : group.length = most → 0 ∉ group →
      Cut most rest groups → Cut most (group ++ rest) (group :: groups)

/-- What stands between a group and the next. -/
def gap (most : ℕ) (group : Bytes) : Bytes := if group.length = most then [] else [0]

def join (most : ℕ) : List Bytes → Bytes
  | [] => []
  | [group] => group
  | group :: groups => group ++ gap most group ++ join most groups

def block (group : Bytes) : Bytes := .ofNat (group.length + 1) :: group

def lay (groups : List Bytes) : Bytes := groups.flatMap block

@[simp] theorem lay_nil : lay [] = [] := rfl

@[simp] theorem lay_cons (group : Bytes) (groups : List Bytes) :
    lay (group :: groups) = .ofNat (group.length + 1) :: (group ++ lay groups) := by
  simp [lay, block]

theorem Cut.ne_nil {data : Bytes} {groups : List Bytes} (h : Cut most data groups) :
    groups ≠ [] := by
  cases h <;> simp

theorem join_cons {groups : List Bytes} (h : groups ≠ []) (group : Bytes) :
    join most (group :: groups) = group ++ gap most group ++ join most groups := by
  cases groups with
  | nil => exact absurd rfl h
  | cons next groups => rfl

theorem Cut.join_eq {data : Bytes} {groups : List Bytes} (h : Cut most data groups) :
    join most groups = data := by
  induction h with
  | last => rfl
  | zero hlength _ hrest ih =>
    rw [join_cons hrest.ne_nil, ih, gap, if_neg hlength.ne, List.append_assoc]
    rfl
  | full hlength _ hrest ih =>
    rw [join_cons hrest.ne_nil, ih, gap, if_pos hlength, List.append_nil]

theorem Cut.group {data : Bytes} {groups : List Bytes} (h : Cut most data groups) :
    ∀ group ∈ groups, group.length ≤ most ∧ 0 ∉ group := by
  induction h with
  | last hlength hzero => simpa using ⟨hlength.le, hzero⟩
  | zero hlength hzero _ ih => simpa using ⟨⟨hlength.le, hzero⟩, ih⟩
  | full hlength hzero _ ih => simpa using ⟨⟨hlength.le, hzero⟩, ih⟩

theorem code_toNat {group : Bytes} (h : group.length ≤ 254) :
    (UInt8.ofNat (group.length + 1)).toNat = group.length + 1 := by
  rw [UInt8.toNat_ofNat']
  omega

theorem code_ne_zero {group : Bytes} (h : group.length ≤ 254) :
    UInt8.ofNat (group.length + 1) ≠ 0 := by
  intro hzero
  have := code_toNat h
  rw [hzero] at this
  simp at this

theorem zero_not_mem_lay {groups : List Bytes}
    (h : ∀ group ∈ groups, group.length ≤ 254 ∧ 0 ∉ group) : 0 ∉ lay groups := by
  induction groups with
  | nil => simp
  | cons group groups ih =>
    obtain ⟨⟨hlength, hzero⟩, hrest⟩ := List.forall_mem_cons.mp h
    rw [lay_cons, List.mem_cons, List.mem_append]
    rintro (hcode | hgroup | hlater)
    · exact code_ne_zero hlength hcode.symm
    · exact hzero hgroup
    · exact ih hrest hlater

theorem Cut.length_lay_le {data : Bytes} {groups : List Bytes} (hmost : 0 < most)
    (h : Cut most data groups) : (lay groups).length ≤ data.length + data.length / most + 1 := by
  induction h with
  | last => simp
  | @zero group rest groups _ _ _ ih =>
    have hle : rest.length / most ≤ (group.length + (rest.length + 1)) / most :=
      Nat.div_le_div_right (by omega)
    simp only [lay_cons, List.length_cons, List.length_append]
    omega
  | @full group rest groups hlength _ _ ih =>
    have hstep : (most + rest.length) / most = rest.length / most + 1 := by
      rw [Nat.add_div_left _ hmost]
    simp only [lay_cons, List.length_cons, List.length_append, hlength]
    omega

/-- From which bytes on the blocks end with the string: the flag of every byte, and the end's. -/
def landings : Bytes → List Bool
  | [] => [true]
  | code :: rest => (code != 0 && (landings rest).getD (code.toNat - 1) false) :: landings rest

@[simp] theorem length_landings (bytes : Bytes) : (landings bytes).length = bytes.length + 1 := by
  induction bytes with
  | nil => rfl
  | cons code rest ih => simp [landings, ih]

theorem landings_append (front bytes : Bytes) :
    (landings (front ++ bytes)).drop front.length = landings bytes := by
  induction front with
  | nil => rfl
  | cons code rest ih => simpa [landings] using ih

theorem landings_getD_append (front bytes : Bytes) :
    (landings (front ++ bytes)).getD front.length false = (landings bytes).getD 0 false := by
  rw [← landings_append front bytes]
  simp [List.getD_eq_getElem?_getD]

theorem landings_lay {groups : List Bytes} (h : ∀ group ∈ groups, group.length ≤ 254) :
    (landings (lay groups)).getD 0 false = true := by
  induction groups with
  | nil => rfl
  | cons group groups ih =>
    obtain ⟨hlength, hrest⟩ := List.forall_mem_cons.mp h
    have hcode := code_toNat hlength
    rw [lay_cons, landings, List.getD_cons_zero, hcode, Nat.add_sub_cancel,
      landings_getD_append, ih hrest, Bool.and_true]
    simpa using code_ne_zero hlength

end WatchingZenoh.Cobs
