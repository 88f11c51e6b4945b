import Mathlib.Data.List.Basic

/-! A fixed table of slots in which a slot may hold a key, and each key at most one slot holds: a
finite map from keys to slots. Writing one slot changes the map at the keys of that slot only. -/

namespace WatchingZenoh.KeyedSlots

variable {σ κ : Type*} {key : σ → Option κ}

def Distinct (key : σ → Option κ) (slots : List σ) : Prop :=
  ∀ (i j : ℕ) (a b : σ) (k : κ), slots[i]? = some a → slots[j]? = some b → key a = some k →
    key b = some k → i = j

theorem distinct_replicate {s : σ} (hs : key s = none) (n : ℕ) :
    Distinct key (List.replicate n s) := by
  intro i j a b k ha _ hka
  obtain rfl : a = s := by
    rw [List.getElem?_replicate] at ha
    split_ifs at ha
    exact (Option.some.inj ha).symm
  simp [hs] at hka

theorem Distinct.set {slots : List σ} (h : Distinct key slots) {i : ℕ} {old new : σ}
    (hold : slots[i]? = some old)
    (hnew : ∀ k, key new = some k → key old = some k ∨ ∀ s ∈ slots, key s ≠ some k) :
    Distinct key (slots.set i new) := by
  have hi : i < slots.length := (List.getElem?_eq_some_iff.mp hold).1
  have hclash : ∀ j b k, i ≠ j → slots[j]? = some b → key new = some k → key b ≠ some k := by
    intro j b k hij hb hk hkb
    rcases hnew k hk with hko | hfree
    · exact hij (h i j old b k hold hb hko hkb)
    · exact hfree b (List.mem_of_getElem? hb) hkb
  intro a b x y k hx hy hkx hky
  by_cases ha : i = a <;> by_cases hb : i = b
  · exact ha.symm.trans hb
  · subst ha
    rw [List.getElem?_set_self hi] at hx
    rw [List.getElem?_set_ne hb] at hy
    rw [← Option.some.inj hx] at hkx
    exact absurd hky (hclash b y k hb hy hkx)
  · subst hb
    rw [List.getElem?_set_self hi] at hy
    rw [List.getElem?_set_ne ha] at hx
    rw [← Option.some.inj hy] at hky
    exact absurd hkx (hclash a x k ha hx hky)
  · rw [List.getElem?_set_ne ha] at hx
    rw [List.getElem?_set_ne hb] at hy
    exact h a b x y k hx hy hkx hky

theorem Distinct.map {slots : List σ} (h : Distinct key slots) {f : σ → σ}
    (hf : ∀ s k, key (f s) = some k → key s = some k) : Distinct key (slots.map f) := by
  intro i j a b k ha hb hka hkb
  rw [List.getElem?_map, Option.map_eq_some_iff] at ha hb
  obtain ⟨a, ha, rfl⟩ := ha
  obtain ⟨b, hb, rfl⟩ := hb
  exact h i j a b k ha hb (hf a k hka) (hf b k hkb)

theorem Distinct.nodup {slots : List σ} (h : Distinct key slots) : (slots.filterMap key).Nodup := by
  induction slots with
  | nil => exact List.nodup_nil
  | cons s slots ih =>
    have htail : Distinct key slots := fun i j a b k hi hj hka hkb =>
      Nat.succ.inj (h (i + 1) (j + 1) a b k hi hj hka hkb)
    rcases hs : key s with _ | k
    · rw [List.filterMap_cons_none hs]
      exact ih htail
    · rw [List.filterMap_cons_some hs]
      refine List.nodup_cons.mpr ⟨?_, ih htail⟩
      intro hk
      obtain ⟨t, ht, hkt⟩ := List.mem_filterMap.mp hk
      obtain ⟨j, hj⟩ := List.getElem?_of_mem ht
      exact absurd (h 0 (j + 1) s t k rfl hj hs hkt) (by omega)

theorem countP_filterMap_key (p : κ → Bool) (slots : List σ) :
    (slots.filterMap key).countP p = slots.countP fun s => (key s).any p := by
  induction slots with
  | nil => rfl
  | cons s slots ih => rcases hs : key s with _ | k <;> simp [hs, ih, List.countP_cons]

section Holder

variable [DecidableEq κ]

/-- The slot that holds `k`. -/
def holder (key : σ → Option κ) (k : κ) (slots : List σ) : Option σ :=
  slots.find? fun s => key s == some k

def holderIdx (key : σ → Option κ) (k : κ) (slots : List σ) : Option ℕ :=
  slots.findIdx? fun s => key s == some k

theorem holder_eq_none_iff {k : κ} {slots : List σ} :
    holder key k slots = none ↔ ∀ s ∈ slots, key s ≠ some k := by
  simp [holder]

theorem holderIdx_eq_none_iff {k : κ} {slots : List σ} :
    holderIdx key k slots = none ↔ holder key k slots = none := by
  simp [holder, holderIdx]

theorem holder_eq_some_iff {slots : List σ} (h : Distinct key slots) {k : κ} {s : σ} :
    holder key k slots = some s ↔ s ∈ slots ∧ key s = some k := by
  constructor
  · intro hs
    exact ⟨List.mem_of_find?_eq_some hs, by simpa using List.find?_some hs⟩
  · rintro ⟨hs, hk⟩
    rcases hfound : holder key k slots with _ | t
    · exact absurd hk (holder_eq_none_iff.mp hfound s hs)
    · have ht : key t = some k := by simpa using List.find?_some hfound
      obtain ⟨i, hi⟩ := List.getElem?_of_mem hs
      obtain ⟨j, hj⟩ := List.getElem?_of_mem (List.mem_of_find?_eq_some hfound)
      obtain rfl := h i j s t k hi hj hk ht
      exact hj.symm.trans hi

theorem holder_of_holderIdx {k : κ} {slots : List σ} {i : ℕ}
    (h : holderIdx key k slots = some i) :
    ∃ s, slots[i]? = some s ∧ key s = some k ∧ holder key k slots = some s := by
  rw [holderIdx, List.findIdx?_eq_some_iff_getElem] at h
  obtain ⟨hi, hk, hbefore⟩ := h
  refine ⟨slots[i], by simp [hi], by simpa using hk, ?_⟩
  rw [holder, List.find?_eq_some_iff_getElem]
  exact ⟨hk, i, hi, rfl, fun j hj => by simpa using hbefore j hj⟩

theorem holder_map {slots : List σ} (h : Distinct key slots) {f : σ → σ}
    (hf : ∀ s k, key (f s) = some k → key s = some k) (k : κ) :
    holder key k (slots.map f) = ((holder key k slots).map f).filter (key · == some k) := by
  rcases hheld : holder key k slots with _ | s
  · rw [holder_eq_none_iff] at hheld
    simpa [holder_eq_none_iff] using fun s hs hk => hheld s hs (hf s k hk)
  · obtain ⟨hs, hk⟩ := (holder_eq_some_iff h).mp hheld
    by_cases hkeep : key (f s) = some k
    · rw [Option.map_some, Option.filter_some_pos (by simpa using hkeep)]
      exact (holder_eq_some_iff (h.map hf)).mpr ⟨List.mem_map_of_mem hs, hkeep⟩
    · rw [Option.map_some, Option.filter_some_neg (by simpa using hkeep), holder_eq_none_iff]
      simp only [List.mem_map, forall_exists_index, and_imp, forall_apply_eq_imp_iff₂]
      intro t ht hkt
      have hheld' := (holder_eq_some_iff h).mpr ⟨ht, hf t k hkt⟩
      rw [hheld, Option.some.injEq] at hheld'
      exact hkeep (hheld' ▸ hkt)

section Set

variable {slots : List σ} {i : ℕ} {old new : σ}

theorem mem_set_iff (hold : slots[i]? = some old) {s : σ} :
    s ∈ slots.set i new ↔ s = new ∨ ∃ j, i ≠ j ∧ slots[j]? = some s := by
  have hi : i < slots.length := (List.getElem?_eq_some_iff.mp hold).1
  rw [List.mem_iff_getElem?]
  constructor
  · rintro ⟨j, hj⟩
    by_cases hij : i = j
    · subst hij
      rw [List.getElem?_set_self hi] at hj
      exact .inl (Option.some.inj hj).symm
    · rw [List.getElem?_set_ne hij] at hj
      exact .inr ⟨j, hij, hj⟩
  · rintro (rfl | ⟨j, hij, hj⟩)
    · exact ⟨i, by rw [List.getElem?_set_self hi]⟩
    · exact ⟨j, by rw [List.getElem?_set_ne hij, hj]⟩

theorem holder_set_self (h : Distinct key (slots.set i new)) (hold : slots[i]? = some old) {k : κ}
    (hk : key new = some k) : holder key k (slots.set i new) = some new :=
  (holder_eq_some_iff h).mpr ⟨(mem_set_iff hold).mpr (.inl rfl), hk⟩

theorem holder_set_cleared (h : Distinct key slots) (hold : slots[i]? = some old) {k : κ}
    (hk : key old = some k) (hnew : key new ≠ some k) :
    holder key k (slots.set i new) = none := by
  rw [holder_eq_none_iff]
  intro s hs hks
  rcases (mem_set_iff hold).mp hs with rfl | ⟨j, hij, hj⟩
  · exact hnew hks
  · exact hij (h i j old s k hold hj hk hks)

theorem holder_set_other (h : Distinct key slots) (h' : Distinct key (slots.set i new))
    (hold : slots[i]? = some old) {k : κ} (hk : key old ≠ some k) (hnew : key new ≠ some k) :
    holder key k (slots.set i new) = holder key k slots := by
  rcases hfound : holder key k slots with _ | s
  · rw [holder_eq_none_iff] at hfound ⊢
    intro s hs
    rcases (mem_set_iff hold).mp hs with rfl | ⟨j, _, hj⟩
    · exact hnew
    · exact hfound s (List.mem_of_getElem? hj)
  · obtain ⟨hs, hks⟩ := (holder_eq_some_iff h).mp hfound
    obtain ⟨j, hj⟩ := List.getElem?_of_mem hs
    have hij : i ≠ j := by
      rintro rfl
      rw [hold] at hj
      exact hk (Option.some.inj hj ▸ hks)
    exact (holder_eq_some_iff h').mpr ⟨(mem_set_iff hold).mpr (.inr ⟨j, hij, hj⟩), hks⟩

end Set

end Holder

theorem countP_set_add (p : σ → Bool) {slots : List σ} {i : ℕ} {old : σ}
    (hold : slots[i]? = some old) (new : σ) :
    (slots.set i new).countP p + (if p old then 1 else 0) =
      slots.countP p + if p new then 1 else 0 := by
  obtain ⟨hi, hget⟩ := List.getElem?_eq_some_iff.mp hold
  have hpos : p old = true → 0 < slots.countP p := fun h =>
    List.countP_pos_iff.mpr ⟨old, List.mem_of_getElem? hold, h⟩
  rw [List.countP_set hi, hget]
  by_cases hp : p old = true
  · have := hpos hp
    simp only [hp, if_true]
    omega
  · simp [hp]

theorem countP_lt_length {p : σ → Bool} {slots : List σ} {s : σ} (hs : s ∈ slots)
    (hp : p s = false) : slots.countP p < slots.length := by
  refine Nat.lt_of_le_of_ne List.countP_le_length fun h => ?_
  have hall := List.countP_eq_length.mp h s hs
  simp [hp] at hall

end WatchingZenoh.KeyedSlots
