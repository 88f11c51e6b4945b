import Mathlib

/-! A register that keeps the newest of what it is offered; of two equally new values the later offer
stays. What it ends with depends on the offers as a set, as long as no two of them are equally new. -/

namespace WatchingZenoh.Newest

variable {α ω : Type*} [LinearOrder ω] {stamp : α → ω}

def offer (stamp : α → ω) (held : Option α) (a : α) : Option α :=
  match held with
  | none => some a
  | some b => if stamp a < stamp b then some b else some a

def offerAll (stamp : α → ω) (held : Option α) (as : List α) : Option α :=
  as.foldl (offer stamp) held

def AtLeast (stamp : α → ω) (t : ω) (held : Option α) : Prop := ∃ a, held = some a ∧ t ≤ stamp a

theorem offer_of_lt {held : Option α} {a b : α} (hheld : held = some b) (h : stamp a < stamp b) :
    offer stamp held a = held := by
  simp [offer, hheld, h]

theorem offer_of_le {held : Option α} {a : α} (h : ∀ b, held = some b → stamp b ≤ stamp a) :
    offer stamp held a = some a := by
  rcases held with _ | b
  · rfl
  · simp [offer, (h b rfl).not_gt]

theorem eq_or_kept_of_offer {held : Option α} {a b : α} (h : offer stamp held a = some b) :
    b = a ∨ (held = some b ∧ stamp a < stamp b) := by
  rcases held with _ | c
  · exact .inl (Option.some.inj h).symm
  · by_cases hlt : stamp a < stamp c
    · obtain rfl : c = b := by simpa [offer, hlt] using h
      exact .inr ⟨rfl, hlt⟩
    · exact .inl (by simpa [offer, hlt] using h.symm)

theorem atLeast_offer_self (held : Option α) (a : α) : AtLeast stamp (stamp a) (offer stamp held a) := by
  rcases held with _ | b
  · exact ⟨a, rfl, le_rfl⟩
  · by_cases h : stamp a < stamp b
    · exact ⟨b, by simp [offer, h], h.le⟩
    · exact ⟨a, by simp [offer, h], le_rfl⟩

theorem AtLeast.offer {t : ω} {held : Option α} (h : AtLeast stamp t held) (a : α) :
    AtLeast stamp t (offer stamp held a) := by
  obtain ⟨b, rfl, hb⟩ := h
  by_cases hab : stamp a < stamp b
  · exact ⟨b, by simp [Newest.offer, hab], hb⟩
  · exact ⟨a, by simp [Newest.offer, hab], hb.trans (not_lt.mp hab)⟩

theorem AtLeast.offerAll {t : ω} {held : Option α} (h : AtLeast stamp t held) (as : List α) :
    AtLeast stamp t (offerAll stamp held as) := by
  induction as generalizing held with
  | nil => exact h
  | cons a as ih => exact ih (h.offer a)

theorem mem_or_kept_of_offerAll {held : Option α} {as : List α} {a : α}
    (h : offerAll stamp held as = some a) :
    a ∈ as ∨ (held = some a ∧ ∀ b ∈ as, stamp b < stamp a) := by
  induction as generalizing held with
  | nil => exact .inr ⟨h, by simp⟩
  | cons b as ih =>
    rcases ih h with ha | ⟨hheld, hlt⟩
    · exact .inl (List.mem_cons_of_mem b ha)
    · rcases eq_or_kept_of_offer hheld with rfl | ⟨hkept, hba⟩
      · exact .inl (by simp)
      · exact .inr ⟨hkept, by simpa [hba] using hlt⟩

end WatchingZenoh.Newest
