import Mathlib.Data.List.Basic
import Mathlib.Data.UInt

/-! Byte strings that are the UTF-8 form of some characters, and where they may be cut: at an ASCII
byte the text before it and the text behind it are such strings again. -/

namespace WatchingZenoh.Utf8

def Encoded (bytes : List UInt8) : Prop :=
  ∃ cs : List Char, bytes = cs.flatMap String.utf8EncodeChar

def ascii (b : UInt8) : Prop := b &&& 0x80 = 0

instance (b : UInt8) : Decidable (ascii b) := inferInstanceAs (Decidable (b &&& 0x80 = 0))

theorem encoded_nil : Encoded [] := ⟨[], rfl⟩

theorem Encoded.append {a b : List UInt8} (ha : Encoded a) (hb : Encoded b) : Encoded (a ++ b) := by
  obtain ⟨cs, rfl⟩ := ha
  obtain ⟨ds, rfl⟩ := hb
  exact ⟨cs ++ ds, by simp⟩

theorem encoded_flatten {parts : List (List UInt8)} (h : ∀ part ∈ parts, Encoded part) :
    Encoded parts.flatten := by
  induction parts with
  | nil => exact encoded_nil
  | cons part parts ih =>
    rw [List.flatten_cons]
    exact (h part (by simp)).append (ih fun q hq => h q (by simp [hq]))

theorem not_ascii_or {lead : UInt8} (hlead : lead.toNat.testBit 7 = true) (b : UInt8) :
    ¬ ascii (b ||| lead) := by
  intro h
  have hbit := congrArg (fun x : UInt8 => x.toNat.testBit 7) h
  simp [hlead, show Nat.testBit 128 7 = true by decide] at hbit

theorem utf8EncodeChar_of_ascii {c : Char} {i : ℕ} (hi : i < (String.utf8EncodeChar c).length)
    (h : ascii (String.utf8EncodeChar c)[i]) :
    i = 0 ∧ String.utf8EncodeChar c = [(String.utf8EncodeChar c)[i]] := by
  have hzero : i = 0 := UInt8.isUTF8FirstByte_getElem_utf8EncodeChar.mp (.inl h)
  subst hzero
  refine ⟨rfl, ?_⟩
  obtain hc | hc | hc | hc := c.utf8Size_eq
  · exact List.eq_getElem_of_length_eq_one _ (by rw [String.length_utf8EncodeChar, hc])
  · simp only [String.utf8EncodeChar_eq_cons_cons hc, List.getElem_cons_zero] at h
    exact absurd h (not_ascii_or (by decide) _)
  · simp only [String.utf8EncodeChar_eq_cons_cons_cons hc, List.getElem_cons_zero] at h
    exact absurd h (not_ascii_or (by decide) _)
  · simp only [String.utf8EncodeChar_eq_cons_cons_cons_cons hc, List.getElem_cons_zero] at h
    exact absurd h (not_ascii_or (by decide) _)

theorem Encoded.cut {front back : List UInt8} {b : UInt8} (h : Encoded (front ++ b :: back))
    (hb : ascii b) : Encoded front ∧ Encoded back := by
  obtain ⟨cs, h⟩ := h
  induction cs generalizing front with
  | nil => simp at h
  | cons c cs ih =>
    rw [List.flatMap_cons] at h
    by_cases hlen : front.length < (String.utf8EncodeChar c).length
    · have hget : (String.utf8EncodeChar c)[front.length] = b := by
        have hsome := congrArg (·[front.length]?) h
        simpa [List.getElem?_append_left hlen, List.getElem?_eq_getElem hlen, eq_comm] using hsome
      obtain ⟨hzero, hone⟩ := utf8EncodeChar_of_ascii hlen (hget ▸ hb)
      obtain rfl := List.length_eq_zero_iff.mp hzero
      rw [hone] at h
      exact ⟨encoded_nil, cs, (List.cons.inj h).2⟩
    · obtain ⟨rest, rfl⟩ : String.utf8EncodeChar c <+: front :=
        List.prefix_of_prefix_length_le ⟨_, h.symm⟩ (List.prefix_append _ _) (by omega)
      rw [List.append_assoc] at h
      obtain ⟨hfront, hback⟩ := ih (List.append_cancel_left h)
      have hc : Encoded (String.utf8EncodeChar c) := ⟨[c], by simp⟩
      exact ⟨hc.append hfront, hback⟩

end WatchingZenoh.Utf8
