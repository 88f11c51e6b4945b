import WatchingZenoh.KeyexprCollapse
import WatchingZenoh.KeyexprLanguage
import WatchingZenoh.Library.Utf8

/-! The parts of a chunk between its `$*` tokens, and the chunks of a concrete key. A chunk without the
token is its only part, and a concrete chunk has no byte that a pattern reads as more than itself. -/

namespace WatchingZenoh.KeyexprParts

open Gaps KeyexprMatch KeyexprLanguage KeyexprGrammar KeyexprCollapse

/-- A chunk of a key: not empty, and no byte of it has a meaning in a pattern. -/
def concreteChunk (c : Chunk) : Bool := !c.isEmpty && c.all plain

def ConcreteKey (k : Bytes) : Prop := ∀ c ∈ Text.chunks k, concreteChunk c = true

instance (k : Bytes) : Decidable (ConcreteKey k) :=
  inferInstanceAs (Decidable (∀ c ∈ Text.chunks k, concreteChunk c = true))

theorem ne_nil_of_concrete {t : Chunk} (h : concreteChunk t = true) : t ≠ [] := by
  rintro rfl
  simp [concreteChunk] at h

theorem plain_of_concrete {t : Chunk} (h : concreteChunk t = true) {b : UInt8} (hb : b ∈ t) :
    plain b = true := by
  simp only [concreteChunk, Bool.and_eq_true, List.all_eq_true] at h
  exact h.2 b hb

theorem dollar_not_mem_of_concrete {t : Chunk} (h : concreteChunk t = true) : dollar ∉ t :=
  fun hb => absurd (plain_of_concrete h hb) (by decide)

theorem dsl_induction {motive : Chunk → Prop} (nil : motive [])
    (dsl : ∀ c, motive c → motive (dollar :: star :: c))
    (cons : ∀ a c, ¬ startsDsl (a :: c) → motive c → motive (a :: c)) (c : Chunk) : motive c :=
  collapse_induction nil (fun _ h => dsl _ h) (fun c _ h => dsl c h) cons c

theorem startsDsl_cons {a : UInt8} {c : Chunk} :
    startsDsl (a :: c) ↔ a = dollar ∧ c.head? = some star := by
  rw [List.head?_eq_some_iff]
  constructor
  · rintro ⟨rest, h⟩
    obtain ⟨rfl, rfl⟩ := List.cons.inj h
    exact ⟨rfl, rest, rfl⟩
  · rintro ⟨rfl, rest, rfl⟩
    exact ⟨rest, rfl⟩

theorem splitDsl_dsl (c : Chunk) : splitDsl (dollar :: star :: c) = [] :: splitDsl c := by
  simp [splitDsl]

theorem splitDsl_cons {a : UInt8} {c : Chunk} (h : ¬ startsDsl (a :: c)) :
    splitDsl (a :: c) = (splitDsl c).modifyHead (a :: ·) := by
  rcases c with _ | ⟨b, c⟩
  · simp [splitDsl]
  · rw [splitDsl, if_neg]
    rintro ⟨rfl, rfl⟩
    exact h ⟨c, rfl⟩

theorem containsDsl_dsl (c : Chunk) : containsDsl (dollar :: star :: c) = true := by
  simp [containsDsl]

theorem containsDsl_cons {a : UInt8} {c : Chunk} (h : ¬ startsDsl (a :: c)) :
    containsDsl (a :: c) = containsDsl c := by
  rcases c with _ | ⟨b, c⟩
  · simp [containsDsl]
  · have hab : ¬ (a = dollar ∧ b = star) := by
      rintro ⟨rfl, rfl⟩
      exact h ⟨c, rfl⟩
    rw [containsDsl]
    simpa using fun ha hb => absurd ⟨ha, hb⟩ hab

theorem spells_splitDsl_cons {a : UInt8} {c : Chunk} (h : ¬ startsDsl (a :: c)) {w : Bytes} :
    Spells (splitDsl (a :: c)) w ↔ ∃ v, w = a :: v ∧ Spells (splitDsl c) v := by
  obtain ⟨p, parts, hc⟩ := List.exists_cons_of_ne_nil (splitDsl_ne_nil c)
  rw [splitDsl_cons h, hc, List.modifyHead_cons, spells_cons_cons]

theorem containsDsl_of_not_mem {c : Chunk} (h : dollar ∉ c) : containsDsl c = false := by
  induction c with
  | nil => rfl
  | cons a c ih =>
    have hno : ¬ startsDsl (a :: c) := by
      rw [startsDsl_cons]
      rintro ⟨rfl, _⟩
      simp at h
    rw [containsDsl_cons hno, ih fun hc => h (by simp [hc])]

theorem spells_self (c : Chunk) : Spells (splitDsl c) c := by
  induction c using dsl_induction with
  | nil => rfl
  | dsl c ih =>
    rw [splitDsl_dsl, spells_cons (splitDsl_ne_nil c)]
    exact ⟨_, rfl, dollarStar, c, rfl, ih⟩
  | cons a c hno ih => exact (spells_splitDsl_cons hno).mpr ⟨c, rfl, ih⟩

theorem plain_of_mem_parts {c : Chunk} {after : Bool} (h : mixedTail after c = true) :
    ∀ part ∈ splitDsl c, ∀ b ∈ part, plain b = true := by
  fun_induction mixedTail after c with
  | case1 => simp [splitDsl]
  | case2 after c rest ih =>
    simp only [Bool.and_eq_true, beq_iff_eq] at h
    obtain ⟨⟨_, rfl⟩, h⟩ := h
    rw [splitDsl_dsl]
    simpa using ih h
  | case3 => simp at h
  | case4 after b rest hb ih =>
    rw [Bool.and_eq_true] at h
    have hno : ¬ startsDsl (b :: rest) := fun hs => hb (startsDsl_cons.mp hs).1
    obtain ⟨p, parts, hrest⟩ := List.exists_cons_of_ne_nil (splitDsl_ne_nil rest)
    rw [splitDsl_cons hno, hrest, List.modifyHead_cons]
    have hparts := ih h.2
    rw [hrest] at hparts
    intro part hpart
    rcases List.mem_cons.mp hpart with rfl | hpart
    · simpa using ⟨h.1, hparts p (by simp)⟩
    · exact hparts part (by simp [hpart])

theorem mixedTail_of_canonChunk {c : Chunk} (h : canonChunk c = true) (hs : c ≠ singleStar)
    (hd : c ≠ doubleStar) : mixedTail false c = true := by
  have hmixed : mixedChunk c = true := by simpa [canonChunk, hs, hd] using h
  simp only [mixedChunk, Bool.and_eq_true] at hmixed
  exact hmixed.2

theorem ne_nil_of_canonChunk {c : Chunk} (h : canonChunk c = true) : c ≠ [] := by
  rintro rfl
  simp [canonChunk, mixedChunk] at h

theorem concreteChunk_of_canonChunk {c : Chunk} (h : canonChunk c = true) (hs : c ≠ singleStar)
    (hd : c ≠ doubleStar) (hdsl : containsDsl c = false) : concreteChunk c = true := by
  have hplain := plain_of_mem_parts (mixedTail_of_canonChunk h hs hd)
  rw [splitDsl_of_not_containsDsl hdsl] at hplain
  have hne := ne_nil_of_canonChunk h
  simp only [concreteChunk, Bool.and_eq_true, List.all_eq_true]
  exact ⟨by simpa using hne, hplain c (by simp)⟩

section Encoding

theorem splitDsl_cases (c : Chunk) :
    splitDsl c = [c] ∨
      ∃ front rest, c = front ++ dollar :: star :: rest ∧ splitDsl c = front :: splitDsl rest := by
  induction c using dsl_induction with
  | nil => exact .inl rfl
  | dsl c _ => exact .inr ⟨[], c, rfl, splitDsl_dsl c⟩
  | cons a c hno ih =>
    rw [splitDsl_cons hno]
    rcases ih with h | ⟨front, rest, rfl, h⟩
    · exact .inl (by rw [h]; rfl)
    · exact .inr ⟨a :: front, rest, rfl, by rw [h]; rfl⟩

theorem encoded_parts {c : Chunk} (h : Utf8.Encoded c) : ∀ part ∈ splitDsl c, Utf8.Encoded part := by
  induction hn : c.length using Nat.strongRecOn generalizing c with
  | ind n ih =>
    subst hn
    rcases splitDsl_cases c with hc | ⟨front, rest, rfl, hc⟩
    · rw [hc]
      simpa using h
    · obtain ⟨hfront, hstar⟩ := h.cut (by decide)
      have hstar' : Utf8.Encoded ([] ++ star :: rest) := hstar
      have hrest := (hstar'.cut (by decide)).2
      rw [hc]
      simpa using ⟨hfront, ih _ (by simp; omega) hrest rfl⟩

theorem encoded_chunks {text : Bytes} (h : Utf8.Encoded text) :
    ∀ c ∈ Text.chunks text, Utf8.Encoded c := by
  induction hn : text.length using Nat.strongRecOn generalizing text with
  | ind n ih =>
    subst hn
    by_cases hs : slash ∈ text
    · obtain ⟨front, rest, rfl⟩ := List.append_of_mem hs
      obtain ⟨hfront, hrest⟩ := h.cut (by decide)
      rw [Text.chunks_append_slash]
      intro c hc
      rcases List.mem_append.mp hc with hc | hc
      · exact ih _ (by simp) hfront rfl c hc
      · exact ih _ (by simp; omega) hrest rfl c hc
    · rw [Text.chunks_of_free hs]
      simpa using h

theorem encoded_join {cs : List Chunk} (h : ∀ c ∈ cs, Utf8.Encoded c) :
    Utf8.Encoded (Text.join cs) := by
  have hslash : Utf8.Encoded [slash] := ⟨['/'], by decide⟩
  induction cs with
  | nil => exact Utf8.encoded_nil
  | cons c cs ih =>
    have hc := h c (by simp)
    have hcs := ih fun d hd => h d (by simp [hd])
    rcases cs with _ | ⟨d, cs⟩
    · simpa using hc
    · rw [Text.join_cons (by simp)]
      exact hc.append (hslash.append hcs)

end Encoding

end WatchingZenoh.KeyexprParts
