import Mathlib.Data.List.Basic
import Mathlib.Data.UInt

/-! Texts as the byte strings the code walks. Every scan of the sources tests single ASCII bytes
and cuts only at them, so a text is the list of its UTF-8 bytes; the results below hold for every
byte string, and in particular for every valid one.
`split('/')` is `List.splitOn slash`. -/

namespace WatchingZenoh

abbrev Bytes := List UInt8

abbrev Chunk := Bytes

abbrev slash : UInt8 := 0x2F
abbrev star : UInt8 := 0x2A
abbrev dollar : UInt8 := 0x24
abbrev atSign : UInt8 := 0x40
abbrev sharp : UInt8 := 0x23
abbrev question : UInt8 := 0x3F

abbrev singleStar : Chunk := [star]
abbrev doubleStar : Chunk := [star, star]
abbrev dollarStar : Chunk := [dollar, star]

namespace Text

/-- The chunks of a text: what `split('/')` yields, at least one. -/
def chunks (text : Bytes) : List Chunk := text.splitOn slash

/-- Chunks joined by `/`. -/
def join (cs : List Chunk) : Bytes := [slash].intercalate cs

theorem chunks_ne_nil (text : Bytes) : chunks text ≠ [] := List.splitOn_ne_nil slash text

@[simp] theorem join_chunks (text : Bytes) : join (chunks text) = text :=
  List.intercalate_splitOn slash

theorem chunks_join {cs : List Chunk} (free : ∀ c ∈ cs, slash ∉ c) (hne : cs ≠ []) :
    chunks (join cs) = cs :=
  List.splitOn_intercalate slash free hne

@[simp] theorem chunks_nil : chunks [] = [[]] := List.splitOn_nil slash

theorem chunks_slash_cons (text : Bytes) : chunks (slash :: text) = [] :: chunks text := by
  simp [chunks, List.splitOn_cons_eq_if_modifyHead]

theorem chunks_cons {b : UInt8} (hb : b ≠ slash) (text : Bytes) :
    chunks (b :: text) = (chunks text).modifyHead (b :: ·) := by
  simp [chunks, List.splitOn_cons_eq_if_modifyHead, hb]

theorem chunks_of_free {c : Chunk} (hc : slash ∉ c) : chunks c = [c] :=
  List.splitOn_eq_singleton hc

theorem chunks_append_slash (a b : Bytes) : chunks (a ++ slash :: b) = chunks a ++ chunks b :=
  List.splitOn_append_cons_self a b

theorem slash_not_mem_of_mem_chunks {text : Bytes} {c : Chunk} (hc : c ∈ chunks text) :
    slash ∉ c := by
  induction text generalizing c with
  | nil =>
    obtain rfl : c = [] := by simpa using hc
    simp
  | cons b text ih =>
    by_cases hb : b = slash
    · subst hb
      rw [chunks_slash_cons] at hc
      rcases List.mem_cons.mp hc with rfl | hc
      · simp
      · exact ih hc
    · rw [chunks_cons hb] at hc
      obtain ⟨head, tail, htext⟩ := List.exists_cons_of_ne_nil (chunks_ne_nil text)
      rw [htext, List.modifyHead_cons] at hc
      rcases List.mem_cons.mp hc with rfl | hc
      · have := ih (c := head) (by simp [htext])
        simp [this, Ne.symm hb]
      · exact ih (by simp [htext, hc])

@[simp] theorem join_singleton (c : Chunk) : join [c] = c := by simp [join]

theorem join_cons {c : Chunk} {cs : List Chunk} (hne : cs ≠ []) :
    join (c :: cs) = c ++ slash :: join cs := by
  simp [join, List.intercalate_cons_of_ne_nil hne]

theorem mem_of_mem_chunks {text : Bytes} {c : Chunk} (hc : c ∈ chunks text) {b : UInt8}
    (hb : b ∈ c) : b ∈ text := by
  have hjoin : ∀ cs : List Chunk, c ∈ cs → b ∈ join cs := by
    intro cs
    induction cs with
    | nil => simp
    | cons d cs ih =>
      intro hmem
      rcases cs with _ | ⟨e, cs⟩
      · obtain rfl : c = d := by simpa using hmem
        simpa using hb
      · rw [join_cons (by simp)]
        rcases List.mem_cons.mp hmem with rfl | hmem
        · exact List.mem_append_left _ hb
        · exact List.mem_append_right _ (List.mem_cons_of_mem _ (ih hmem))
  rw [← join_chunks text]
  exact hjoin _ hc

end Text

end WatchingZenoh
