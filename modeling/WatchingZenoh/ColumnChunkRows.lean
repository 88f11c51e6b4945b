import WatchingZenoh.ColumnChunk

/-! What a chunk holds: the rows it was given, packed. Every read of a chunk that holds rows answers
with them, and every write leaves a chunk that holds the rows written. -/

namespace WatchingZenoh.ColumnLog

open LittleEndian Slices

variable {C : ℕ} {kinds : Fin C → Kind} {c : Chunk C} {rows : List (Row C)} {row : Row C}

def Row.Fits (row : Row C) : Prop := ∀ j, row j < 2 ^ 64

theorem widthOf_le (d : ℕ) : widthOf d ≤ 8 := by
  unfold widthOf
  split_ifs <;> decide

theorem lt_widthOf {d : ℕ} (hd : d < 2 ^ 64) : d < 256 ^ widthOf d := by
  unfold widthOf
  split_ifs <;> omega

theorem length_put {width : ℕ} (h : width ≤ 8) (d : ℕ) : (put width d).length = width := by
  simp [put, h]

theorem ofLe_put {width d : ℕ} (h : width ≤ 8) (hd : d < 256 ^ width) : ofLe (put width d) = d := by
  obtain ⟨n, hn⟩ := Nat.exists_eq_add_of_le h
  rw [put, hn, toLe_take, ofLe_toLe, Nat.mod_eq_of_lt hd]

/-- A column is read back where it was put, whatever follows it. -/
theorem take_put {before after : Bytes} {width d : ℕ} (h : width ≤ 8) (hd : d < 256 ^ width)
    (hafter : 8 ≤ width + after.length) :
    take (before ++ put width d ++ after) before.length width = some d := by
  have hlen := length_put h d
  have hword : ((before ++ put width d ++ after).drop before.length).take 8 =
      put width d ++ after.take (8 - width) := by
    rw [List.append_assoc, List.drop_left, List.take_append, hlen, List.take_of_length_le (by omega)]
  have hmod : 2 ^ (8 * width) = 256 ^ width := by
    rw [pow_mul]
    norm_num
  rw [take, slice?, if_pos (by simp [hlen]; omega), Option.map_some, hword, ofLe_append,
    ofLe_put h hd, hlen, Nat.and_two_pow_sub_one_eq_mod, hmod, Nat.add_mul_mod_self_left,
    Nat.mod_eq_of_lt hd]

theorem length_packed {width : Fin C → ℕ} (h : ∀ j, width j ≤ 8) (d : Fin C → ℕ) :
    (packed width d).flatten.length = (layout width).2 := by
  rw [packed, List.length_flatten, List.map_map, layout]
  congr 1
  exact List.map_congr_left fun j _ => length_put (h j) (d j)

theorem packed_split {width : Fin C → ℕ} (h : ∀ j, width j ≤ 8) (d : Fin C → ℕ) (j : Fin C) :
    ∃ before after, (packed width d).flatten = before ++ put (width j) (d j) ++ after ∧
      before.length = (layout width).1 j := by
  have hj : (List.finRange C)[(j : ℕ)]? = some j := by simp
  refine ⟨_, _, flatMap_split (fun k => put (width k) (d k)) hj, ?_⟩
  rw [List.length_flatMap, layout]
  congr 1
  exact List.map_congr_left fun k _ => length_put (h k) (d k)

def rowBytes (width : Fin C → ℕ) (out : List (Fin C → ℕ)) : Bytes :=
  out.flatMap fun d => (packed width d).flatten

theorem length_rowBytes {width : Fin C → ℕ} (h : ∀ j, width j ≤ 8) (out : List (Fin C → ℕ)) :
    (rowBytes width out).length = out.length * (layout width).2 := by
  rw [rowBytes, List.length_flatMap, List.map_congr_left fun d _ => length_packed h d]
  simp

theorem take_rowBytes {width d : Fin C → ℕ} {out : List (Fin C → ℕ)} {i : ℕ}
    (h : ∀ j, width j ≤ 8) (hd : ∀ d ∈ out, ∀ j, d j < 256 ^ width j) (hi : out[i]? = some d)
    (j : Fin C) :
    take (rowBytes width out ++ List.replicate pad 0) (i * (layout width).2 + (layout width).1 j)
      (width j) = some (d j) := by
  obtain ⟨before, after, hrow, hbefore⟩ := packed_split h d j
  have hlt : i < out.length := (List.getElem?_eq_some_iff.mp hi).1
  have hlead := length_rowBytes h (out.take i)
  rw [List.length_take_of_le hlt.le] at hlead
  have hbytes : rowBytes width out ++ List.replicate pad 0 =
      (rowBytes width (out.take i) ++ before) ++ put (width j) (d j) ++
        (after ++ rowBytes width (out.drop (i + 1)) ++ List.replicate pad 0) := by
    rw [rowBytes, flatMap_split _ hi, hrow]
    simp [rowBytes]
  have hat : i * (layout width).2 + (layout width).1 j =
      (rowBytes width (out.take i) ++ before).length := by
    rw [List.length_append, hlead, hbefore]
  rw [hbytes, hat]
  exact take_put (h j) (hd d (List.mem_of_getElem? hi) j) (by simp [pad]; omega)

structure Chunk.Holds (kinds : Fin C → Kind) (c : Chunk C) (rows : List (Row C)) : Prop where
  len : c.len = rows.length
  room : c.len ≤ c.cap
  base : ∀ row ∈ rows, ∀ j, c.base j ≤ row j
  plain : ∀ j, kinds j = .plain → c.base j = 0
  width : ∀ j, c.width j ≤ 8
  distance : ∀ row ∈ rows, ∀ j, row j - c.base j < 256 ^ c.width j
  layout : (c.offset, c.stride) = layout c.width
  bytes : c.bytes = rowBytes c.width (rows.map fun row j => row j - c.base j) ++
    List.replicate pad 0

theorem take_drop {bytes : Bytes} {n : ℕ} (hn : n ≤ bytes.length) (at' width : ℕ) :
    take (bytes.drop n) at' width = take bytes (n + at') width := by
  rw [take, take, slice?, slice?, List.length_drop, List.drop_drop]
  congr 1
  by_cases h : n + at' + 8 ≤ bytes.length
  · rw [if_pos h, if_pos (by omega)]
  · rw [if_neg h, if_neg (by omega)]

theorem columns_eq {α : Type} {f : Fin C → Option α} {g : Fin C → α} (h : ∀ j, f j = some (g j)) :
    columns f = some g := by
  obtain rfl : f = fun j => some (g j) := funext h
  simp [columns]

theorem mapM_range_eq {α : Type} {f : ℕ → Option α} {l : List α}
    (h : ∀ i x, l[i]? = some x → f i = some x) : (List.range l.length).mapM f = some l := by
  induction l using List.reverseRecOn with
  | nil => rfl
  | append_singleton l x ih =>
    have hlast := h l.length x (by simp)
    have hinit := ih fun i y hy => h i y (by
      rw [List.getElem?_append_left (List.getElem?_eq_some_iff.mp hy).1]
      exact hy)
    rw [List.length_append, List.length_singleton, List.range_succ, List.mapM_append, hinit]
    simp [hlast]

theorem overlay_append {before part part' after : Bytes} (h : part.length = part'.length) :
    overlay (before ++ part ++ after) before.length part' = before ++ part' ++ after := by
  rw [overlay, ← h, ← List.length_append, List.drop_left, List.append_assoc before part,
    List.take_left]

theorem overlay_rowBytes {width : Fin C → ℕ} {out : List (Fin C → ℕ)} {i : ℕ}
    (h : ∀ j, width j ≤ 8) (hi : i < out.length) (d : Fin C → ℕ) (after : Bytes) :
    overlay (rowBytes width out ++ after) (i * (layout width).2) (packed width d).flatten =
      rowBytes width (out.set i d) ++ after := by
  have hlead := length_rowBytes h (out.take i)
  rw [List.length_take_of_le hi.le] at hlead
  have hold : rowBytes width out = rowBytes width (out.take i) ++ (packed width out[i]).flatten ++
      rowBytes width (out.drop (i + 1)) := flatMap_split _ (List.getElem?_eq_getElem hi)
  have hnew : rowBytes width (out.set i d) = rowBytes width (out.take i) ++
      (packed width d).flatten ++ rowBytes width (out.drop (i + 1)) := by
    have hat : (out.set i d)[i]? = some d := List.getElem?_set_self hi
    rw [rowBytes, flatMap_split _ hat, List.take_set_of_le le_rfl,
      List.drop_set_of_lt (Nat.lt_succ_self i)]
    rfl
  rw [hold, hnew, ← hlead, List.append_assoc, List.append_assoc,
    ← List.append_assoc (rowBytes width (out.take i)),
    overlay_append (by rw [length_packed h, length_packed h])]
  simp

namespace Chunk.Holds

theorem stride (h : c.Holds kinds rows) : c.stride = (ColumnLog.layout c.width).2 :=
  congrArg Prod.snd h.layout

theorem offset (h : c.Holds kinds rows) : c.offset = (ColumnLog.layout c.width).1 :=
  congrArg Prod.fst h.layout

theorem length_bytes (h : c.Holds kinds rows) : c.bytes.length = rows.length * c.stride + pad := by
  rw [h.bytes, List.length_append, length_rowBytes h.width, List.length_map, h.stride,
    List.length_replicate]

theorem read (h : c.Holds kinds rows) {i : ℕ} (hi : rows[i]? = some row) (j : Fin C) :
    take c.bytes (i * c.stride + c.offset j) (c.width j) = some (row j - c.base j) := by
  rw [h.bytes, h.stride, h.offset]
  refine take_rowBytes (d := fun j => row j - c.base j) h.width ?_ ?_ j
  · intro d hd
    obtain ⟨row, hrow, rfl⟩ := List.mem_map.mp hd
    exact h.distance row hrow
  · rw [List.getElem?_map, hi, Option.map_some]

theorem value (h : c.Holds kinds rows) {i : ℕ} (hi : rows[i]? = some row) (j : Fin C) :
    c.value j i = some (row j) := by
  have hbase := h.base row (List.mem_of_getElem? hi) j
  rw [Chunk.value, h.read hi, Option.map_some, Nat.add_sub_cancel' hbase]

theorem distancesAt (h : c.Holds kinds rows) {i : ℕ} (hi : rows[i]? = some row) :
    c.distancesAt i = some fun j => row j - c.base j := by
  have hlt : i < rows.length := (List.getElem?_eq_some_iff.mp hi).1
  have hle : i * c.stride ≤ c.bytes.length := by
    rw [h.length_bytes]
    exact (Nat.mul_le_mul_right _ hlt.le).trans (Nat.le_add_right _ _)
  rw [Chunk.distancesAt, if_pos hle]
  refine columns_eq fun j => ?_
  rw [take_drop hle, h.read hi]

theorem readRow (h : c.Holds kinds rows) (i : ℕ) : c.row i = some rows[i]? := by
  rw [Chunk.row, h.len]
  split_ifs with hi
  · rw [List.getElem?_eq_none hi]
  · have hget := List.getElem?_eq_getElem (Nat.lt_of_not_le hi)
    rw [h.distancesAt hget, hget]
    have hbase := h.base _ (List.mem_of_getElem? hget)
    simp only [Option.map_some, Option.some.injEq]
    exact funext fun j => Nat.sub_add_cancel (hbase j)

theorem rewrite (h : c.Holds kinds rows) (width : Fin C → ℕ) (hwidth : ∀ j, width j ≤ 8)
    (hwider : ∀ j, c.width j ≤ width j) :
    ∃ c', c.rewrite width c.cap = some c' ∧ c'.Holds kinds rows ∧ c'.width = width ∧
      c'.base = c.base ∧ c'.start = c.start ∧ c'.cap = c.cap := by
  have hrows : (List.range c.len).mapM c.distancesAt =
      some (rows.map fun row j => row j - c.base j) := by
    have hlen : c.len = (rows.map fun row (j : Fin C) => row j - c.base j).length := by
      rw [h.len, List.length_map]
    rw [hlen]
    refine mapM_range_eq fun i x hx => ?_
    rw [List.getElem?_map, Option.map_eq_some_iff] at hx
    obtain ⟨row, hrow, rfl⟩ := hx
    exact h.distancesAt hrow
  rw [Chunk.rewrite, hrows]
  refine ⟨_, rfl, ⟨h.len, h.room, h.base, h.plain, hwidth, fun row hrow j => ?_, rfl, rfl⟩, rfl, rfl,
    rfl, rfl⟩
  exact (h.distance row hrow j).trans_le (Nat.pow_le_pow_right (by decide) (hwider j))

theorem widen (h : c.Holds kinds rows) {d : Fin C → ℕ} (hd : ∀ j, d j < 2 ^ 64) :
    ∃ c', c.widen d = some c' ∧ c'.Holds kinds rows ∧ (∀ j, d j < 256 ^ c'.width j) ∧
      c'.base = c.base ∧ c'.start = c.start ∧ c'.cap = c.cap := by
  have hneed : ∀ j, d j < 256 ^ c.widthsFor d j := fun j =>
    (lt_widthOf (hd j)).trans_le (Nat.pow_le_pow_right (by decide) (le_max_right _ _))
  rw [Chunk.widen]
  by_cases hsame : c.widthsFor d ≠ c.width
  · obtain ⟨c', hrun, hholds, hwidth, hbase, hstart, hcap⟩ :=
      h.rewrite (c.widthsFor d) (fun j => max_le (h.width j) (widthOf_le _))
        fun j => le_max_left _ _
    exact ⟨c', by simp only [if_pos hsame, hrun], hholds, by rwa [hwidth], hbase, hstart, hcap⟩
  · refine ⟨c, by simp only [if_neg hsame], h, ?_, rfl, rfl, rfl⟩
    rwa [not_not.mp hsame] at hneed

/-- A row's distances are those from the base, unless one is below it. -/
theorem distances (h : c.Holds kinds rows) (row : Row C) :
    (c.distances kinds row = some fun j => row j - c.base j) ∧ (∀ j, c.base j ≤ row j) ∨
      c.distances kinds row = none := by
  rw [Chunk.distances]
  split_ifs with hrising
  · refine .inl ⟨?_, fun j => ?_⟩
    · congr 1
      funext j
      cases hkind : kinds j with
      | rising => simp
      | plain => simp [h.plain j hkind]
    · cases hkind : kinds j with
      | rising => exact hrising j hkind
      | plain => simp [h.plain j hkind]
  · exact .inr rfl

theorem makeRoom (h : c.Holds kinds rows) (hlen : c.len < chunkItems) :
    ∃ cap, c.makeRoom = some { c with cap := cap } ∧ c.len < cap := by
  have hroom := h.room
  rw [Chunk.makeRoom]
  by_cases hlt : c.len < c.cap
  · exact ⟨c.cap, if_pos hlt, hlt⟩
  · have hmore : c.len < min (max (c.cap * 2) firstRows) chunkItems := by
      simp only [chunkItems, firstRows] at hlen ⊢
      omega
    have hfits : c.bytes.length ≤ min (max (c.cap * 2) firstRows) chunkItems * c.stride + pad := by
      rw [h.length_bytes, ← h.len]
      exact Nat.add_le_add_right (Nat.mul_le_mul_right _ hmore.le) _
    exact ⟨_, by rw [if_neg hlt]; exact if_pos hfits, hmore⟩

theorem append (h : c.Holds kinds rows) (hfits : row.Fits) (htakes : c.takes kinds row = true) :
    ∃ c', c.append kinds row = some c' ∧ c'.Holds kinds (rows ++ [row]) ∧ c'.start = c.start := by
  simp only [Chunk.takes, Bool.and_eq_true, decide_eq_true_eq] at htakes
  obtain ⟨hlen, hsome⟩ := htakes
  obtain ⟨hdist, habove⟩ | hnone := h.distances row
  · obtain ⟨c₁, hwiden, h₁, hwide, hbase, hstart, hcap⟩ :=
      h.widen (d := fun j => row j - c.base j) fun j => (Nat.sub_le _ _).trans_lt (hfits j)
    have hlen₁ : c₁.len = c.len := by rw [h₁.len, h.len]
    obtain ⟨cap, hroom, hmore⟩ := h₁.makeRoom (by rw [hlen₁]; exact hlen)
    have hkept : c₁.bytes.take (c₁.len * c₁.stride) =
        rowBytes c₁.width (rows.map fun row j => row j - c₁.base j) := by
      have hsize : (rowBytes c₁.width (rows.map fun row j => row j - c₁.base j)).length =
          c₁.len * c₁.stride := by
        rw [length_rowBytes h₁.width, List.length_map, h₁.stride, h₁.len]
      rw [h₁.bytes, ← hsize, List.take_left]
    refine ⟨{ c₁ with
      cap := cap
      bytes := c₁.bytes.take (c₁.len * c₁.stride) ++
        (packed c₁.width fun j => row j - c.base j).flatten ++ List.replicate pad 0
      len := c₁.len + 1 }, ?_, ⟨?_, hmore, ?_, h₁.plain, h₁.width, ?_, h₁.layout, ?_⟩, hstart⟩
    · rw [Chunk.append, hdist]
      simp only [Option.bind_eq_bind, Option.bind_some, hwiden, hroom]
    · simp [h₁.len]
    · simp only [List.mem_append, List.mem_singleton]
      rintro row' (hrow | rfl)
      · exact h₁.base row' hrow
      · simpa only [hbase] using habove
    · simp only [List.mem_append, List.mem_singleton]
      rintro row' (hrow | rfl)
      · exact h₁.distance row' hrow
      · simpa only [hbase] using hwide
    · simp only [hkept, List.map_append, List.map_cons, List.map_nil, rowBytes, List.flatMap_append,
        List.flatMap_cons, List.flatMap_nil, List.append_nil, hbase]
  · rw [hnone] at hsome
    cases hsome

end Chunk.Holds

theorem le_foldl_max {α : Type} (f : α → ℕ) (l : List α) (w : ℕ) :
    w ≤ l.foldl (fun w x => max w (f x)) w ∧ ∀ x ∈ l, f x ≤ l.foldl (fun w x => max w (f x)) w := by
  induction l generalizing w with
  | nil => simp
  | cons x l ih =>
    obtain ⟨hstart, hall⟩ := ih (max w (f x))
    refine ⟨(le_max_left _ _).trans hstart, fun y hy => ?_⟩
    rcases List.mem_cons.mp hy with rfl | hy
    · exact (le_max_right _ _).trans hstart
    · exact hall y hy

theorem foldl_max_le {α : Type} {f : α → ℕ} {b : ℕ} (hf : ∀ x, f x ≤ b) {l : List α} {w : ℕ}
    (hw : w ≤ b) : l.foldl (fun w x => max w (f x)) w ≤ b := by
  induction l generalizing w with
  | nil => exact hw
  | cons x l ih => exact ih (max_le hw (hf x))

theorem Chunk.holds_fromRows (start cap : ℕ) (kinds : Fin C → Kind) (hfits : ∀ row ∈ rows, row.Fits) :
    (Chunk.fromRows start kinds rows cap).Holds kinds rows := by
  refine ⟨rfl, le_max_right _ _, fun row hrow j => ?_, fun j hplain => ?_, fun j => ?_,
    fun row hrow j => ?_, rfl, ?_⟩
  · simp only [Chunk.fromRows]
    split_ifs with hrising
    · have hmem : row j ∈ rows.map (· j) := List.mem_map.mpr ⟨row, hrow, rfl⟩
      obtain ⟨least, hleast⟩ := Option.isSome_iff_exists.mp
        (List.isSome_min?_of_mem hmem)
      rw [hleast, Option.getD_some]
      exact (List.min?_eq_some_iff.mp hleast).2 _ hmem
    · exact Nat.zero_le _
  · simp [Chunk.fromRows, hplain]
  · exact foldl_max_le (fun row => widthOf_le _) (Nat.zero_le 8)
  · refine (lt_widthOf ((Nat.sub_le _ _).trans_lt (hfits row hrow j))).trans_le
      (Nat.pow_le_pow_right (by decide) ?_)
    exact (le_foldl_max (fun row : Row C => widthOf (row j - (Chunk.fromRows start kinds rows cap).base j))
      rows 0).2 row hrow
  · simp only [Chunk.fromRows, rowBytes, List.flatMap_map]

theorem Chunk.Holds.set (h : c.Holds kinds rows) (hfits : ∀ row ∈ rows, row.Fits) (hrow : row.Fits)
    {i : ℕ} (hi : i < rows.length) :
    ∃ c', c.set kinds i row = some c' ∧ c'.Holds kinds (rows.set i row) ∧ c'.start = c.start := by
  have hmem : ∀ row' ∈ rows.set i row, row' ∈ rows ∨ row' = row := fun row' =>
    List.mem_or_eq_of_mem_set
  obtain ⟨hdist, habove⟩ | hnone := h.distances row
  · obtain ⟨c₁, hwiden, h₁, hwide, hbase, hstart, -⟩ :=
      h.widen (d := fun j => row j - c.base j) fun j => (Nat.sub_le _ _).trans_lt (hrow j)
    have hroom : i * c₁.stride + (packed c₁.width fun j => row j - c.base j).flatten.length ≤
        c₁.bytes.length := by
      have hnext := Nat.mul_le_mul_right c₁.stride (Nat.succ_le_of_lt hi)
      rw [Nat.succ_mul] at hnext
      rw [length_packed h₁.width, h₁.length_bytes, ← h₁.stride]
      omega
    have hbytes : overlay c₁.bytes (i * c₁.stride)
        (packed c₁.width fun j => row j - c.base j).flatten =
          rowBytes c₁.width ((rows.set i row).map fun row j => row j - c₁.base j) ++
            List.replicate pad 0 := by
      rw [h₁.bytes, h₁.stride, overlay_rowBytes h₁.width (by simpa using hi), List.map_set, hbase]
    refine ⟨{ c₁ with
      bytes := overlay c₁.bytes (i * c₁.stride)
        (packed c₁.width fun j => row j - c.base j).flatten }, ?_, ⟨?_, h₁.room, ?_, h₁.plain, h₁.width, ?_, h₁.layout, hbytes⟩,
      hstart⟩
    · rw [Chunk.set, hdist]
      simp only [Option.bind_eq_bind, Option.bind_some, hwiden, copyParts_eq hroom]
    · simp [h₁.len]
    · intro row' hrow'
      rcases hmem row' hrow' with hold | rfl
      · exact h₁.base row' hold
      · simpa only [hbase] using habove
    · intro row' hrow'
      rcases hmem row' hrow' with hold | rfl
      · exact h₁.distance row' hold
      · simpa only [hbase] using hwide
  · have hrows : (List.range c.len).mapM (fun k => c.row k) = some (rows.map some) := by
      have hlen : c.len = (rows.map some).length := by rw [h.len, List.length_map]
      rw [hlen]
      refine mapM_range_eq fun k x hx => ?_
      rw [List.getElem?_map, Option.map_eq_some_iff] at hx
      obtain ⟨row', hrow', rfl⟩ := hx
      rw [h.readRow, hrow']
    have hall : (rows.map some).mapM id = some rows := by
      rw [List.mapM_map]
      exact (List.mapM_pure (f := id)).trans (by simp)
    refine ⟨_, ?_, Chunk.holds_fromRows c.start c.cap kinds fun row' hrow' => ?_, rfl⟩
    · rw [Chunk.set, hnone]
      simp only [Option.bind_eq_bind, hrows, Option.bind_some, hall, if_pos hi]
    · rcases hmem row' hrow' with hold | rfl
      · exact hfits row' hold
      · exact hrow

end WatchingZenoh.ColumnLog
