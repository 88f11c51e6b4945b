import WatchingZenoh.SortedChunks
import WatchingZenoh.VerdictPatterns

/-! The rows of a verdict column in sorted blocks, one for each list and direction, as two parallel
arrays of a row's coordinate and its pattern's number. Recent writes are merged in by writing the
blocks anew. -/

namespace WatchingZenoh

structure RowKey where
  list : ℕ
  direction : ℕ
  produced : ℕ

namespace RowKey

def block (key : RowKey) : ℕ ×ₗ ℕ := toLex (key.list, key.direction)

def lex (key : RowKey) : (ℕ ×ₗ ℕ) ×ₗ ℕ := toLex (key.block, key.produced)

theorem lex_injective : Function.Injective lex := by
  intro a b h
  obtain ⟨hblock, hproduced⟩ := Prod.mk.inj (toLex.injective h)
  obtain ⟨hlist, hdirection⟩ := Prod.mk.inj (toLex.injective hblock)
  cases a
  cases b
  simp_all

instance : LinearOrder RowKey := LinearOrder.lift' lex lex_injective

theorem lt_iff {a b : RowKey} :
    a < b ↔ a.block < b.block ∨ a.block = b.block ∧ a.produced < b.produced :=
  Prod.Lex.lt_iff

theorem eq_of_parts {a b : RowKey} (hblock : a.block = b.block) (hproduced : a.produced = b.produced) :
    a = b :=
  lex_injective (by rw [lex, lex, hblock, hproduced])

end RowKey

namespace VerdictColumn

open SortedEntries

structure Block where
  list : ℕ
  direction : ℕ
  at' : List ℕ
  pattern : List ℕ

structure Base where
  blocks : List Block
  rows : ℕ

def Block.key (b : Block) : ℕ ×ₗ ℕ := toLex (b.list, b.direction)

def Block.entries (b : Block) : List (RowKey × ℕ) :=
  (b.at'.zip b.pattern).map fun row => (⟨b.list, b.direction, row.1⟩, row.2)

def searchBlocks (blocks : List Block) (key : RowKey) : Option ℕ :=
  (search key.block (blocks.map fun b => (b.key, b))).toOption

namespace Base

def default : Base := ⟨[], 0⟩

/-- The number at a row, if it has one. An index past the blocks or past the numbers panics. -/
def find? (base : Base) (key : RowKey) : Option (Option ℕ) :=
  match searchBlocks base.blocks key with
  | none => some none
  | some place => do
    let block ← base.blocks[place]?
    match (search key.produced (block.at'.map fun a => (a, ()))).toOption with
    | none => some none
    | some row => block.pattern[row]?.map some

def find (base : Base) (key : RowKey) : Option ℕ := (base.find? key).join

/-- The rows of `delta` that the base does not hold. -/
def fresh (base : Base) (delta : List (RowKey × ℕ)) : Option (List (RowKey × ℕ)) :=
  delta.filterM fun e => (base.find? e.1).map Option.isNone

def entries (base : Base) : List (RowKey × ℕ) := base.blocks.flatMap Block.entries

end Base

/-- `*counts.entry(key).or_default() += n`. -/
def bump (counts : List ((ℕ ×ₗ ℕ) × ℕ)) (key : ℕ ×ₗ ℕ) (n : ℕ) : List ((ℕ ×ₗ ℕ) × ℕ) :=
  match search key counts with
  | .ok place => counts.modify place fun c => (c.1, c.2 + n)
  | .error place => counts.insertIdx place (key, n)

/-- The rows of the blocks and the recent writes in the order of their keys; of two with one key the
recent write is kept. -/
def mergedRows : List (RowKey × ℕ) → List (RowKey × ℕ) → List (RowKey × ℕ)
  | [], new => new
  | old, [] => old
  | a :: old, b :: new =>
    if a.1 < b.1 then a :: mergedRows old (b :: new)
    else if b.1 < a.1 then b :: mergedRows (a :: old) new
    else b :: mergedRows old new
termination_by old new => old.length + new.length

/-- A row put to the end of its block, which has been counted. -/
def pushRow (blocks : List Block) (row : RowKey × ℕ) : Option (List Block) := do
  let place ← searchBlocks blocks row.1
  some (blocks.modify place fun b =>
    { b with at' := b.at' ++ [row.1.produced], pattern := b.pattern ++ [row.2] })

/-- This base with `delta` written over it. -/
def Base.merged (base : Base) (delta : List (RowKey × ℕ)) : Option Base := do
  let counts := base.blocks.foldl (fun counts b => bump counts b.key b.at'.length) []
  let fresh ← base.fresh delta
  let counts := fresh.foldl (fun counts e => bump counts e.1.block 1) counts
  let rows := mergedRows base.entries delta
  let blocks ← rows.foldlM pushRow (counts.map fun c => ⟨c.1.1, c.1.2, [], []⟩)
  some ⟨blocks, rows.length⟩

/-- The blocks rise, the rows of each rise, and the arrays of a block are of one length. -/
structure Ordered (blocks : List Block) : Prop where
  rising : blocks.Pairwise fun a b => a.key < b.key
  rows : ∀ b ∈ blocks, b.at'.Pairwise (· < ·)
  lengths : ∀ b ∈ blocks, b.at'.length = b.pattern.length

section Find

variable {blocks : List Block} {b : Block} {key : RowKey} {p : ℕ}

theorem Block.mem_entries : (key, p) ∈ b.entries ↔
    b.key = key.block ∧ ∃ i : ℕ, b.at'[i]? = some key.produced ∧ b.pattern[i]? = some p := by
  rw [Block.entries, List.mem_map]
  constructor
  · rintro ⟨⟨a, q⟩, hrow, heq⟩
    obtain ⟨rfl, rfl⟩ := Prod.mk.inj heq
    obtain ⟨i, hi⟩ := List.mem_iff_getElem?.mp hrow
    exact ⟨rfl, i, List.getElem?_zip_eq_some.mp hi⟩
  · rintro ⟨hkey, i, hat, hpattern⟩
    refine ⟨(key.produced, p), List.mem_iff_getElem?.mpr ⟨i, ?_⟩, ?_⟩
    · exact List.getElem?_zip_eq_some.mpr ⟨hat, hpattern⟩
    · obtain ⟨hlist, hdirection⟩ := Prod.mk.inj (toLex.injective hkey)
      simp only [hlist, hdirection]

theorem Ordered.sorted_keys (h : Ordered blocks) : Sorted (blocks.map fun b => (b.key, b)) :=
  List.pairwise_map.mpr h.rising

theorem toOption_eq_some_iff {ε α : Type} {r : Except ε α} {a : α} :
    r.toOption = some a ↔ r = .ok a := by
  cases r with
  | error e => simp [Except.toOption]
  | ok x => simp [Except.toOption]

theorem Ordered.searchBlocks_iff (h : Ordered blocks) {place : ℕ} :
    searchBlocks blocks key = some place ↔ ∃ b, blocks[place]? = some b ∧ b.key = key.block := by
  rw [searchBlocks, toOption_eq_some_iff, search_eq_ok_iff h.sorted_keys]
  simp only [List.getElem?_map, Option.map_eq_some_iff, Prod.mk.injEq]
  constructor
  · rintro ⟨_, b, hb, hkey, -⟩
    exact ⟨b, hb, hkey⟩
  · rintro ⟨b, hb, hkey⟩
    exact ⟨b, b, hb, hkey, rfl⟩

theorem searchRows_iff {rows : List ℕ} (h : rows.Pairwise (· < ·)) {a place : ℕ} :
    (search a (rows.map fun a => (a, ()))).toOption = some place ↔ rows[place]? = some a := by
  have hsorted : Sorted (rows.map fun a => (a, ())) := List.pairwise_map.mpr h
  rw [toOption_eq_some_iff, search_eq_ok_iff hsorted]
  simp [List.getElem?_map]

theorem find_eq_some {base : Base} : base.find key = some p ↔
    ∃ place, searchBlocks base.blocks key = some place ∧ ∃ b, base.blocks[place]? = some b ∧
      ∃ row, (search key.produced (b.at'.map fun a => (a, ()))).toOption = some row ∧
        b.pattern[row]? = some p := by
  rw [Base.find, Base.find?]
  cases searchBlocks base.blocks key with
  | none => simp
  | some place =>
    cases hb : base.blocks[place]? with
    | none => simp [hb]
    | some b =>
      cases hrow : (search key.produced (b.at'.map fun a => (a, ()))).toOption with
      | none => simp [hb, hrow]
      | some row => cases hp : b.pattern[row]? <;> simp [hb, hrow, hp]

/-- In an ordered base no index is out of range. -/
theorem Ordered.find?_eq {base : Base} (h : Ordered base.blocks) (key : RowKey) :
    base.find? key = some (base.find key) := by
  have hsome : ∃ found, base.find? key = some found := by
    rw [Base.find?]
    cases hplace : searchBlocks base.blocks key with
    | none => exact ⟨none, rfl⟩
    | some place =>
      obtain ⟨b, hb, -⟩ := h.searchBlocks_iff.mp hplace
      have hmem := List.mem_of_getElem? hb
      simp only [hb, Option.bind_eq_bind, Option.bind_some]
      cases hrow : (search key.produced (b.at'.map fun a => (a, ()))).toOption with
      | none => exact ⟨none, rfl⟩
      | some row =>
        have hlt := (List.getElem?_eq_some_iff.mp ((searchRows_iff (h.rows b hmem)).mp hrow)).1
        rw [h.lengths b hmem] at hlt
        exact ⟨some b.pattern[row], by simp [List.getElem?_eq_getElem hlt]⟩
  obtain ⟨found, hfound⟩ := hsome
  rw [Base.find, hfound, Option.join_some]

theorem filterAuxM_eq_some {α : Type} {f : α → Option Bool} {g : α → Bool} {l : List α}
    (h : ∀ a ∈ l, f a = some (g a)) (acc : List α) :
    l.filterAuxM f acc = some ((l.filter g).reverse ++ acc) := by
  induction l generalizing acc with
  | nil => rfl
  | cons a l ih =>
    rw [List.filterAuxM, h a (by simp)]
    simp only [Option.bind_eq_bind, Option.bind_some, ih fun b hb => h b (by simp [hb])]
    cases hg : g a <;> simp [hg]

theorem Ordered.fresh_eq {base : Base} (h : Ordered base.blocks) (delta : List (RowKey × ℕ)) :
    base.fresh delta = some (delta.filter fun e => (base.find e.1).isNone) := by
  have hfind : ∀ e ∈ delta,
      (base.find? e.1).map Option.isNone = some (base.find e.1).isNone := by
    intro e _
    rw [h.find?_eq, Option.map_some]
  rw [Base.fresh, List.filterM, filterAuxM_eq_some hfind]
  simp

theorem Ordered.find_eq_some_iff {base : Base} (h : Ordered base.blocks) :
    base.find key = some p ↔ (key, p) ∈ base.entries := by
  simp only [find_eq_some, h.searchBlocks_iff]
  rw [Base.entries, List.mem_flatMap]
  constructor
  · rintro ⟨place, ⟨b, hb, hkey⟩, b', hb', row, hrow, hpattern⟩
    obtain rfl : b = b' := Option.some.inj (hb.symm.trans hb')
    have hmem := List.mem_of_getElem? hb
    rw [searchRows_iff (h.rows b hmem)] at hrow
    exact ⟨b, hmem, Block.mem_entries.mpr ⟨hkey, row, hrow, hpattern⟩⟩
  · rintro ⟨b, hmem, hentry⟩
    obtain ⟨hkey, row, hrow, hpattern⟩ := Block.mem_entries.mp hentry
    obtain ⟨place, hb⟩ := List.mem_iff_getElem?.mp hmem
    exact ⟨place, ⟨b, hb, hkey⟩, b, hb, row, (searchRows_iff (h.rows b hmem)).mpr hrow, hpattern⟩

theorem Ordered.sorted_entries {base : Base} (h : Ordered base.blocks) : Sorted base.entries := by
  rw [Sorted, Base.entries, List.pairwise_flatMap]
  constructor
  · intro b hb
    rw [Block.entries, List.pairwise_map]
    have hrows := h.rows b hb
    rw [← List.map_fst_zip (h.lengths b hb).le, List.pairwise_map] at hrows
    refine hrows.imp fun {x y} hlt => ?_
    rw [RowKey.lt_iff]
    exact .inr ⟨rfl, hlt⟩
  · refine h.rising.imp fun hlt e he f hf => RowKey.lt_iff.mpr (.inl ?_)
    rw [← (Block.mem_entries.mp he).1, ← (Block.mem_entries.mp hf).1]
    exact hlt

theorem Ordered.maps {base : Base} (h : Ordered base.blocks) : Maps base.entries base.find :=
  ⟨h.sorted_entries, fun _ _ => h.find_eq_some_iff.symm⟩

end Find

section Merge

theorem mem_mergedRows {old new : List (RowKey × ℕ)} (hold : Sorted old) (hnew : Sorted new)
    {e : RowKey × ℕ} :
    e ∈ mergedRows old new ↔ e ∈ new ∨ e ∈ old ∧ ∀ f ∈ new, f.1 ≠ e.1 := by
  fun_induction mergedRows old new with
  | case1 new => simp
  | case2 old hne => simp
  | case3 a old b new hlt ih =>
    have hbelow : ∀ f ∈ b :: new, a.1 < f.1 := by
      intro f hf
      rcases List.mem_cons.mp hf with rfl | hf
      · exact hlt
      · exact hlt.trans ((List.pairwise_cons.mp hnew).1 f hf)
    rw [List.mem_cons, ih (List.pairwise_cons.mp hold).2 hnew, List.mem_cons (a := e) (b := a)]
    constructor
    · rintro (rfl | hmem | ⟨hmem, hother⟩)
      · exact .inr ⟨.inl rfl, fun f hf => (hbelow f hf).ne'⟩
      · exact .inl hmem
      · exact .inr ⟨.inr hmem, hother⟩
    · rintro (hmem | ⟨rfl | hmem, hother⟩)
      · exact .inr (.inl hmem)
      · exact .inl rfl
      · exact .inr (.inr ⟨hmem, hother⟩)
  | case4 a old b new hge hlt ih =>
    have hbelow : ∀ f ∈ a :: old, b.1 < f.1 := by
      intro f hf
      rcases List.mem_cons.mp hf with rfl | hf
      · exact hlt
      · exact hlt.trans ((List.pairwise_cons.mp hold).1 f hf)
    rw [List.mem_cons, ih hold (List.pairwise_cons.mp hnew).2, List.mem_cons (a := e) (b := b)]
    constructor
    · rintro (rfl | hmem | ⟨hmem, hother⟩)
      · exact .inl (.inl rfl)
      · exact .inl (.inr hmem)
      · refine .inr ⟨hmem, fun f hf => ?_⟩
        rcases List.mem_cons.mp hf with rfl | hf
        · exact (hbelow e hmem).ne
        · exact hother f hf
    · rintro ((rfl | hmem) | ⟨hmem, hother⟩)
      · exact .inl rfl
      · exact .inr (.inl hmem)
      · exact .inr (.inr ⟨hmem, fun f hf => hother f (List.mem_cons_of_mem b hf)⟩)
  | case5 a old b new hge hge' ih =>
    have hsame : a.1 = b.1 := le_antisymm (not_lt.mp hge') (not_lt.mp hge)
    rw [List.mem_cons, ih (List.pairwise_cons.mp hold).2 (List.pairwise_cons.mp hnew).2,
      List.mem_cons (a := e) (b := b)]
    constructor
    · rintro (rfl | hmem | ⟨hmem, hother⟩)
      · exact .inl (.inl rfl)
      · exact .inl (.inr hmem)
      · refine .inr ⟨List.mem_cons_of_mem a hmem, fun f hf => ?_⟩
        rcases List.mem_cons.mp hf with rfl | hf
        · rw [← hsame]
          exact ((List.pairwise_cons.mp hold).1 e hmem).ne
        · exact hother f hf
    · rintro ((rfl | hmem) | ⟨hmem, hother⟩)
      · exact .inl rfl
      · exact .inr (.inl hmem)
      · rcases List.mem_cons.mp hmem with rfl | hmem
        · exact absurd hsame.symm (hother b (by simp))
        · exact .inr (.inr ⟨hmem, fun f hf => hother f (List.mem_cons_of_mem b hf)⟩)

theorem sorted_mergedRows {old new : List (RowKey × ℕ)} (hold : Sorted old) (hnew : Sorted new) :
    Sorted (mergedRows old new) := by
  fun_induction mergedRows old new with
  | case1 new => exact hnew
  | case2 old hne => exact hold
  | case3 a old b new hlt ih =>
    have holds := List.pairwise_cons.mp hold
    refine List.pairwise_cons.mpr ⟨fun e he => ?_, ih holds.2 hnew⟩
    rcases (mem_mergedRows holds.2 hnew).mp he with he | ⟨he, -⟩
    · rcases List.mem_cons.mp he with rfl | he
      · exact hlt
      · exact hlt.trans ((List.pairwise_cons.mp hnew).1 e he)
    · exact holds.1 e he
  | case4 a old b new hge hlt ih =>
    have hnews := List.pairwise_cons.mp hnew
    refine List.pairwise_cons.mpr ⟨fun e he => ?_, ih hold hnews.2⟩
    rcases (mem_mergedRows hold hnews.2).mp he with he | ⟨he, -⟩
    · exact hnews.1 e he
    · rcases List.mem_cons.mp he with rfl | he
      · exact hlt
      · exact hlt.trans ((List.pairwise_cons.mp hold).1 e he)
  | case5 a old b new hge hge' ih =>
    have hsame : a.1 = b.1 := le_antisymm (not_lt.mp hge') (not_lt.mp hge)
    have holds := List.pairwise_cons.mp hold
    have hnews := List.pairwise_cons.mp hnew
    refine List.pairwise_cons.mpr ⟨fun e he => ?_, ih holds.2 hnews.2⟩
    rcases (mem_mergedRows holds.2 hnews.2).mp he with he | ⟨he, -⟩
    · exact hnews.1 e he
    · rw [← hsame]
      exact holds.1 e he

theorem maps_mergedRows {old new : List (RowKey × ℕ)} {m d : RowKey → Option ℕ} (hold : Maps old m)
    (hnew : Maps new d) : Maps (mergedRows old new) fun k => (d k).or (m k) := by
  refine ⟨sorted_mergedRows hold.sorted hnew.sorted, fun k p => ?_⟩
  rw [mem_mergedRows hold.sorted hnew.sorted, hnew.mem_iff, hold.mem_iff, Option.or_eq_some_iff]
  refine or_congr Iff.rfl ⟨?_, ?_⟩
  · rintro ⟨hm, hother⟩
    exact ⟨hnew.get_of_absent hother, hm⟩
  · rintro ⟨hnone, hm⟩
    refine ⟨hm, fun f hf heq => ?_⟩
    have hsome := (hnew.mem_iff f.1 f.2).mp hf
    rw [heq, hnone] at hsome
    cases hsome

theorem maps_bump {counts : List ((ℕ ×ₗ ℕ) × ℕ)} {m : (ℕ ×ₗ ℕ) → Option ℕ} (h : Maps counts m)
    (key : ℕ ×ₗ ℕ) (n : ℕ) :
    Maps (bump counts key n) (Function.update m key (some ((m key).getD 0 + n))) := by
  rw [bump]
  cases hsearch : search key counts with
  | ok place =>
    obtain ⟨front, c, back, rfl, rfl⟩ := search_ok hsearch
    have hmap : m key = some c := h.get_of_split
    simp only
    rw [SortedChunks.modify_middle, hmap]
    exact h.replace (c + n)
  | error place =>
    obtain ⟨front, back, rfl, rfl, hfront, hback⟩ := search_error h.sorted hsearch
    have hmap : m key = none := h.get_of_absent fun e he => by
      rcases List.mem_append.mp he with he | he
      · exact (hfront e he).ne
      · exact (hback e he).ne'
    simp only
    rw [SortedChunks.insertIdx_middle, hmap, Option.getD_none, Nat.zero_add]
    exact h.insert hfront hback n

theorem maps_foldl_bump {α : Type} (key : α → ℕ ×ₗ ℕ) (n : α → ℕ) (l : List α)
    {counts : List ((ℕ ×ₗ ℕ) × ℕ)} {m : (ℕ ×ₗ ℕ) → Option ℕ} (h : Maps counts m) :
    ∃ m', Maps (l.foldl (fun counts a => bump counts (key a) (n a)) counts) m' ∧
      (∀ a ∈ l, (m' (key a)).isSome) ∧ ∀ k, (m k).isSome → (m' k).isSome := by
  induction l generalizing counts m with
  | nil => exact ⟨m, h, by simp, fun _ hk => hk⟩
  | cons a l ih =>
    obtain ⟨m', hmaps, hl, hkept⟩ := ih (maps_bump h (key a) (n a))
    refine ⟨m', hmaps, fun b hb => ?_, fun k hk => hkept k ?_⟩
    · rcases List.mem_cons.mp hb with rfl | hb
      · exact hkept _ (by rw [Function.update_self]; rfl)
      · exact hl b hb
    · by_cases hkey : k = key a
      · rw [hkey, Function.update_self]
        rfl
      · rwa [Function.update_of_ne hkey]

/-- A block with the rows of a list that are its own behind those it holds. -/
def Block.fill (rows : List (RowKey × ℕ)) (b : Block) : Block :=
  let own := rows.filter fun r => r.1.block = b.key
  { b with at' := b.at' ++ own.map (·.1.produced), pattern := b.pattern ++ own.map (·.2) }

@[simp] theorem Block.key_fill (rows : List (RowKey × ℕ)) (b : Block) : (b.fill rows).key = b.key := rfl

theorem Block.fill_cons (r : RowKey × ℕ) (rows : List (RowKey × ℕ)) (b : Block) :
    (b.fill [r]).fill rows = b.fill (r :: rows) := by
  rw [Block.fill, Block.key_fill, Block.fill, Block.fill, List.filter_singleton, List.filter_cons]
  by_cases hkey : r.1.block = b.key
  · simp [hkey]
  · simp [hkey]

theorem pushRow_eq {blocks : List Block} (h : Sorted (blocks.map fun b => (b.key, b)))
    {r : RowKey × ℕ} (hmem : ∃ b ∈ blocks, b.key = r.1.block) :
    pushRow blocks r = some (blocks.map (Block.fill [r])) := by
  obtain ⟨b, hb, hkey⟩ := hmem
  obtain ⟨front, back, rfl⟩ := List.append_of_mem hb
  have hplace : searchBlocks (front ++ b :: back) r.1 = some front.length := by
    rw [searchBlocks, toOption_eq_some_iff, search_eq_ok_iff h]
    exact ⟨b, by simp [hkey]⟩
  have hpairs := List.pairwise_append.mp (List.pairwise_map.mp h)
  have hother : ∀ c : Block, c.key ≠ r.1.block → c.fill [r] = c := by
    intro c hc
    have hne : ¬ r.1.block = c.key := fun heq => hc heq.symm
    simp [Block.fill, hne]
  have hkeep : ∀ l : List Block, (∀ c ∈ l, c.key ≠ r.1.block) → l.map (Block.fill [r]) = l := by
    intro l hl
    rw [List.map_congr_left (g := id) fun c hc => hother c (hl c hc), List.map_id]
  have hfront := hkeep front fun c hc => by
    rw [← hkey]
    exact (hpairs.2.2 c hc b (by simp)).ne
  have hback := hkeep back fun c hc => by
    rw [← hkey]
    exact ((List.pairwise_cons.mp hpairs.2.1).1 c hc).ne'
  rw [pushRow, hplace, List.map_append, List.map_cons, hfront, hback]
  simp only [Option.bind_eq_bind, Option.bind_some]
  rw [SortedChunks.modify_middle]
  simp [Block.fill, hkey]

theorem foldlM_pushRow (rows : List (RowKey × ℕ)) {blocks : List Block}
    (h : Sorted (blocks.map fun b => (b.key, b)))
    (hmem : ∀ r ∈ rows, ∃ b ∈ blocks, b.key = r.1.block) :
    rows.foldlM pushRow blocks = some (blocks.map (Block.fill rows)) := by
  induction rows generalizing blocks with
  | nil =>
    have hnil : Block.fill [] = id := by
      funext b
      simp [Block.fill]
    rw [hnil, List.map_id]
    rfl
  | cons r rows ih =>
    rw [List.foldlM_cons, pushRow_eq h (hmem r (by simp))]
    simp only [Option.bind_eq_bind, Option.bind_some]
    rw [ih]
    · rw [List.map_map]
      congr 2
      funext b
      exact Block.fill_cons r rows b
    · rw [Sorted, List.pairwise_map] at h ⊢
      rw [List.pairwise_map]
      exact h
    · intro r' hr'
      obtain ⟨b, hb, hkey⟩ := hmem r' (List.mem_cons_of_mem r hr')
      exact ⟨b.fill [r], List.mem_map_of_mem hb, hkey⟩

theorem ordered_filled {keys : List (ℕ ×ₗ ℕ)} (hkeys : keys.Pairwise (· < ·))
    {rows : List (RowKey × ℕ)} (hrows : Sorted rows) (hmem : ∀ r ∈ rows, r.1.block ∈ keys) (n : ℕ) :
    Ordered (keys.map fun k => Block.fill rows ⟨k.1, k.2, [], []⟩) ∧
      ∀ e, e ∈ Base.entries ⟨keys.map fun k => Block.fill rows ⟨k.1, k.2, [], []⟩, n⟩ ↔ e ∈ rows := by
  have hkey : ∀ k : ℕ ×ₗ ℕ, (Block.fill rows ⟨k.1, k.2, [], []⟩).key = k := fun k => rfl
  have hentries : ∀ k : ℕ ×ₗ ℕ, (Block.fill rows ⟨k.1, k.2, [], []⟩).entries =
      rows.filter fun r => r.1.block = k := by
    intro k
    have hown : ∀ r ∈ rows.filter fun r => r.1.block = k, r.1.block = k := by
      intro r hr
      simpa using (List.mem_filter.mp hr).2
    simp only [Block.entries, Block.fill, List.nil_append]
    rw [List.zip_map', List.map_map]
    refine (List.map_congr_left (g := id) fun r hr => ?_).trans (List.map_id _)
    refine Prod.ext (RowKey.eq_of_parts ?_ rfl) rfl
    exact (hown r hr).symm
  refine ⟨⟨?_, ?_, ?_⟩, fun e => ?_⟩
  · rw [List.pairwise_map]
    exact hkeys
  · intro b hb
    obtain ⟨k, -, rfl⟩ := List.mem_map.mp hb
    simp only [Block.fill, List.nil_append]
    rw [List.pairwise_map]
    refine (List.Pairwise.filter _ hrows).imp_of_mem fun {x y} hx hy hlt => ?_
    have hblock : x.1.block = y.1.block := by
      have hx' := (List.mem_filter.mp hx).2
      have hy' := (List.mem_filter.mp hy).2
      rw [decide_eq_true_eq] at hx' hy'
      rw [hx', hy']
    rcases RowKey.lt_iff.mp hlt with hlt | ⟨-, hlt⟩
    · exact absurd hblock hlt.ne
    · exact hlt
  · intro b hb
    obtain ⟨k, -, rfl⟩ := List.mem_map.mp hb
    simp [Block.fill]
  · rw [Base.entries, List.mem_flatMap]
    constructor
    · rintro ⟨b, hb, he⟩
      obtain ⟨k, -, rfl⟩ := List.mem_map.mp hb
      rw [hentries] at he
      exact (List.mem_filter.mp he).1
    · intro he
      refine ⟨_, List.mem_map_of_mem (hmem e he), ?_⟩
      rw [hentries]
      exact List.mem_filter.mpr ⟨he, by simp⟩

theorem nodup_of_sorted {rows : List (RowKey × ℕ)} (h : Sorted rows) : rows.Nodup := by
  rw [List.Nodup]
  refine h.imp fun {a b} hlt heq => ?_
  rw [heq] at hlt
  exact lt_irrefl _ hlt

theorem Ordered.merged {base : Base} (h : Ordered base.blocks) {delta : List (RowKey × ℕ)}
    {d : RowKey → Option ℕ} (hdelta : Maps delta d) :
    ∃ base', base.merged delta = some base' ∧ Ordered base'.blocks ∧
      base'.rows = base'.entries.length ∧ ∀ k, base'.find k = (d k).or (base.find k) := by
  obtain ⟨m, hcounts, hold, -⟩ := maps_foldl_bump Block.key (fun b => b.at'.length) base.blocks
    (@maps_nil (ℕ ×ₗ ℕ) ℕ _)
  obtain ⟨m', hcounts', hnew, hkept⟩ := maps_foldl_bump (fun e : RowKey × ℕ => e.1.block) (fun _ => 1)
    (delta.filter fun e => (base.find e.1).isNone) hcounts
  have hrows := maps_mergedRows h.maps hdelta
  set counts := (delta.filter fun e => (base.find e.1).isNone).foldl
    (fun counts e => bump counts e.1.block 1)
    (base.blocks.foldl (fun counts b => bump counts b.key b.at'.length) []) with hcountsdef
  have hblock : ∀ key : RowKey, (base.find key).isSome → (m' key.block).isSome := by
    intro key hsome
    obtain ⟨p, hp⟩ := Option.isSome_iff_exists.mp hsome
    obtain ⟨b, hb, hentry⟩ := List.mem_flatMap.mp (h.find_eq_some_iff.mp hp)
    rw [← (Block.mem_entries.mp hentry).1]
    exact hkept _ (hold b hb)
  have hcounted : ∀ r ∈ mergedRows base.entries delta, r.1.block ∈ counts.map Prod.fst := by
    intro r hr
    have hsome : (m' r.1.block).isSome := by
      cases hfind : base.find r.1 with
      | some p => exact hblock r.1 (by rw [hfind]; rfl)
      | none =>
        rcases (mem_mergedRows h.maps.sorted hdelta.sorted).mp hr with hr | ⟨hr, -⟩
        · exact hnew r (List.mem_filter.mpr ⟨hr, by rw [hfind]; rfl⟩)
        · rw [← h.find_eq_some_iff, hfind] at hr
          cases hr
    obtain ⟨n, hn⟩ := Option.isSome_iff_exists.mp hsome
    exact List.mem_map.mpr ⟨(r.1.block, n), (hcounts'.mem_iff _ _).mpr hn, rfl⟩
  have hrising : (counts.map Prod.fst).Pairwise (· < ·) := List.pairwise_map.mpr hcounts'.sorted
  obtain ⟨hordered, hentries⟩ := ordered_filled hrising hrows.sorted hcounted
    (mergedRows base.entries delta).length
  have hblocks : (mergedRows base.entries delta).foldlM pushRow
      (counts.map fun c => ⟨c.1.1, c.1.2, [], []⟩) =
      some ((counts.map Prod.fst).map fun k =>
        Block.fill (mergedRows base.entries delta) ⟨k.1, k.2, [], []⟩) := by
    rw [foldlM_pushRow, List.map_map, List.map_map]
    · rfl
    · rw [Sorted, List.pairwise_map, List.pairwise_map]
      exact hcounts'.sorted
    · intro r hr
      obtain ⟨c, hc, hkey⟩ := List.mem_map.mp (hcounted r hr)
      exact ⟨_, List.mem_map_of_mem hc, hkey⟩
  refine ⟨⟨_, (mergedRows base.entries delta).length⟩, ?_, hordered, ?_, fun k => ?_⟩
  · rw [Base.merged, h.fresh_eq]
    simp only [← hcountsdef, hblocks, Option.bind_eq_bind, Option.bind_some]
  · refine (List.Perm.length_eq ?_).symm
    rw [List.perm_ext_iff_of_nodup (nodup_of_sorted (Ordered.sorted_entries hordered))
      (nodup_of_sorted hrows.sorted)]
    exact hentries
  · refine Option.ext fun p => ?_
    rw [Ordered.find_eq_some_iff hordered, hentries, hrows.mem_iff]

end Merge

end VerdictColumn

end WatchingZenoh
