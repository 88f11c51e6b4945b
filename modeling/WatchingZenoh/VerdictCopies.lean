import WatchingZenoh.VerdictColumn

/-! A verdict column and its copies. The patterns and the sorted rows are shared between copies, each
in a counted cell; a copy writes a cell in place when no other holds it, makes a cell of its own for
the patterns otherwise, and leaves the rows unmerged while they are shared. -/

namespace WatchingZenoh.VerdictColumn

/-- A copy: the cells it holds, and its own recent writes. -/
structure Copy where
  patterns : ℕ
  base : ℕ
  delta : SortedChunks RowKey ℕ

structure Copies where
  patterns : List Patterns
  bases : List Base
  copies : List (Option Copy)

inductive Op
  | new
  | record (copy : ℕ) (key : RowKey) (truth : Truth)
  | clone (copy : ℕ)
  | drop (copy : ℕ)

namespace Copies

def start : Copies := ⟨[], [], []⟩

def copy (s : Copies) (i : ℕ) : Option Copy := s.copies[i]?.join

def holders (s : Copies) (cell : Copy → ℕ) (at' : ℕ) : ℕ :=
  s.copies.countP fun c => c.any fun c => cell c = at'

def view (s : Copies) (c : Copy) : Option View := do
  let patterns ← s.patterns[c.patterns]?
  let base ← s.bases[c.base]?
  some ⟨patterns, base, c.delta⟩

def foldIntoBaseIfDue (s : Copies) (i : ℕ) (c : Copy) (base : Base) : Option (Copies × Copy × Base) :=
  if c.delta.len ≤ 64 + base.rows / 32 then some (s, c, base)
  else if s.holders Copy.base c.base = 1 then do
    let base' ← base.merged c.delta.iter
    let c' := { c with delta := c.delta.clear }
    some ({ s with bases := s.bases.set c.base base', copies := s.copies.set i (some c') }, c', base')
  else some (s, c, base)

/-- `Arc::make_mut` and the write. -/
def writePatterns (s : Copies) (i : ℕ) (c : Copy) (patterns : Patterns) (delta : SortedChunks RowKey ℕ) :
    Copies :=
  if s.holders Copy.patterns c.patterns = 1 then
    { s with
      patterns := s.patterns.set c.patterns patterns
      copies := s.copies.set i (some { c with delta := delta }) }
  else
    { s with
      patterns := s.patterns ++ [patterns]
      copies := s.copies.set i (some { c with patterns := s.patterns.length, delta := delta }) }

def record (s : Copies) (i : ℕ) (key : RowKey) (truth : Truth) : Option Copies :=
  match s.copy i with
  | none => some s
  | some c => do
    let v ← s.view c
    let (s, c, base) ← s.foldIntoBaseIfDue i c v.base
    let from' := (View.pattern ⟨v.patterns, base, c.delta⟩ key).getD empty
    let (patterns, number) ← v.patterns.extend from' truth
    some (s.writePatterns i c patterns (c.delta.insert key number).1)

def step (s : Copies) : Op → Option Copies
  | .new => some ⟨s.patterns ++ [Patterns.default], s.bases ++ [Base.default],
      s.copies ++ [some ⟨s.patterns.length, s.bases.length, SortedChunks.new⟩]⟩
  | .record i key truth => s.record i key truth
  | .clone i => some { s with copies := s.copies ++ ((s.copy i).map some).toList }
  | .drop i => some { s with copies := s.copies.set i none }

def run (ops : List Op) : Option Copies := ops.foldlM step start

end Copies

/-- The histories of the copies; that of a dropped copy is gone. -/
def histories : List (Option History) → Op → List (Option History)
  | h, .new => h ++ [some []]
  | h, .record i key truth => h.modify i (Option.map (· ++ [(key, truth)]))
  | h, .clone i => h ++ (h[i]?.join.map some).toList
  | h, .drop i => h.set i none

theorem eq_of_countP_eq_one {α : Type} {p : α → Bool} {l : List α} (h : l.countP p = 1) {i j : ℕ}
    {x y : α} (hi : l[i]? = some x) (hx : p x = true) (hj : l[j]? = some y) (hy : p y = true) :
    i = j := by
  have hnot : ∀ (l : List α) (k : ℕ) (z : α), l.countP p = 0 → l[k]? = some z → ¬ p z = true :=
    fun l k z hzero hz => List.countP_eq_zero.mp hzero z (List.mem_of_getElem? hz)
  induction l generalizing i j with
  | nil => simp at hi
  | cons a l ih =>
    rw [List.countP_cons] at h
    cases i with
    | zero =>
      cases j with
      | zero => rfl
      | succ j =>
        rw [List.getElem?_cons_zero, Option.some.injEq] at hi
        rw [List.getElem?_cons_succ] at hj
        subst hi
        rw [if_pos hx] at h
        exact absurd hy (hnot l j y (by omega) hj)
    | succ i =>
      rw [List.getElem?_cons_succ] at hi
      by_cases ha : p a = true
      · rw [if_pos ha] at h
        exact absurd hx (hnot l i x (by omega) hi)
      · rw [if_neg ha] at h
        cases j with
        | zero =>
          rw [List.getElem?_cons_zero, Option.some.injEq] at hj
          subst hj
          exact absurd hy ha
        | succ j =>
          rw [List.getElem?_cons_succ] at hj
          rw [ih (by omega) hi hj]

namespace Copies

variable {s s' : Copies} {i j : ℕ} {c c' : Copy} {v : View}

theorem copy_eq_some_iff : s.copy i = some c ↔ s.copies[i]? = some (some c) := by
  rw [copy]
  cases s.copies[i]? <;> simp

theorem cell_ne_of_holders {cell : Copy → ℕ} (h : s.holders cell (cell c) = 1)
    (hi : s.copy i = some c) (hj : s.copy j = some c') (hne : j ≠ i) : cell c' ≠ cell c := by
  intro heq
  refine hne (eq_of_countP_eq_one h (copy_eq_some_iff.mp hj) ?_ (copy_eq_some_iff.mp hi) ?_)
  · simp [heq]
  · simp

theorem view_eq_some_iff : s.view c = some v ↔
    s.patterns[c.patterns]? = some v.patterns ∧ s.bases[c.base]? = some v.base ∧
      v.delta = c.delta := by
  obtain ⟨patterns, base, delta⟩ := v
  simp only [view, Option.bind_eq_bind, Option.bind_eq_some_iff, Option.some.injEq, View.mk.injEq]
  constructor
  · rintro ⟨ps, hps, b, hb, rfl, rfl, rfl⟩
    exact ⟨hps, hb, rfl⟩
  · rintro ⟨hps, hb, rfl⟩
    exact ⟨patterns, hps, base, hb, rfl, rfl, rfl⟩

theorem copy_set (x : Option Copy) (hi : i < s.copies.length) (hcopies : s'.copies = s.copies.set i x) :
    s'.copy j = if j = i then x else s.copy j := by
  rw [copy, hcopies, List.getElem?_set]
  by_cases hji : j = i
  · subst hji
    simp [hi]
  · rw [if_neg fun h => hji h.symm, if_neg hji]
    rfl

theorem lt_of_copy (h : s.copy i = some c) : i < s.copies.length :=
  (List.getElem?_eq_some_iff.mp (copy_eq_some_iff.mp h)).1

/-- Every copy reads as its own history, and no trie is larger than the number of records made. -/
structure Agrees (s : Copies) (h : List (Option History)) (n : ℕ) : Prop where
  length : s.copies.length = h.length
  live : ∀ i, s.copy i = none ↔ h[i]?.join = none
  reads : ∀ i c l, s.copy i = some c → h[i]?.join = some l → ∃ v, s.view c = some v ∧ v.Holds l
  bounded : ∀ ps ∈ s.patterns, ps.list.length ≤ n + 1

theorem agrees_start : start.Agrees [] 0 := ⟨rfl, by simp [copy, start], by simp [copy, start],
  by simp [start]⟩

variable {h : List (Option History)} {n : ℕ}

theorem Agrees.write (hs : s.Agrees h n) (hcopy : s.copy i = some c) {c' : Copy} {l' : History}
    {m : ℕ} (hcopies : s'.copies = s.copies.set i (some c'))
    (hview : ∃ v, s'.view c' = some v ∧ v.Holds l')
    (hothers : ∀ j d v, j ≠ i → s.copy j = some d → s.view d = some v → s'.view d = some v)
    (hbounded : ∀ ps ∈ s'.patterns, ps.list.length ≤ m + 1) :
    s'.Agrees (h.set i (some l')) m := by
  have hlt := lt_of_copy hcopy
  have hlt' : i < h.length := by
    rw [← hs.length]
    exact hlt
  have hget : ∀ j, (h.set i (some l'))[j]?.join = if j = i then some l' else h[j]?.join := by
    intro j
    rw [List.getElem?_set]
    by_cases hji : j = i
    · subst hji
      simp [hlt']
    · rw [if_neg fun heq => hji heq.symm, if_neg hji]
  refine ⟨?_, fun j => ?_, fun j d l hd hl => ?_, hbounded⟩
  · rw [hcopies, List.length_set, List.length_set, hs.length]
  · rw [copy_set _ hlt hcopies, hget]
    split_ifs
    · simp
    · exact hs.live j
  · rw [copy_set _ hlt hcopies] at hd
    rw [hget] at hl
    split_ifs at hd hl with hji
    · cases hd
      cases hl
      exact hview
    · obtain ⟨v, hv, hholds⟩ := hs.reads j d l hd hl
      exact ⟨v, hothers j d v hji hd hv, hholds⟩

theorem Agrees.add (hs : s.Agrees h n) {l : History} (hcopies : s'.copies = s.copies ++ [some c])
    (hview : ∃ v, s'.view c = some v ∧ v.Holds l)
    (hothers : ∀ d v, s.view d = some v → s'.view d = some v)
    (hbounded : ∀ ps ∈ s'.patterns, ps.list.length ≤ n + 1) :
    s'.Agrees (h ++ [some l]) n := by
  have happend : ∀ {α : Type} (l : List (Option α)) (x : α) (j : ℕ), (l ++ [some x])[j]?.join =
      if j = l.length then some x else l[j]?.join := by
    intro α l x j
    split_ifs with hj
    · subst hj
      simp
    · by_cases hlt : j < l.length
      · rw [List.getElem?_append_left hlt]
      · rw [List.getElem?_eq_none (by simp; omega), List.getElem?_eq_none (by omega)]
  refine ⟨?_, fun j => ?_, fun j d l' hd hl => ?_, hbounded⟩
  · rw [hcopies, List.length_append, List.length_append, hs.length]
    rfl
  · rw [copy, hcopies, happend, happend, hs.length]
    split_ifs
    · simp
    · exact hs.live j
  · rw [copy, hcopies, happend] at hd
    rw [happend, ← hs.length] at hl
    split_ifs at hd hl with hj
    · cases hd
      cases hl
      exact hview
    · obtain ⟨v, hv, hholds⟩ := hs.reads j d l' hd hl
      exact ⟨v, hothers d v hv, hholds⟩

theorem set_self {α : Type} {l : List (Option α)} {x : α} (hi : l[i]?.join = some x) :
    l.set i (some x) = l := by
  have hget : l[i]? = some (some x) := by
    cases hl : l[i]? with
    | none => simp [hl] at hi
    | some y =>
      rw [hl, Option.join_some] at hi
      rw [hi]
  obtain ⟨hlt, hget⟩ := List.getElem?_eq_some_iff.mp hget
  rw [← hget, List.set_getElem_self]

theorem Agrees.foldIntoBaseIfDue (hs : s.Agrees h n) {l : History} (hcopy : s.copy i = some c)
    (hl : h[i]?.join = some l) (hview : s.view c = some v) (hv : v.Holds l) :
    ∃ s' c' base', s.foldIntoBaseIfDue i c v.base = some (s', c', base') ∧ s'.Agrees h n ∧
      s'.copy i = some c' ∧ s'.view c' = some ⟨v.patterns, base', c'.delta⟩ := by
  obtain ⟨hpatterns, hbase, hdelta⟩ := view_eq_some_iff.mp hview
  have hsame : s.view c = some ⟨v.patterns, v.base, c.delta⟩ :=
    view_eq_some_iff.mpr ⟨hpatterns, hbase, rfl⟩
  rw [Copies.foldIntoBaseIfDue]
  split_ifs with hdue hunique
  · exact ⟨s, c, v.base, rfl, hs, hcopy, hsame⟩
  · obtain ⟨base', hmerged, hholds⟩ := hv.merged
    rw [hdelta] at hmerged hholds
    rw [hmerged]
    set s' : Copies := ⟨s.patterns, s.bases.set c.base base',
      s.copies.set i (some { c with delta := c.delta.clear })⟩ with hs'
    have hlt : c.base < s.bases.length := (List.getElem?_eq_some_iff.mp hbase).1
    have hview' : s'.view { c with delta := c.delta.clear } =
        some ⟨v.patterns, base', c.delta.clear⟩ :=
      view_eq_some_iff.mpr ⟨hpatterns, by simp [hs', hlt], rfl⟩
    refine ⟨s', { c with delta := c.delta.clear }, base', rfl, ?_, ?_, hview'⟩
    · rw [← set_self hl]
      refine hs.write hcopy rfl ⟨_, hview', hholds⟩ (fun j d w hji hd hw => ?_) hs.bounded
      obtain ⟨hp, hb, hdel⟩ := view_eq_some_iff.mp hw
      have hne := cell_ne_of_holders hunique hcopy hd hji
      refine view_eq_some_iff.mpr ⟨hp, ?_, hdel⟩
      simp only [hs']
      rw [List.getElem?_set_ne (Ne.symm hne)]
      exact hb
    · rw [copy_set _ (lt_of_copy hcopy) rfl, if_pos rfl]
  · exact ⟨s, c, v.base, rfl, hs, hcopy, hsame⟩

theorem Agrees.writePatterns (hs : s.Agrees h n) {l : History} {key : RowKey} {truth : Truth}
    {patterns : Patterns} {delta : SortedChunks RowKey ℕ} (hcopy : s.copy i = some c)
    (hview : s.view c = some v) (hv : View.Holds ⟨patterns, v.base, delta⟩ (l ++ [(key, truth)]))
    (hlen : patterns.list.length ≤ n + 2) :
    (s.writePatterns i c patterns delta).Agrees (h.set i (some (l ++ [(key, truth)]))) (n + 1) := by
  obtain ⟨hpatterns, hbase, -⟩ := view_eq_some_iff.mp hview
  have hlt : c.patterns < s.patterns.length := (List.getElem?_eq_some_iff.mp hpatterns).1
  rw [Copies.writePatterns]
  split_ifs with hunique
  · refine hs.write hcopy rfl ⟨⟨patterns, v.base, delta⟩, view_eq_some_iff.mpr ⟨?_, hbase, rfl⟩, hv⟩
      (fun j d w hji hd hw => ?_) fun ps hps => ?_
    · simp [hlt]
    · obtain ⟨hp, hb, hdel⟩ := view_eq_some_iff.mp hw
      have hne := cell_ne_of_holders hunique hcopy hd hji
      refine view_eq_some_iff.mpr ⟨?_, hb, hdel⟩
      simp only
      rw [List.getElem?_set_ne (Ne.symm hne)]
      exact hp
    · rcases List.mem_or_eq_of_mem_set hps with hps | rfl
      · have := hs.bounded ps hps
        omega
      · omega
  · refine hs.write hcopy rfl ⟨⟨patterns, v.base, delta⟩, view_eq_some_iff.mpr ⟨?_, hbase, rfl⟩, hv⟩
      (fun j d w hji hd hw => ?_) fun ps hps => ?_
    · simp
    · obtain ⟨hp, hb, hdel⟩ := view_eq_some_iff.mp hw
      refine view_eq_some_iff.mpr ⟨?_, hb, hdel⟩
      simp only
      rw [List.getElem?_append_left (List.getElem?_eq_some_iff.mp hp).1]
      exact hp
    · rcases List.mem_append.mp hps with hps | hps
      · have := hs.bounded ps hps
        omega
      · rw [List.mem_singleton] at hps
        subst hps
        omega

theorem Agrees.record (hs : s.Agrees h n) (i : ℕ) (key : RowKey) (truth : Truth) :
    (n + 1 < 2 ^ 32 → (s.record i key truth).isSome) ∧
      ∀ s', s.record i key truth = some s' →
        s'.Agrees (h.modify i (Option.map (· ++ [(key, truth)]))) (n + 1) := by
  rw [Copies.record]
  cases hcopy : s.copy i with
  | none =>
    have hdead := (hs.live i).mp hcopy
    have hsame : h.modify i (Option.map (· ++ [(key, truth)])) = h := by
      refine List.ext_getElem? fun j => ?_
      rw [List.getElem?_modify]
      by_cases hij : i = j
      · subst hij
        cases hget : h[i]? with
        | none => rfl
        | some x =>
          rw [hget, Option.join_some] at hdead
          simp [hdead]
      · cases hget : h[j]? <;> simp [hij]
    refine ⟨fun _ => rfl, fun s' hs' => ?_⟩
    cases hs'
    rw [hsame]
    exact ⟨hs.length, hs.live, hs.reads, fun ps hps => by have := hs.bounded ps hps; omega⟩
  | some c =>
    obtain ⟨l, hl⟩ : ∃ l, h[i]?.join = some l := by
      refine Option.ne_none_iff_exists'.mp fun hnone => ?_
      rw [(hs.live i).mpr hnone] at hcopy
      cases hcopy
    obtain ⟨v, hview, hv⟩ := hs.reads i c l hcopy hl
    obtain ⟨s₁, c₁, base', hfold, hs₁, hcopy₁, hview₁⟩ := hs.foldIntoBaseIfDue hcopy hl hview hv
    obtain ⟨w, hw, hholds⟩ := hs₁.reads i c₁ l hcopy₁ hl
    obtain rfl : _ = w := Option.some.inj (hview₁.symm.trans hw)
    have hbound : v.patterns.list.length ≤ n + 1 :=
      hs.bounded _ (List.mem_of_getElem? (view_eq_some_iff.mp hview).1)
    have hmodify : h.modify i (Option.map (· ++ [(key, truth)])) =
        h.set i (some (l ++ [(key, truth)])) := by
      refine List.ext_getElem? fun j => ?_
      rw [List.getElem?_modify, List.getElem?_set]
      by_cases hij : i = j
      · subst hij
        cases hget : h[i]? with
        | none => simp [hget] at hl
        | some x =>
          rw [hget, Option.join_some] at hl
          simp [hl, (List.getElem?_eq_some_iff.mp hget).1]
      · cases hget : h[j]? <;> simp [hij]
    simp only [hview, hfold, Option.bind_eq_bind, Option.bind_some]
    constructor
    · intro hroom
      have hsome : (v.patterns.extend ((View.pattern ⟨v.patterns, base', c₁.delta⟩ key).getD empty)
          truth).isSome :=
        Patterns.extend_isSome (hholds.start key) (lt_of_le_of_lt hbound hroom)
      obtain ⟨⟨patterns, number⟩, hrun⟩ := Option.isSome_iff_exists.mp hsome
      rw [hrun]
      rfl
    · intro s' hrun
      obtain ⟨⟨patterns, number⟩, hextend, heq⟩ := Option.bind_eq_some_iff.mp hrun
      cases heq
      rw [hmodify]
      have hextends := hholds.trie.extend (hholds.start key) hextend
      refine hs₁.writePatterns hcopy₁ hview₁ (hholds.extended hextend) ?_
      exact hextends.length.trans (Nat.succ_le_succ hbound)

theorem Agrees.mono {m : ℕ} (hs : s.Agrees h n) (hnm : n ≤ m) : s.Agrees h m :=
  ⟨hs.length, hs.live, hs.reads, fun ps hps => (hs.bounded ps hps).trans (by omega)⟩

theorem Agrees.step (hs : s.Agrees h n) (op : Op) :
    (n + 1 < 2 ^ 32 → (s.step op).isSome) ∧
      ∀ s', s.step op = some s' → s'.Agrees (histories h op) (n + 1) := by
  cases op with
  | record i key truth => exact hs.record i key truth
  | new =>
    refine ⟨fun _ => rfl, fun s' hs' => ?_⟩
    cases hs'
    refine (hs.add rfl ⟨⟨Patterns.default, Base.default, SortedChunks.new⟩, ?_, holds_default⟩
      (fun d v hv => ?_) fun ps hps => ?_).mono (Nat.le_succ n)
    · exact view_eq_some_iff.mpr ⟨by simp, by simp, rfl⟩
    · obtain ⟨hp, hb, hdelta⟩ := view_eq_some_iff.mp hv
      refine view_eq_some_iff.mpr ⟨?_, ?_, hdelta⟩
      · simp only
        rw [List.getElem?_append_left (List.getElem?_eq_some_iff.mp hp).1]
        exact hp
      · simp only
        rw [List.getElem?_append_left (List.getElem?_eq_some_iff.mp hb).1]
        exact hb
    · rcases List.mem_append.mp hps with hps | hps
      · exact hs.bounded ps hps
      · rw [List.mem_singleton] at hps
        subst hps
        simp [Patterns.default]
  | clone i =>
    refine ⟨fun _ => rfl, fun s' hs' => ?_⟩
    cases hs'
    rw [histories]
    cases hcopy : s.copy i with
    | none =>
      rw [(hs.live i).mp hcopy]
      simp only [Option.map_none, Option.toList_none, List.append_nil]
      exact hs.mono (Nat.le_succ n)
    | some c =>
      obtain ⟨l, hl⟩ : ∃ l, h[i]?.join = some l := by
        refine Option.ne_none_iff_exists'.mp fun hnone => ?_
        rw [(hs.live i).mpr hnone] at hcopy
        cases hcopy
      rw [hl]
      simp only [Option.map_some, Option.toList_some]
      refine Agrees.mono ?_ (Nat.le_succ n)
      exact hs.add rfl (hs.reads i c l hcopy hl) (fun d v hv => hv) hs.bounded
  | drop i =>
    refine ⟨fun _ => rfl, fun s' hs' => ?_⟩
    cases hs'
    have hset : ∀ {α : Type} (l : List (Option α)) (j : ℕ), (l.set i none)[j]?.join =
        if i = j then none else l[j]?.join := by
      intro α l j
      rw [List.getElem?_set]
      split_ifs <;> rfl
    refine ⟨by simp [histories, hs.length], fun j => ?_, fun j c l hc hl => ?_, fun ps hps => ?_⟩
    · rw [copy, histories, hset, hset]
      split_ifs
      · simp
      · exact hs.live j
    · rw [copy, hset] at hc
      rw [histories, hset] at hl
      split_ifs at hc hl
      exact hs.reads j c l hc hl
    · exact (hs.bounded ps hps).trans (by omega)

theorem run_append (ops : List Op) (op : Op) : run (ops ++ [op]) = (run ops).bind (step · op) := by
  rw [run, List.foldlM_append]
  cases hrun : List.foldlM step start ops with
  | none => simp [run, hrun]
  | some s => simp [run, hrun]

theorem agrees_run (ops : List Op) :
    (ops.length < 2 ^ 32 → (run ops).isSome) ∧
      ∀ s, run ops = some s → s.Agrees (ops.foldl histories []) ops.length := by
  induction ops using List.reverseRecOn with
  | nil =>
    refine ⟨fun _ => rfl, fun s hs => ?_⟩
    cases hs
    exact agrees_start
  | append_singleton ops op ih =>
    obtain ⟨hsome, hagrees⟩ := ih
    rw [run_append, List.length_append, List.length_singleton, List.foldl_append, List.foldl_cons,
      List.foldl_nil]
    refine ⟨fun hroom => ?_, fun s hs => ?_⟩
    · obtain ⟨s, hs⟩ := Option.isSome_iff_exists.mp (hsome (by omega))
      rw [hs, Option.bind_some]
      exact ((hagrees s hs).step op).1 hroom
    · obtain ⟨s₀, hs₀, hstep⟩ := Option.bind_eq_some_iff.mp hs
      exact ((hagrees s₀ hs₀).step op).2 s hstep

/-- After any operations on any number of copies, each copy that is not dropped reads as its own
history: what it was told under a key is what `get` answers, and its length is the number of keys it
was told of. -/
theorem copies_read_own_history (ops : List Op) :
    (ops.length < 2 ^ 32 → (run ops).isSome) ∧
      ∀ s, run ops = some s → ∀ i,
        (s.copy i = none ↔ (ops.foldl histories [])[i]?.join = none) ∧
        ∀ c l, s.copy i = some c → (ops.foldl histories [])[i]?.join = some l →
          ∃ v, s.view c = some v ∧
            (∀ key, v.get key = some (if answers l key = [] then none else some (answers l key))) ∧
            v.len = some (l.map Prod.fst).toFinset.card := by
  obtain ⟨hsome, hagrees⟩ := agrees_run ops
  refine ⟨hsome, fun s hs i => ⟨(hagrees s hs).live i, fun c l hc hl => ?_⟩⟩
  obtain ⟨v, hv, hholds⟩ := (hagrees s hs).reads i c l hc hl
  exact ⟨v, hv, hholds.get_eq, hholds.len_eq⟩

end Copies

end WatchingZenoh.VerdictColumn
