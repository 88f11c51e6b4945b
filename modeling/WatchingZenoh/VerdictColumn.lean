import WatchingZenoh.VerdictBase

/-! What one copy of a verdict column reads: the recent writes over the sorted rows, each row a number
of the patterns. It is set against the history of the copy, the answers recorded in it in order. -/

namespace WatchingZenoh.VerdictColumn

open SortedEntries

structure View where
  patterns : Patterns
  base : Base
  delta : SortedChunks RowKey ℕ

namespace View

def pattern? (v : View) (key : RowKey) : Option (Option ℕ) :=
  match v.delta.get key with
  | some number => some (some number)
  | none => v.base.find? key

/-- What the selector said of the row. A number that is no pattern's panics. -/
def get (v : View) (key : RowKey) : Option (Option (List Truth)) := do
  match ← v.pattern? key with
  | none => some none
  | some number => (v.patterns.verdict number).map some

def len (v : View) : Option ℕ := (v.base.fresh v.delta.iter).map fun fresh => v.base.rows + fresh.length

def pattern (v : View) (key : RowKey) : Option ℕ := (v.delta.get key).or (v.base.find key)

theorem pattern?_eq {v : View} (h : Ordered v.base.blocks) (key : RowKey) :
    v.pattern? key = some (v.pattern key) := by
  rw [pattern?, pattern]
  cases v.delta.get key with
  | none => exact h.find?_eq key
  | some number => rfl

end View

/-- What was recorded in one copy: its own history. -/
abbrev History := List (RowKey × Truth)

def answers (l : History) (key : RowKey) : List Truth := (l.filter fun e => e.1 = key).map Prod.snd

structure View.Holds (v : View) (l : History) : Prop where
  trie : v.patterns.Trie
  ordered : Ordered v.base.blocks
  rows : v.base.rows = v.base.entries.length
  delta : v.delta.Holds v.delta.get
  absent : ∀ key, v.pattern key = none ↔ answers l key = []
  present : ∀ key number, v.pattern key = some number → v.patterns.verdict number = some (answers l key)

theorem answers_append (l : History) (key k : RowKey) (truth : Truth) :
    answers (l ++ [(key, truth)]) k = if key = k then answers l k ++ [truth] else answers l k := by
  rw [answers, List.filter_append, List.filter_singleton]
  split_ifs with hkey
  · simp [answers, hkey]
  · simp [answers, hkey]

theorem holds_default : View.Holds ⟨Patterns.default, Base.default, SortedChunks.new⟩ [] := by
  have hnone : ∀ key, View.pattern ⟨Patterns.default, Base.default, SortedChunks.new⟩ key = none :=
    fun key => rfl
  refine ⟨Patterns.trie_default, ⟨.nil, by simp [Base.default], by simp [Base.default]⟩, rfl,
    SortedChunks.holds_new, fun key => ?_, fun key number hsome => ?_⟩
  · rw [hnone]
    simp [answers]
  · rw [hnone] at hsome
    cases hsome

theorem View.Holds.get_eq {v : View} {l : History} (h : v.Holds l) (key : RowKey) :
    v.get key = some (if answers l key = [] then none else some (answers l key)) := by
  rw [View.get, View.pattern?_eq h.ordered, Option.bind_eq_bind, Option.bind_some]
  cases hpattern : v.pattern key with
  | none => rw [if_pos ((h.absent key).mp hpattern)]
  | some number =>
    have hne : ¬ answers l key = [] := fun hnil => by
      rw [(h.absent key).mpr hnil] at hpattern
      cases hpattern
    simp only
    rw [h.present key number hpattern, if_neg hne]
    rfl

theorem View.Holds.merged {v : View} {l : History} (h : v.Holds l) :
    ∃ base', v.base.merged v.delta.iter = some base' ∧
      View.Holds ⟨v.patterns, base', v.delta.clear⟩ l := by
  obtain ⟨base', hmerged, hordered, hrows, hfind⟩ := h.ordered.merged h.delta.maps
  have hpattern : ∀ key, View.pattern ⟨v.patterns, base', v.delta.clear⟩ key = v.pattern key :=
    fun key => hfind key
  refine ⟨base', hmerged, h.trie, hordered, hrows, SortedChunks.holds_new, fun key => ?_,
    fun key number hsome => ?_⟩
  · rw [hpattern]
    exact h.absent key
  · rw [hpattern] at hsome
    exact h.present key number hsome

theorem View.Holds.start {v : View} {l : History} (h : v.Holds l) (key : RowKey) :
    v.patterns.verdict ((v.pattern key).getD empty) = some (answers l key) := by
  cases hpattern : v.pattern key with
  | none =>
    rw [(h.absent key).mp hpattern]
    exact h.trie.root
  | some number => exact h.present key number hpattern

theorem View.Holds.extended {v : View} {l : History} (h : v.Holds l) {key : RowKey} {truth : Truth}
    {patterns : Patterns} {number : ℕ}
    (hrun : v.patterns.extend ((v.pattern key).getD empty) truth = some (patterns, number)) :
    View.Holds ⟨patterns, v.base, (v.delta.insert key number).1⟩ (l ++ [(key, truth)]) := by
  have hextends := h.trie.extend (h.start key) hrun
  have hinsert := (h.delta.insert key number).1
  have hget : ∀ k, (v.delta.insert key number).1.get k =
      Function.update v.delta.get key (some number) k := hinsert.get_eq
  have hpattern : ∀ k, View.pattern ⟨patterns, v.base, (v.delta.insert key number).1⟩ k =
      if key = k then some number else v.pattern k := by
    intro k
    simp only [View.pattern, hget]
    split_ifs with hkey
    · subst hkey
      rw [Function.update_self, Option.some_or]
    · rw [Function.update_of_ne fun heq => hkey heq.symm]
  refine ⟨hextends.trie, h.ordered, h.rows, ?_, fun k => ?_, fun k n hsome => ?_⟩
  · rw [← funext hget] at hinsert
    exact hinsert
  · rw [hpattern, answers_append]
    split_ifs with hkey
    · simp
    · exact h.absent k
  · rw [hpattern] at hsome
    rw [answers_append]
    split_ifs at hsome ⊢ with hkey
    · cases hsome
      subst hkey
      exact hextends.made
    · exact hextends.kept n _ (h.present k n hsome)

theorem nodup_keys {entries : List (RowKey × ℕ)} (h : Sorted entries) :
    (entries.map Prod.fst).Nodup := by
  rw [List.Nodup, List.pairwise_map]
  exact h.imp fun hlt => hlt.ne

theorem answers_ne_nil_iff {l : History} {key : RowKey} :
    answers l key ≠ [] ↔ key ∈ l.map Prod.fst := by
  rw [answers, ne_eq, List.map_eq_nil_iff, List.filter_eq_nil_iff, List.mem_map]
  push Not
  simp only [decide_eq_true_eq]

theorem View.Holds.len_eq {v : View} {l : History} (h : v.Holds l) :
    v.len = some (l.map Prod.fst).toFinset.card := by
  set fresh := v.delta.iter.filter fun e => (v.base.find e.1).isNone with hfresh
  have hmaps := h.ordered.maps
  have hkey : ∀ k, (∃ p, (k, p) ∈ v.base.entries) ↔ (v.base.find k).isSome := by
    intro k
    simp only [hmaps.mem_iff, Option.isSome_iff_exists]
  have hkey' : ∀ k, (∃ p, (k, p) ∈ fresh) ↔ (v.delta.get k).isSome ∧ (v.base.find k).isNone := by
    intro k
    simp only [hfresh, List.mem_filter, h.delta.maps.mem_iff, Option.isSome_iff_exists,
      exists_and_right]
  have hnodup : (v.base.entries.map Prod.fst ++ fresh.map Prod.fst).Nodup := by
    refine List.Nodup.append (nodup_keys hmaps.sorted)
      (nodup_keys (List.Pairwise.filter _ h.delta.maps.sorted)) fun k hk hk' => ?_
    obtain ⟨⟨_, p⟩, he, rfl⟩ := List.mem_map.mp hk
    obtain ⟨⟨_, q⟩, hf, heq⟩ := List.mem_map.mp hk'
    simp only at heq
    subst heq
    have hsome := (hkey _).mp ⟨p, he⟩
    have hnone := ((hkey' _).mp ⟨q, hf⟩).2
    rw [Option.isNone_iff_eq_none] at hnone
    simp [hnone] at hsome
  have hmem : (v.base.entries.map Prod.fst ++ fresh.map Prod.fst).toFinset =
      (l.map Prod.fst).toFinset := by
    ext k
    rw [List.mem_toFinset, List.mem_toFinset, ← answers_ne_nil_iff, ne_eq, ← h.absent,
      List.mem_append]
    have hfst : ∀ entries : List (RowKey × ℕ), k ∈ entries.map Prod.fst ↔ ∃ p, (k, p) ∈ entries := by
      intro entries
      simp
    rw [hfst, hfst, hkey, hkey', View.pattern]
    cases v.base.find k <;> cases v.delta.get k <;> simp
  rw [← hmem, List.toFinset_card_of_nodup hnodup, List.length_append, List.length_map,
    List.length_map, View.len, h.ordered.fresh_eq, Option.map_some, h.rows]

end WatchingZenoh.VerdictColumn
