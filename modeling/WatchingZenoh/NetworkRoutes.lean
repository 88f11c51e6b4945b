import Mathlib
import WatchingZenoh.NetworkForest
import WatchingZenoh.NetworkReach

/-! What the cached trees say, by index and by id. An index that a call frees goes from the trees with
it, so what they say of the ids in the graph comes from the last computation. -/

namespace WatchingZenoh.NetworkGraph

open StableGraph StableUnGraph LinkstateNetwork

/-- What the tree of a root says: a child of self, or the first hop to a destination. -/
inductive Entry (ι : Type)
  | child (root below : ι)
  | hop (root dest first : ι)

namespace Entry

variable {ι κ : Type}

def all : Entry ι → List ι
  | .child root below => [root, below]
  | .hop root dest first => [root, dest, first]

def map (f : ι → κ) : Entry ι → Entry κ
  | .child root below => .child (f root) (f below)
  | .hop root dest first => .hop (f root) (f dest) (f first)

theorem all_map (f : ι → κ) (e : Entry ι) : (e.map f).all = e.all.map f := by cases e <;> rfl

theorem map_congr {f g : ι → κ} {e : Entry ι} (h : ∀ i ∈ e.all, f i = g i) : e.map f = e.map g := by
  cases e <;> simp_all [map, all]

end Entry

variable {G ω : Type} [StableUnGraph G Node ω] {selfZid : Zid} {net net' : LinkstateNetwork G}

def Recorded (trees : List Tree) : Entry ℕ → Prop
  | .child root child => ∃ tree, trees[root]? = some tree ∧ child ∈ tree.children
  | .hop root dest hop => ∃ tree, trees[root]? = some tree ∧ (tree.directions[dest]?).join = some hop

theorem recorded_scrubTrees {freed : List ℕ} {e : Entry ℕ} :
    Recorded (net.scrubTrees freed).trees e ↔ Recorded net.trees e ∧ ∀ i ∈ e.all, i ∉ freed := by
  cases e with
  | child root child =>
    simp only [Recorded, scrubTrees, List.getElem?_mapIdx, Entry.all]
    rcases net.trees[root]? with _ | tree
    · simp
    by_cases hroot : root ∈ freed <;> simp [hroot, Tree.scrub]
  | hop root dest hop =>
    simp only [Recorded, scrubTrees, List.getElem?_mapIdx, Entry.all]
    rcases net.trees[root]? with _ | tree
    · simp
    by_cases hroot : root ∈ freed
    · simp [hroot, Tree.scrub]
    rcases hdir : tree.directions[dest]? with _ | dir
    · simp [hroot, Tree.scrub, hdir]
    by_cases hdest : dest ∈ freed
    · simp [hroot, Tree.scrub, hdir, hdest]
    · simp [hroot, Tree.scrub, hdir, hdest, Option.filter_eq_some_iff]

def zidAt (net : LinkstateNetwork G) (i : ℕ) : Option Zid := (nodeWeight net.graph i).map Node.zid

theorem zidAt_eq_some {i : ℕ} {zid : Zid} :
    zidAt net i = some zid ↔ ∃ n, nodeWeight net.graph i = some n ∧ n.zid = zid := by
  simp [zidAt]

theorem inGraph_iff {zid : Zid} : InGraph net zid ↔ ∃ i, zidAt net i = some zid := by
  simp [InGraph, zidAt_eq_some]

def Routes (net : LinkstateNetwork G) (r : Entry Zid) : Prop :=
  ∃ e, Recorded net.trees e ∧ e.map (zidAt net) = r.map some

theorem getIdx_eq_some (h : Inverse net) {zid : Zid} {i : ℕ} :
    net.getIdx zid = some i ↔ zidAt net i = some zid := by
  rw [h, zidAt_eq_some]

theorem Inverse.zidAt_inj (h : Inverse net) {i j : ℕ} {zid : Zid} (hi : zidAt net i = some zid)
    (hj : zidAt net j = some zid) : i = j :=
  Option.some_inj.mp (((getIdx_eq_some h).mpr hi).symm.trans ((getIdx_eq_some h).mpr hj))

theorem mem_treeChildrenOf (h : Inverse net) {source child : Zid} :
    child ∈ net.treeChildrenOf source ↔ Routes net (.child source child) := by
  constructor
  · intro hmem
    rw [treeChildrenOf] at hmem
    rcases hroot : net.getIdx source with _ | root
    · simp [hroot] at hmem
    rcases htree : net.trees[root]? with _ | tree
    · simp [hroot, htree] at hmem
    simp only [hroot, htree, List.mem_filterMap] at hmem
    obtain ⟨below, hbelow, hname⟩ := hmem
    refine ⟨.child root below, ⟨tree, htree, hbelow⟩, ?_⟩
    rw [Entry.map, Entry.map, (getIdx_eq_some h).mp hroot, zidAt, hname]
  · rintro ⟨e, he, heq⟩
    cases e with
    | hop => cases heq
    | child root below =>
      obtain ⟨tree, htree, hbelow⟩ := he
      rw [Entry.map, Entry.map, Entry.child.injEq] at heq
      simp only [treeChildrenOf, (getIdx_eq_some h).mpr heq.1, htree, List.mem_filterMap]
      exact ⟨below, hbelow, heq.2⟩

theorem nextHop_eq_some (h : Inverse net) (hfull : net.fullLinkstate = true) {source dest hop : Zid} :
    net.nextHop source dest = some (some hop) ↔ Routes net (.hop source dest hop) := by
  have hopen : net.nextHop source dest = some (net.nextHopInTree source dest) := by
    simp [nextHop, hfull]
  rw [hopen, Option.some_inj]
  constructor
  · intro heq
    simp only [nextHopInTree, Option.bind_eq_bind, Option.bind_eq_some_iff] at heq
    obtain ⟨root, hroot, destIdx, hdest, tree, htree, first, hfirst, node, hnode, hname⟩ := heq
    refine ⟨.hop root destIdx first, ⟨tree, htree, hfirst⟩, ?_⟩
    rw [Entry.map, Entry.map, (getIdx_eq_some h).mp hroot, (getIdx_eq_some h).mp hdest,
      zidAt, hnode, Option.map_some, hname]
  · rintro ⟨e, he, heq⟩
    cases e with
    | child => cases heq
    | hop root destIdx first =>
      obtain ⟨tree, htree, hfirst⟩ := he
      rw [Entry.map, Entry.map, Entry.hop.injEq] at heq
      obtain ⟨node, hnode, hname⟩ := zidAt_eq_some.mp heq.2.2
      simp only [nextHopInTree, (getIdx_eq_some h).mpr heq.1, (getIdx_eq_some h).mpr heq.2.1, htree,
        hfirst, hnode, hname, Option.bind_eq_bind, Option.bind_some]

theorem Routes.inGraph {r : Entry Zid} (h : Routes net r) : ∀ zid ∈ r.all, InGraph net zid := by
  obtain ⟨e, -, heq⟩ := h
  have hall := congrArg Entry.all heq
  rw [Entry.all_map, Entry.all_map] at hall
  intro zid hzid
  obtain ⟨i, -, hi⟩ := List.mem_map.mp (hall ▸ List.mem_map_of_mem hzid)
  exact inGraph_iff.mpr ⟨i, hi⟩

def LiveTrees (net : LinkstateNetwork G) : Prop := ∀ e, Recorded net.trees e → ∀ i ∈ e.all, Live net i

/-- A call that frees indices: they go from the trees and the ids at them from the graph, and every
other node stays where it is. -/
structure Freed (freed : List ℕ) (net net' : LinkstateNetwork G) : Prop where
  trees : net'.trees = (net.scrubTrees freed).trees
  gone : ∀ i ∈ freed, ∀ zid, zidAt net i = some zid → ¬InGraph net' zid
  kept : ∀ i zid, i ∉ freed → zidAt net i = some zid → zidAt net' i = some zid

namespace Freed

variable {freed : List ℕ}

theorem zidAt_eq (h : Freed freed net net') {i : ℕ} (hi : i ∉ freed) (hlive : Live net i) :
    zidAt net' i = zidAt net i := by
  obtain ⟨n, hn⟩ := hlive
  rw [h.kept i n.zid hi (zidAt_eq_some.mpr ⟨n, hn, rfl⟩), zidAt, hn]
  rfl

theorem liveTrees (h : Freed freed net net') (hlive : LiveTrees net) : LiveTrees net' := by
  intro e he i hi
  rw [h.trees, recorded_scrubTrees] at he
  have hold := hlive e he.1 i hi
  obtain ⟨n, hn⟩ := hold
  obtain ⟨n', hn', -⟩ := zidAt_eq_some.mp (h.kept i n.zid (he.2 i hi) (zidAt_eq_some.mpr ⟨n, hn, rfl⟩))
  exact ⟨n', hn'⟩

theorem routes_iff (h : Freed freed net net') (hlive : LiveTrees net) {r : Entry Zid} :
    Routes net' r ↔ Routes net r ∧ ∀ zid ∈ r.all, InGraph net' zid := by
  constructor
  · rintro ⟨e, he, heq⟩
    refine ⟨⟨e, ?_⟩, Routes.inGraph ⟨e, he, heq⟩⟩
    rw [h.trees, recorded_scrubTrees] at he
    refine ⟨he.1, ?_⟩
    rw [← heq]
    exact Entry.map_congr fun i hi => (h.zidAt_eq (he.2 i hi) (hlive e he.1 i hi)).symm
  · rintro ⟨⟨e, he, heq⟩, hin⟩
    have hstay : ∀ i ∈ e.all, i ∉ freed := by
      intro i hi hfreed
      have hall := congrArg Entry.all heq
      rw [Entry.all_map, Entry.all_map] at hall
      obtain ⟨zid, hzid, hname⟩ := List.mem_map.mp (hall ▸ List.mem_map_of_mem hi)
      exact h.gone i hfreed zid hname.symm (hin zid hzid)
    refine ⟨e, by rw [h.trees, recorded_scrubTrees]; exact ⟨he, hstay⟩, ?_⟩
    rw [← heq]
    exact Entry.map_congr fun i hi => h.zidAt_eq (hstay i hi) (hlive e he i hi)

end Freed

end WatchingZenoh.NetworkGraph
