import Mathlib
import WatchingZenoh.NetworkRoutes

/-! Every call scrubs the trees of the indices it frees, and a computation fills them again. A
computation returns where every search succeeds; what it writes is in the graph, and what it reports are
the children that the trees did not have before. -/

namespace WatchingZenoh.NetworkGraph

open StableGraph StableUnGraph LinkstateNetwork

variable {G ω : Type} [StableUnGraph G Node ω] {selfZid : Zid} {net net' mid : LinkstateNetwork G}

def Extended (net net' : LinkstateNetwork G) : Prop :=
  net'.trees = net.trees ∧ ∀ i zid, zidAt net i = some zid → zidAt net' i = some zid

theorem Extended.of_restated {i : ℕ} {n : Node} (h : Restated i n net net')
    (htrees : net'.trees = net.trees) : Extended net net' := by
  refine ⟨htrees, fun j zid hzid => ?_⟩
  obtain ⟨m, hm, rfl⟩ := zidAt_eq_some.mp hzid
  obtain ⟨m', hm', heq⟩ := h.persists hm
  exact zidAt_eq_some.mpr ⟨m', hm', heq⟩

theorem Extended.freed (h : Extended net net') : Freed [] net net' where
  trees := by rw [scrubTrees_nil, h.1]
  gone := by simp
  kept i zid _ hzid := h.2 i zid hzid

theorem Extended.collect {removed : List Zid} (h : Extended net mid) (hmid : Inverse mid)
    (hcollected : Collected mid net' removed) : ∃ freed, Freed freed net net' := by
  obtain ⟨freed, hfreed, htrees⟩ := hcollected.trees
  refine ⟨freed, ?_, fun i hi zid hzid => ?_, fun i zid hi hzid => ?_⟩
  · rw [htrees, scrubTrees, scrubTrees, h.1]
  · rintro ⟨j, n, hn, hname⟩
    obtain ⟨hmidNode, hreachable⟩ := (hcollected.node j n).mp hn
    obtain ⟨m, hm, hmname⟩ := zidAt_eq_some.mp (h.2 i zid hzid)
    obtain rfl := hmid.zid_inj hm hmidNode (hmname.trans hname.symm)
    exact ((hfreed i).mp hi).2 hreachable
  · obtain ⟨m, hm, hname⟩ := zidAt_eq_some.mp (h.2 i zid hzid)
    have hreachable : Reachable mid i := by
      by_contra hnot
      exact hi ((hfreed i).mpr ⟨⟨m, hm⟩, hnot⟩)
    exact zidAt_eq_some.mpr ⟨m, (hcollected.node i m).mpr ⟨hm, hreachable⟩, hname⟩

theorem mem_of_mapM {α β : Type} {f : α → Option β} {l : List α} {l' : List β}
    (h : l.mapM f = some l') {b : β} : b ∈ l' ↔ ∃ a ∈ l, f a = some b := by
  induction l generalizing l' with
  | nil =>
    cases h
    simp
  | cons a l ih =>
    rw [List.mapM_cons] at h
    obtain ⟨c, hc, hrest⟩ := Option.bind_eq_some_iff.mp h
    obtain ⟨cs, hcs, heq⟩ := Option.bind_eq_some_iff.mp hrest
    cases heq
    simp [hc, ih hcs, eq_comm]

theorem exists_mapM {α β : Type} {f : α → Option β} {l : List α} (h : ∀ a ∈ l, ∃ b, f a = some b) :
    ∃ l', l.mapM f = some l' := by
  induction l with
  | nil => exact ⟨[], rfl⟩
  | cons a l ih =>
    obtain ⟨b, hb⟩ := h a (by simp)
    obtain ⟨l', hl'⟩ := ih fun c hc => h c (by simp [hc])
    exact ⟨b :: l', by simp [List.mapM_cons, hb, hl']⟩

theorem exists_noteGained {tree : Tree} {root : ℕ} (hroot : Live net root)
    (htree : net.trees[root]? = some tree) (hchildren : ∀ i ∈ tree.children, Live net i)
    (oldChildren : List (List ℕ)) (newChildren : List (Zid × List Zid)) :
    ∃ newChildren', net.noteGained oldChildren newChildren root = some newChildren' := by
  have hgained : ∃ delta, net.gained oldChildren root = some delta := by
    simp only [gained, htree, Option.bind_eq_bind, Option.bind_some]
    refine exists_mapM fun i hi => ?_
    obtain ⟨n, hn⟩ := hchildren i (List.mem_filter.mp hi).1
    exact ⟨n.zid, by rw [hn, Option.map_some]⟩
  obtain ⟨delta, hdelta⟩ := hgained
  obtain ⟨n, hn⟩ := hroot
  simp only [noteGained, hdelta, hn, Option.bind_eq_bind, Option.bind_some]
  split_ifs <;> exact ⟨_, rfl⟩

theorem mem_gained {trees : List Tree} {root : ℕ} {zids : List Zid}
    (h : net'.gained (trees.map Tree.children) root = some zids) {zid : Zid} :
    zid ∈ zids ↔ ∃ below, zidAt net' below = some zid ∧
      Recorded net'.trees (.child root below) ∧ ¬Recorded trees (.child root below) := by
  simp only [gained, Option.bind_eq_bind, Option.bind_eq_some_iff] at h
  obtain ⟨tree, htree, hmap⟩ := h
  have hold : ∀ below, ((trees.map Tree.children)[root]?.all fun old => decide (below ∉ old)) = true ↔
      ¬Recorded trees (.child root below) := by
    intro below
    rw [List.getElem?_map]
    rcases htree' : trees[root]? with _ | tree' <;> simp [Recorded, htree']
  rw [mem_of_mapM hmap]
  simp only [List.mem_filter, hold, Recorded, htree, Option.some_inj, exists_eq_left', zidAt]
  exact exists_congr fun below => and_comm

/-- What has been noted of the roots that are done. -/
structure Noted (trees : List Tree) (net : LinkstateNetwork G) (done : List ℕ)
    (delta : List (Zid × List Zid)) : Prop where
  roots : ∀ zid ∈ delta.map Prod.fst, ∃ root ∈ done, zidAt net root = some zid
  nodup : (delta.map Prod.fst).Nodup
  gained : ∀ source child, (∃ children, (source, children) ∈ delta ∧ child ∈ children) ↔
    ∃ root ∈ done, zidAt net root = some source ∧ ∃ below, zidAt net below = some child ∧
      Recorded net.trees (.child root below) ∧ ¬Recorded trees (.child root below)

theorem Noted.noteGained {trees : List Tree} {done : List ℕ} {delta delta' : List (Zid × List Zid)}
    {root : ℕ} (h : Noted trees net done delta) (hinverse : Inverse net) (hroot : root ∉ done)
    (heq : net.noteGained (trees.map Tree.children) delta root = some delta') :
    Noted trees net (done ++ [root]) delta' := by
  simp only [LinkstateNetwork.noteGained, Option.bind_eq_bind, Option.bind_eq_some_iff] at heq
  obtain ⟨zids, hgained, heq⟩ := heq
  have hmem := @mem_gained _ _ _ _ _ _ _ hgained
  split_ifs at heq with hempty
  · cases heq
    rw [List.isEmpty_iff] at hempty
    refine ⟨fun zid hzid => ?_, h.nodup, fun source child => ?_⟩
    · obtain ⟨r, hr, hname⟩ := h.roots zid hzid
      exact ⟨r, by simp [hr], hname⟩
    · rw [h.gained]
      refine ⟨fun ⟨r, hr, hrest⟩ => ⟨r, by simp [hr], hrest⟩, ?_⟩
      rintro ⟨r, hr, hname, hbelow⟩
      rcases List.mem_append.mp hr with hr | hr
      · exact ⟨r, hr, hname, hbelow⟩
      · rw [List.mem_singleton] at hr
        subst hr
        have := hmem.mpr hbelow
        simp [hempty] at this
  obtain ⟨node, hnode, heq⟩ := Option.bind_eq_some_iff.mp heq
  cases heq
  have hname : zidAt net root = some node.zid := zidAt_eq_some.mpr ⟨node, hnode, rfl⟩
  refine ⟨fun zid hzid => ?_, ?_, fun source child => ?_⟩
  · rw [List.map_append, List.mem_append] at hzid
    rcases hzid with hzid | hzid
    · obtain ⟨r, hr, hr'⟩ := h.roots zid hzid
      exact ⟨r, by simp [hr], hr'⟩
    · simp only [List.map_cons, List.map_nil, List.mem_singleton] at hzid
      exact ⟨root, by simp, hzid ▸ hname⟩
  · rw [List.map_append, List.nodup_append]
    refine ⟨h.nodup, by simp, ?_⟩
    rintro a ha b hb rfl
    simp only [List.map_cons, List.map_nil, List.mem_singleton] at hb
    obtain ⟨r, hr, hr'⟩ := h.roots a ha
    obtain ⟨n, hn, hzid⟩ := zidAt_eq_some.mp hr'
    obtain rfl := hinverse.zid_inj hn hnode (hzid.trans hb)
    exact hroot hr
  · have hsplit : (∃ children, (source, children) ∈ delta ++ [(node.zid, zids)] ∧ child ∈ children) ↔
        (∃ children, (source, children) ∈ delta ∧ child ∈ children) ∨
          (zidAt net root = some source ∧ child ∈ zids) := by
      simp only [List.mem_append, List.mem_singleton, Prod.mk.injEq, hname, Option.some_inj]
      constructor
      · rintro ⟨children, h | ⟨rfl, rfl⟩, hchild⟩
        · exact .inl ⟨children, h, hchild⟩
        · exact .inr ⟨rfl, hchild⟩
      · rintro (⟨children, h, hchild⟩ | ⟨rfl, hchild⟩)
        · exact ⟨children, .inl h, hchild⟩
        · exact ⟨zids, .inr ⟨rfl, rfl⟩, hchild⟩
    rw [hsplit, h.gained, hmem]
    simp only [List.mem_append, List.mem_singleton, or_and_right, exists_or, exists_eq_left]

theorem Noted.run {trees : List Tree} {done indexes : List ℕ} {delta delta' : List (Zid × List Zid)}
    (h : Noted trees net done delta) (hinverse : Inverse net) (hnodup : (done ++ indexes).Nodup)
    (heq : indexes.foldlM (net.noteGained (trees.map Tree.children)) delta = some delta') :
    Noted trees net (done ++ indexes) delta' := by
  induction indexes generalizing done delta with
  | nil =>
    cases heq
    simpa using h
  | cons root indexes ih =>
    rw [List.foldlM_cons] at heq
    obtain ⟨mid, hmid, hrest⟩ := Option.bind_eq_some_iff.mp heq
    have hroot : root ∉ done := fun hmem =>
      (List.nodup_append.mp hnodup).2.2 root hmem root (by simp) rfl
    have hdone := ih (h.noteGained hinverse hroot hmid) (by simpa using hnodup) hrest
    rwa [List.append_assoc, List.singleton_append] at hdone

section Computation

variable [GraphSearch G]

theorem exists_computeTrees (h : Live net net.idx)
    (hsearch : ∀ root, Live net root → (bellmanFord net.graph root).isSome) :
    ∃ net' delta, net.computeTrees = some (net', delta) := by
  obtain ⟨maxIdx, hmax, hle⟩ := exists_max h
  obtain ⟨trees, hfold, -⟩ := Steps.foldlM_keeps (P := fun _ _ => True)
    (f := fun trees root => do
      let tree ← net.treeFrom maxIdx root
      some (trees.set root tree)) (nodeIndices net.graph)
    (fun _ trees root hroot _ => by
      obtain ⟨tree, htree⟩ := exists_treeFrom maxIdx (hsearch root (mem_nodeIndices_iff.mp hroot))
      exact ⟨trees.set root tree, by simp [htree], trivial⟩) []
    (s := List.replicate (maxIdx + 1) {}) trivial
  have hin := (getElem?_foldlM_set hfold fun i hi => by
    rw [List.length_replicate]
    exact Nat.lt_succ_of_le (hle i (mem_nodeIndices_iff.mp hi))).2.1
  have hnote : ∀ newChildren, ∀ root ∈ nodeIndices net.graph, ∃ newChildren',
      LinkstateNetwork.noteGained { net with trees } (net.trees.map Tree.children) newChildren root =
        some newChildren' := by
    intro newChildren root hroot
    obtain ⟨heq, hsome⟩ := hin root hroot
    obtain ⟨tree, htree⟩ := Option.isSome_iff_exists.mp hsome
    obtain ⟨⟨predecessors, -, -, hchildren, -⟩, -⟩ := planned_of_treeFrom htree hle
    have hlive : Live { net with trees } root := mem_nodeIndices_iff.mp hroot
    exact exists_noteGained hlive (heq.trans htree) (fun i hi => ((hchildren i).mp hi).1) _ _
  obtain ⟨delta, hnoted, -⟩ := Steps.foldlM_keeps (P := fun _ _ => True) (nodeIndices net.graph)
    (fun _ newChildren root hroot _ =>
      (hnote newChildren root hroot).imp fun _ heq => ⟨heq, trivial⟩) [] (s := []) trivial
  refine ⟨{ net with trees }, delta, ?_⟩
  rw [LinkstateNetwork.computeTrees, hmax]
  exact Option.bind_eq_some_iff.mpr ⟨trees, hfold, Option.bind_eq_some_iff.mpr ⟨delta, hnoted, rfl⟩⟩

theorem mem_delta (hinverse : Inverse net) (hself : Live net net.idx) {delta : List (Zid × List Zid)}
    (heq : net.computeTrees = some (net', delta)) : (delta.map Prod.fst).Nodup ∧
      ∀ source child, (∃ children, (source, children) ∈ delta ∧ child ∈ children) ↔
        Routes net' (.child source child) ∧ ¬Routes net (.child source child) := by
  obtain ⟨hcomputed, hfold⟩ := computed_of_computeTrees hself heq
  have hgraph : net'.graph = net.graph := by rw [hcomputed.frame]
  have hzid : zidAt net' = zidAt net := by
    funext i
    rw [zidAt, zidAt, hgraph]
  have hinverse' : Inverse net' := by
    rw [hcomputed.frame]
    exact hinverse
  have hstart : Noted net.trees net' [] [] := ⟨by simp, by simp, by simp⟩
  have hnoted := hstart.run hinverse' (by simpa using nodeIndices_nodup net.graph) hfold
  refine ⟨hnoted.nodup, fun source child => ?_⟩
  rw [hnoted.gained, hzid]
  constructor
  · rintro ⟨root, -, hroot, below, hbelow, hnew, hold⟩
    refine ⟨⟨.child root below, hnew, by rw [hzid, Entry.map, Entry.map, hroot, hbelow]⟩, ?_⟩
    rintro ⟨e, he, hname⟩
    cases e with
    | hop => cases hname
    | child root' below' =>
      rw [Entry.map, Entry.map, Entry.child.injEq] at hname
      obtain rfl := hinverse.zidAt_inj hname.1 hroot
      obtain rfl := hinverse.zidAt_inj hname.2 hbelow
      exact hold he
  · rintro ⟨⟨e, he, hname⟩, hnot⟩
    cases e with
    | hop => cases hname
    | child root below =>
      rw [hzid, Entry.map, Entry.map, Entry.child.injEq] at hname
      obtain ⟨n, hn, -⟩ := zidAt_eq_some.mp hname.1
      refine ⟨root, by simpa using mem_nodeIndices_iff.mpr ⟨n, hn⟩, hname.1, below, hname.2, he,
        fun hold => hnot ⟨.child root below, hold, ?_⟩⟩
      rw [Entry.map, Entry.map, hname.1, hname.2]

theorem Computed.liveTrees (h : Computed net net') : LiveTrees net' := by
  have hlive : ∀ i, Live net' i ↔ Live net i := by
    intro i
    rw [h.frame]
    rfl
  have hbelow : ∀ {root : ℕ} {predecessors : ℕ → Option ℕ} {i p : ℕ},
      bellmanFord net.graph root = some predecessors → predecessors i = some p →
        Live net p ∧ Live net i := by
    intro root predecessors i p hsearch hp
    obtain ⟨w, hw⟩ := GraphSearch.edge_of_predecessor hsearch hp
    exact nodes_of_edge hw
  -- an index that is not in the graph has an empty tree
  have hroot : ∀ {root : ℕ} {tree : Tree}, net'.trees[root]? = some tree → tree ≠ {} →
      Live net root ∧ Planned net root tree := by
    intro root tree htree hne
    have hin : Live net root := by
      by_contra hnot
      exact hne (h.vacant root tree hnot htree)
    obtain ⟨tree', htree', hplanned⟩ := h.planned root hin
    rw [htree] at htree'
    cases htree'
    exact ⟨hin, hplanned⟩
  intro e he i hi
  rw [hlive]
  cases e with
  | child root below =>
    obtain ⟨tree, htree, hmem⟩ := he
    obtain ⟨hin, ⟨predecessors, -, -, hchildren, -⟩, -⟩ := hroot htree (by rintro rfl; simp at hmem)
    simp only [Entry.all, List.mem_cons, List.not_mem_nil, or_false] at hi
    rcases hi with rfl | rfl
    · exact hin
    · exact ((hchildren i).mp hmem).1
  | hop root dest first =>
    obtain ⟨tree, htree, hdir⟩ := he
    obtain ⟨hin, ⟨predecessors, hsearch, -, -, hdirections⟩, -⟩ :=
      hroot htree (by rintro rfl; simp at hdir)
    obtain ⟨hdest, -, -, direction, hclimb, hor⟩ := (hdirections dest first).mp hdir
    simp only [Entry.all, List.mem_cons, List.not_mem_nil, or_false] at hi
    rcases hi with rfl | rfl | rfl
    · exact hin
    · exact hdest
    · rcases direction with _ | k
      · exact (hbelow hsearch hor).1
      · cases hor
        exact (hbelow hsearch (predecessors_of_climb hclimb)).2

end Computation

variable [EdgeArith ω] [HashOrder]

theorem exists_step_freed (h : Settled ∅ selfZid net) (call : Call) :
    ∃ net' answer freed, step net call = some (net', answer) ∧ Settled ∅ selfZid net' ∧
      Freed freed net net' := by
  cases call with
  | addLinkBound peerZid peerWhatami remoteIsGateway =>
    obtain ⟨net', n, heq, hsettled, -, hrestated, -, hframe⟩ :=
      exists_addLinkBound h peerZid peerWhatami remoteIsGateway
    exact ⟨net', _, [], by rw [step, heq]; rfl, hsettled,
      (Extended.of_restated hrestated (by rw [hframe])).freed⟩
  | updateLinkWeights linkWeights =>
    obtain ⟨net', moved, n, n', heq, hsettled, -, hrestated, -, -, hframe⟩ :=
      exists_updateLinkWeights h linkWeights
    exact ⟨net', _, [], by rw [step, heq]; rfl, hsettled,
      (Extended.of_restated hrestated (by rw [hframe])).freed⟩
  | removeLink id =>
    rcases hlink : net.links[id]? with _ | link
    · exact ⟨net, _, [], by rw [step, removeLink, hlink]; rfl, h, Extended.freed ⟨rfl, fun _ _ hzid => hzid⟩⟩
    obtain ⟨mid, net', removed, n, heq, hmid, hsettled, -, hrestated, hcollected, -, hframe⟩ :=
      exists_removeLink h hlink
    obtain ⟨freed, hfreed⟩ :=
      (Extended.of_restated hrestated (by rw [hframe])).collect hmid.index hcollected
    exact ⟨net', _, freed, by rw [step, heq]; rfl, hsettled, hfreed⟩
  | ingestLinkstateList srcLinkId list =>
    obtain ⟨mid, net', changes, removed, -, heq, hmid, hextended, hsettled, hcollected⟩ :=
      exists_ingestLinkstateList h srcLinkId list (P := Extended net)
        (by rw [convertToLocalLinkStates_frame]; exact ⟨rfl, fun _ _ => id⟩) (by
          intro net₁ net₂ ls _ _ happlied hnet
          cases happlied with
          | stale => exact hnet
          | restated hrestated _ _ _ _ _ hframe =>
            have hnext := Extended.of_restated hrestated (by rw [hframe])
            exact ⟨hnext.1.trans hnet.1, fun i zid hzid => hnext.2 i zid (hnet.2 i zid hzid)⟩)
    obtain ⟨freed, hfreed⟩ := hextended.collect hmid.index hcollected
    exact ⟨net', _, freed, by rw [step, heq]; rfl, hsettled, hfreed⟩

end WatchingZenoh.NetworkGraph
