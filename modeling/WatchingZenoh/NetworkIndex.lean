import Mathlib
import WatchingZenoh.NetworkIngest
import WatchingZenoh.NetworkPrune

/-! Whatever the mode, and whatever is called, the index stays the inverse of the ids in the graph.
There is one lemma for each function that writes the nodes, and frames for those that write only edges.
-/

namespace WatchingZenoh.NetworkGraph

open StableGraph StableUnGraph LinkstateNetwork
open Std (ExtTreeMap)

variable {G ω : Type} [StableUnGraph G Node ω]
variable {net net' : LinkstateNetwork G}

namespace Inverse

theorem frame (h : Inverse net) (hgraph : net'.graph = net.graph)
    (hindex : net'.idxByZid = net.idxByZid) : Inverse net' := by
  intro zid i
  rw [getIdx, hgraph, hindex]
  exact h zid i

theorem ensureNode (h : Inverse net) (zid : Zid) : Inverse (net.ensureNode zid).1 := by
  unfold LinkstateNetwork.ensureNode
  split
  · exact h
  · next hnone => exact h.insertNode hnone

theorem removeEdges (h : Inverse net) (i : ℕ) (far : List ℕ) : Inverse (net.removeEdges i far) :=
  h.congr (nodeWeight_removeEdges i far net.graph)

theorem dropUnvisited {visited : Finset ℕ} {s : LinkstateNetwork G × List Zid × List ℕ}
    (h : Inverse s.1) (i : ℕ) : Inverse (LinkstateNetwork.dropUnvisited visited s i).1 := by
  unfold LinkstateNetwork.dropUnvisited
  by_cases hi : i ∈ visited
  · simpa [hi] using h
  rcases hn : nodeWeight s.1.graph i with _ | n
  · simpa [hi, hn] using h
  · simpa [hi, hn] using h.removeNode hn

theorem introducePeer (h : Inverse net) (peerZid : Zid) (peerWhatami : WhatAmI)
    (remoteIsGateway : Bool) :
    Inverse (net.introducePeer peerZid peerWhatami remoteIsGateway) := by
  unfold LinkstateNetwork.introducePeer
  split_ifs with hnone
  · exact h.insertNode (Option.isNone_iff_eq_none.mp hnone)
  · exact h

variable [EdgeArith ω]

theorem updateEdge (h : Inverse net) {i j : ℕ} (heq : net.updateEdge i j = some net') :
    Inverse net' := by
  simp only [LinkstateNetwork.updateEdge, Option.bind_eq_bind, Option.bind_eq_some_iff] at heq
  obtain ⟨one, -, two, -, heq⟩ := heq
  cases heq
  exact h.congr (nodeWeight_updateEdge net.graph i j _)

theorem rebuildDest {i : ℕ} {zid dest : Zid} {s s' : LinkstateNetwork G × List Zid}
    (h : Inverse s.1) (heq : LinkstateNetwork.rebuildDest i zid s dest = some s') : Inverse s'.1 := by
  obtain ⟨net, introduced⟩ := s
  simp only [LinkstateNetwork.rebuildDest] at heq
  split at heq
  · split_ifs at heq
    · simp only [Option.bind_eq_bind, Option.bind_eq_some_iff] at heq
      obtain ⟨two, -, heq⟩ := heq
      split_ifs at heq
      · obtain ⟨net', hnet', heq⟩ := Option.bind_eq_some_iff.mp heq
        cases heq
        exact h.updateEdge hnet'
      · cases heq
        exact h
    · cases heq
      exact h
  · cases heq
    exact h.ensureNode dest

theorem refreshEdge {zid dest : Zid} (h : Inverse net)
    (heq : LinkstateNetwork.refreshEdge zid net dest = some net') : Inverse net' := by
  unfold LinkstateNetwork.refreshEdge at heq
  split at heq
  · simp only [Option.bind_eq_bind, Option.bind_eq_some_iff] at heq
    obtain ⟨node, -, heq⟩ := heq
    split_ifs at heq
    · exact h.updateEdge heq
    · cases heq
      exact h
  · cases heq
    exact h

variable [HashOrder]

theorem rebuildEdges (h : Inverse net) {i : ℕ} {introduced : List Zid}
    (heq : net.rebuildEdges i = some (net', introduced)) : Inverse net' := by
  simp only [LinkstateNetwork.rebuildEdges, Option.bind_eq_bind, Option.bind_eq_some_iff] at heq
  obtain ⟨one, -, s, hfold, heq⟩ := heq
  cases heq
  have hs : Inverse s.1 := Steps.foldlM_preserves (P := fun s => Inverse s.1)
    (fun s dest s' hs hstep => hs.rebuildDest hstep) h hfold
  exact hs.removeEdges i _

theorem restateSelf (h : Inverse net) {f : Node → Node} {introduced : List Zid}
    (heq : net.restateSelf f = some (net', introduced)) (hf : ∀ n, (f n).zid = n.zid) :
    Inverse net' := by
  simp only [LinkstateNetwork.restateSelf, Option.bind_eq_bind, Option.bind_eq_some_iff] at heq
  obtain ⟨n, -, heq⟩ := heq
  exact (h.modify hf net.idx).rebuildEdges heq

theorem addLinkBound (h : Inverse net) {peerZid : Zid} {peerWhatami : WhatAmI}
    {remoteIsGateway : Bool} {id : ℕ}
    (heq : net.addLinkBound peerZid peerWhatami remoteIsGateway = some (net', id)) :
    Inverse net' := by
  unfold LinkstateNetwork.addLinkBound at heq
  simp only at heq
  split_ifs at heq
  · cases heq
    exact h.frame rfl rfl
  · obtain ⟨s, hs, heq⟩ := Option.bind_eq_some_iff.mp heq
    cases heq
    refine Inverse.restateSelf (Inverse.introducePeer ?_ peerZid peerWhatami remoteIsGateway) hs
      fun _ => rfl
    exact h.frame rfl rfl

theorem updateLinkWeights (h : Inverse net) {linkWeights : Links} {moved : Bool}
    (heq : net.updateLinkWeights linkWeights = some (net', moved)) : Inverse net' := by
  unfold LinkstateNetwork.updateLinkWeights at heq
  obtain ⟨self, -, heq⟩ := Option.bind_eq_some_iff.mp heq
  have hreweighed : Inverse { net.modify net.idx (net.reweighed linkWeights) with linkWeights } :=
    (h.modify (f := net.reweighed linkWeights) (fun _ => rfl) net.idx).frame rfl rfl
  simp only at heq
  split_ifs at heq
  · cases heq
    exact hreweighed
  · obtain ⟨net₁, hfold, heq⟩ := Option.bind_eq_some_iff.mp heq
    cases heq
    have hnet₁ : Inverse net₁ :=
      Steps.foldlM_preserves (fun s dest s' hs => hs.refreshEdge) hreweighed hfold
    exact hnet₁.modify (f := fun node => { node with sn := node.sn + 1 }) (fun _ => rfl) _

omit [EdgeArith ω] in
theorem removeDetachedNodes (h : Inverse net) {removed : List Zid}
    (heq : net.removeDetachedNodes = some (net', removed)) : Inverse net' := by
  unfold LinkstateNetwork.removeDetachedNodes at heq
  obtain ⟨visited, -, heq⟩ := Option.bind_eq_some_iff.mp heq
  have hdropped : Inverse ((nodeIndices net.graph).foldl (LinkstateNetwork.dropUnvisited visited)
      (net, [], [])).1 :=
    Steps.foldl_keeps (f := LinkstateNetwork.dropUnvisited visited)
      (P := fun _ s => Inverse s.1) (fun _ s i hs => hs.dropUnvisited i) _ [] h
  cases heq
  split_ifs
  · exact hdropped
  · exact hdropped.frame rfl rfl

theorem removeLink (h : Inverse net) {id : ℕ} {removed : List Zid}
    (heq : net.removeLink id = some (net', removed)) : Inverse net' := by
  unfold LinkstateNetwork.removeLink at heq
  split at heq
  · cases heq
    exact h
  have hunlinked : Inverse { net with links := net.links.erase id } := h.frame rfl rfl
  simp only at heq
  split_ifs at heq
  · cases heq
    exact hunlinked
  · split at heq
    · next i hidx =>
      split at heq
      · next n hn =>
        cases heq
        obtain ⟨m, hm, hzid⟩ := (hunlinked _ i).mp hidx
        rw [hn] at hm
        obtain rfl := Option.some_inj.mp hm
        exact (hzid ▸ hunlinked.removeNode hn).frame rfl rfl
      · cases heq
        exact hunlinked
    · cases heq
      exact hunlinked
  · obtain ⟨s, hs, heq⟩ := Option.bind_eq_some_iff.mp heq
    exact (hunlinked.restateSelf hs fun _ => rfl).removeDetachedNodes heq

theorem applyLinkState {s s' : LinkstateNetwork G × Changes} {ls : LocalLinkState}
    (h : Inverse s.1) (heq : LinkstateNetwork.applyLinkState s ls = some s') : Inverse s'.1 := by
  obtain ⟨net, changes⟩ := s
  simp only [LinkstateNetwork.applyLinkState] at heq
  obtain ⟨admitted, hstate, heq⟩ := Option.bind_eq_some_iff.mp heq
  have hadmitted : ∀ r ∈ admitted, Inverse r.1 := by
    rintro r rfl
    unfold admitState at hstate
    split at hstate
    · next hnone =>
      cases hstate
      exact h.insertNode hnone
    · obtain ⟨node, -, hstate⟩ := Option.bind_eq_some_iff.mp hstate
      split_ifs at hstate
      · cases hstate
      · obtain rfl := Option.some_inj.mp (Option.some_inj.mp hstate)
        exact h.modify (f := restate ls) (fun _ => rfl) _
  rcases admitted with _ | ⟨net₁, i, isNew⟩
  · cases heq
    exact h
  · obtain ⟨⟨net₂, introduced⟩, hrebuild, heq⟩ := Option.bind_eq_some_iff.mp heq
    obtain ⟨node, -, heq⟩ := Option.bind_eq_some_iff.mp heq
    cases heq
    exact (hadmitted _ rfl).rebuildEdges hrebuild

omit [EdgeArith ω] [HashOrder] in
theorem gossipLinkState {s s' : LinkstateNetwork G × Changes} {ls : LocalLinkState}
    (h : Inverse s.1) (heq : LinkstateNetwork.gossipLinkState s ls = some s') : Inverse s'.1 := by
  obtain ⟨net, changes⟩ := s
  simp only [LinkstateNetwork.gossipLinkState] at heq
  split at heq
  · next hnone =>
    cases heq
    exact Inverse.insertNode (h.frame rfl rfl) hnone
  · next i hidx =>
    obtain ⟨node, -, heq⟩ := Option.bind_eq_some_iff.mp heq
    split_ifs at heq
    · cases heq
      exact h
    all_goals
      cases heq
      exact (h.modify (f := overhear ls _) (fun _ => rfl) i).frame rfl rfl

theorem ingestLinkstateList (h : Inverse net) {srcLinkId : ℕ} {list : List LinkstateEntry}
    {changes : Changes} (heq : net.ingestLinkstateList srcLinkId list = some (net', changes)) :
    Inverse net' := by
  unfold LinkstateNetwork.ingestLinkstateList at heq
  have hlinked : Inverse (net.convertToLocalLinkStates srcLinkId list).1 := by
    rw [convertToLocalLinkStates_frame]
    exact h.frame rfl rfl
  simp only [processLinkstates, processLinkstatesPeerToPeer] at heq
  split_ifs at heq
  · exact Steps.foldlM_preserves (P := fun s => Inverse s.1)
      (fun s ls s' hs hstep => hs.gossipLinkState hstep) hlinked heq
  · obtain ⟨⟨net₁, changes₁⟩, hfold, heq⟩ := Option.bind_eq_some_iff.mp heq
    obtain ⟨⟨net₂, removed⟩, hcollect, heq⟩ := Option.bind_eq_some_iff.mp heq
    cases heq
    have hnet₁ : Inverse net₁ := Steps.foldlM_preserves (P := fun s => Inverse s.1)
      (fun s ls s' hs hstep => hs.applyLinkState hstep) hlinked hfold
    exact hnet₁.removeDetachedNodes hcollect

end Inverse

/-- A call, in whatever mode. -/
theorem inverse_step [EdgeArith ω] [HashOrder] (h : Inverse net) {call : Call} {answer : Answer}
    (heq : step net call = some (net', answer)) : Inverse net' := by
  cases call with
  | addLinkBound peerZid peerWhatami remoteIsGateway =>
    obtain ⟨⟨net₁, id⟩, hcall, heq⟩ := Option.map_eq_some_iff.mp heq
    cases heq
    exact h.addLinkBound hcall
  | updateLinkWeights linkWeights =>
    obtain ⟨⟨net₁, moved⟩, hcall, heq⟩ := Option.map_eq_some_iff.mp heq
    cases heq
    exact h.updateLinkWeights hcall
  | removeLink id =>
    obtain ⟨⟨net₁, removed⟩, hcall, heq⟩ := Option.map_eq_some_iff.mp heq
    cases heq
    exact h.removeLink hcall
  | ingestLinkstateList srcLinkId list =>
    obtain ⟨⟨net₁, changes⟩, hcall, heq⟩ := Option.map_eq_some_iff.mp heq
    cases heq
    exact h.ingestLinkstateList hcall

end WatchingZenoh.NetworkGraph
