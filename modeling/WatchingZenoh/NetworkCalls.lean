import Mathlib
import WatchingZenoh.NetworkIngest
import WatchingZenoh.NetworkPrune

/-! What each call does to a network whose nodes are settled: it returns, and leaves them settled. Every
call is made of the same few moves: a node is restated, edges are rebuilt, and what is cut off is
collected. -/

namespace WatchingZenoh.NetworkGraph

open StableGraph StableUnGraph LinkstateNetwork
open Std (ExtTreeMap)

variable {G ω : Type} [StableUnGraph G Node ω]
variable {selfZid : Zid} {net net' : LinkstateNetwork G}

/-- The node at `i` is set to `n`, and nodes without links come in for what `n` advertises. -/
structure Restated (i : ℕ) (n : Node) (net net' : LinkstateNetwork G) : Prop where
  node : nodeWeight net'.graph i = some n
  zid : ∀ m, nodeWeight net.graph i = some m → m.zid = n.zid
  old : ∀ j m, j ≠ i → nodeWeight net.graph j = some m → nodeWeight net'.graph j = some m
  fresh : ∀ j m, j ≠ i → nodeWeight net'.graph j = some m → nodeWeight net.graph j = none →
    m.links = ∅ ∧ m.zid ∈ n.links

namespace Restated

variable {net'' : LinkstateNetwork G} {i : ℕ} {n : Node}

theorem grow {zids : List Zid} (h : Restated i n net net') (hgrown : Grown zids net' net'')
    (hzids : ∀ zid ∈ zids, zid ∈ n.links) : Restated i n net net'' where
  node := hgrown.old i n h.node
  zid := h.zid
  old j m hj hm := hgrown.old j m (h.old j m hj hm)
  fresh j m hj hm hnone := by
    rcases hmid : nodeWeight net'.graph j with _ | k
    · obtain ⟨hzid, heq⟩ := hgrown.fresh j m hm hmid
      exact ⟨heq ▸ rfl, hzids _ hzid⟩
    · rw [hgrown.old j k hmid] at hm
      obtain rfl := Option.some_inj.mp hm
      exact h.fresh j k hj hmid hnone

theorem modify (f : Node → Node) (hf : ∀ n, (f n).zid = n.zid) {m : Node}
    (hm : nodeWeight net.graph i = some m) : Restated i (f m) net (net.modify i f) where
  node := by rw [nodeWeight_modify, if_pos rfl, hm, Option.map_some]
  zid k hk := by
    rw [hm] at hk
    rw [hf, Option.some_inj.mp hk]
  old j k hj hk := by rw [nodeWeight_modify, if_neg hj.symm, hk]
  fresh j k hj hk hnone := by
    rw [nodeWeight_modify, if_neg hj.symm, hnone] at hk
    cases hk

theorem insertNode (node : Node) :
    Restated (net.insertNode node).2 node net (net.insertNode node).1 where
  node := by rw [nodeWeight_insertNode, if_pos rfl]
  zid m hm := by
    rw [LinkstateNetwork.insertNode, addNode_fresh] at hm
    cases hm
  old j m _ := nodeWeight_insertNode_of_some
  fresh j m hj hm hnone := by
    rw [nodeWeight_of_insertNode hj hm] at hnone
    cases hnone

theorem after_insertNode {node : Node} (h : Restated i n (net.insertNode node).1 net'')
    (hi : i ≠ (net.insertNode node).2) (hlinks : node.links = ∅) (hzid : node.zid ∈ n.links) :
    Restated i n net net'' where
  node := h.node
  zid m hm := h.zid m (nodeWeight_insertNode_of_some hm)
  old j m hj hm := h.old j m hj (nodeWeight_insertNode_of_some hm)
  fresh j m hj hm hnone := by
    rcases eq_or_ne j (net.insertNode node).2 with rfl | hne
    · have hnode := h.old _ node hi.symm (by rw [nodeWeight_insertNode, if_pos rfl])
      rw [hm] at hnode
      obtain rfl := Option.some_inj.mp hnode
      exact ⟨hlinks, hzid⟩
    · exact h.fresh j m hj hm (by rw [nodeWeight_insertNode, if_neg hne.symm, hnone])

theorem persists (h : Restated i n net net') {j : ℕ} {m : Node}
    (hm : nodeWeight net.graph j = some m) :
    ∃ m', nodeWeight net'.graph j = some m' ∧ m'.zid = m.zid := by
  rcases eq_or_ne j i with rfl | hne
  · exact ⟨n, h.node, (h.zid m hm).symm⟩
  · exact ⟨m, h.old j m hne hm, rfl⟩

end Restated

theorem loopless_modify (h : Loopless net) (i : ℕ) (f : Node → Node) :
    Loopless (net.modify i f) := by
  intro j
  rw [edgeWeight_modify]
  exact h j

theorem loopless_insertNode (h : Loopless net) (node : Node) :
    Loopless (net.insertNode node).1 := by
  intro j
  rw [edgeWeight_insertNode]
  exact h j

variable [EdgeArith ω]

namespace Settled

theorem frame {s : Set ℕ} (h : Settled s selfZid net) (hidx : net'.idx = net.idx)
    (hgraph : net'.graph = net.graph) (hindex : net'.idxByZid = net.idxByZid)
    (hfull : net'.fullLinkstate = net.fullLinkstate) : Settled s selfZid net' := by
  obtain ⟨⟨⟨hi, hr⟩, hf⟩, hk, hj, hb⟩ := h
  have hget : net'.getIdx = net.getIdx := by
    funext zid
    rw [getIdx, hindex, getIdx]
  have hi' : Inverse net' := by
    intro zid i
    rw [hget, hgraph, hi zid i]
  exact ⟨⟨⟨hi', hgraph ▸ hidx ▸ hr⟩, hfull ▸ hf⟩, hget ▸ hgraph ▸ hk, hgraph ▸ hj,
    hgraph ▸ hb⟩

variable [HashOrder]

theorem rebuild {net₀ : LinkstateNetwork G} {i : ℕ} {n : Node} (h : Settled {i} selfZid net)
    (hrestated : Restated i n net₀ net) :
    ∃ net' introduced, net.rebuildEdges i = some (net', introduced) ∧ Settled ∅ selfZid net' ∧
      Restated i n net₀ net' ∧ (Loopless net → Loopless net') ∧
      net' = { net with graph := net'.graph, idxByZid := net'.idxByZid } := by
  obtain ⟨net', introduced, heq, hsettled, hgrown, hzids⟩ := exists_rebuildEdges h hrestated.node
  exact ⟨net', introduced, heq, hsettled, hrestated.grow hgrown hzids, hgrown.loopless,
    hgrown.frame⟩

theorem collect (h : Settled ∅ selfZid net) :
    ∃ net' removed, net.removeDetachedNodes = some (net', removed) ∧ Settled ∅ selfZid net' ∧
      Collected net net' removed := by
  obtain ⟨net', removed, heq, hcollected, hindexed, hedge⟩ := exists_removeDetachedNodes h.toIndexed
  have hfull : net'.fullLinkstate = true := by rw [hcollected.frame, h.full]
  refine ⟨net', removed, heq, ⟨⟨hindexed, hfull⟩, fun i n _ hn zid hzid => ?_,
    fun i j hij _ _ one two hone htwo w => ?_, fun _ _ _ _ hi => hi.elim⟩, hcollected⟩
  · obtain ⟨hn, hreach⟩ := (hcollected.node i n).mp hn
    obtain ⟨j, hj⟩ := h.known i n id hn zid hzid
    obtain ⟨m, hm, rfl⟩ := (h.index zid j).mp hj
    have hreach' : Reachable net j := hreach.tail ⟨n, hn, m.zid, hzid, hj⟩
    exact ⟨j, (hindexed.index _ j).mpr ⟨m, (hcollected.node j m).mpr ⟨hm, hreach'⟩, rfl⟩⟩
  · obtain ⟨hone, hi⟩ := (hcollected.node i one).mp hone
    obtain ⟨htwo, hj⟩ := (hcollected.node j two).mp htwo
    rw [hedge i j hi hj]
    exact h.joined i j hij id id one two hone htwo w

end Settled

omit [EdgeArith ω] in
theorem isSingleHopNetwork_of_full (h : net.fullLinkstate = true) :
    net.isSingleHopNetwork = false := by
  simp [isSingleHopNetwork, h]

variable [HashOrder]

omit [HashOrder] in
theorem introducePeer_spec (h : Settled ∅ selfZid net) (peerZid : Zid) (peerWhatami : WhatAmI)
    (remoteIsGateway : Bool) :
    let net' := net.introducePeer peerZid peerWhatami remoteIsGateway
    Settled ∅ selfZid net' ∧ (Loopless net → Loopless net') ∧
      net' = { net with graph := net'.graph, idxByZid := net'.idxByZid } ∧
      (∀ i m, nodeWeight net.graph i = some m → nodeWeight net'.graph i = some m) ∧
      ∀ i m n net'', nodeWeight net.graph i = some m → peerZid ∈ n.links → Restated i n net' net'' →
        Restated i n net net'' := by
  intro net'
  rcases hpeer : net.getIdx peerZid with _ | j
  · set node : Node :=
      { zid := peerZid
        whatami := some peerWhatami
        locators := none
        sn := 0
        links := ∅
        isGateway := net.isSingleHopGossip && remoteIsGateway }
    have hnet' : net' = (net.insertNode node).1 := by
      simp [net', introducePeer, hpeer, node]
    rw [hnet']
    refine ⟨h.insertNode_of_links_empty hpeer rfl, fun hloop => loopless_insertNode hloop node, rfl,
      fun i m => nodeWeight_insertNode_of_some, fun i m n net'' hm hmem hrestated => ?_⟩
    refine hrestated.after_insertNode ?_ rfl hmem
    rintro rfl
    rw [insertNode, addNode_fresh] at hm
    cases hm
  · have hnet' : net' = net := by
      simp [net', introducePeer, hpeer]
    rw [hnet']
    exact ⟨h, id, rfl, fun _ _ => id, fun _ _ _ _ _ _ => id⟩

theorem exists_restateSelf (h : Settled ∅ selfZid net) {n : Node}
    (hn : nodeWeight net.graph net.idx = some n) {f : Node → Node} (hf : ∀ m, (f m).zid = m.zid) :
    ∃ net' introduced, net.restateSelf f = some (net', introduced) ∧ Settled ∅ selfZid net' ∧
      Restated net.idx (f n) net net' ∧ (Loopless net → Loopless net') ∧
      net' = { net with graph := net'.graph, idxByZid := net'.idxByZid } := by
  obtain ⟨net', introduced, heq, hsettled, hrestated, hloop, hframe⟩ :=
    (h.modify hf net.idx).rebuild (Restated.modify f hf hn)
  exact ⟨net', introduced, by simp [restateSelf, hn, heq], hsettled, hrestated,
    fun hl => hloop (loopless_modify hl _ _), hframe⟩

theorem exists_addLinkBound (h : Settled ∅ selfZid net) (peerZid : Zid) (peerWhatami : WhatAmI)
    (remoteIsGateway : Bool) :
    ∃ net' n, net.addLinkBound peerZid peerWhatami remoteIsGateway = some (net', net.nextLinkId) ∧
      Settled ∅ selfZid net' ∧ nodeWeight net.graph net.idx = some n ∧
      Restated net.idx
        { n with
          links := n.links.insert peerZid (net.linkWeights[peerZid]?.getD {})
          sn := n.sn + 1 } net net' ∧
      (Loopless net → Loopless net') ∧
      net' = { net with
        graph := net'.graph
        idxByZid := net'.idxByZid
        nextLinkId := net.nextLinkId + 1
        links := net.links.insert net.nextLinkId { zid := peerZid, remoteIsGateway } } := by
  obtain ⟨n, hn, -⟩ := h.root
  set linked : LinkstateNetwork G :=
    { net with
      nextLinkId := net.nextLinkId + 1
      links := net.links.insert net.nextLinkId { zid := peerZid, remoteIsGateway } } with hlinked
  have hlinkedSettled : Settled ∅ selfZid linked := h.frame rfl rfl rfl rfl
  obtain ⟨hpeer, hpeerLoop, hpeerFrame, hold, hafter⟩ :=
    introducePeer_spec hlinkedSettled peerZid peerWhatami remoteIsGateway
  set joined := linked.introducePeer peerZid peerWhatami remoteIsGateway
  have hidx : joined.idx = net.idx := by rw [hpeerFrame]
  have hweights : joined.linkWeights = net.linkWeights := by rw [hpeerFrame]
  obtain ⟨net', introduced, heq, hsettled, hrestated, hloop, hframe⟩ :=
    exists_restateSelf (f := fun node =>
      { node with
        links := node.links.insert peerZid (net.linkWeights[peerZid]?.getD {})
        sn := node.sn + 1 }) hpeer (hidx ▸ hold net.idx n hn) (fun _ => rfl)
  refine ⟨net', n, ?_, hsettled, hn, ?_, fun hl => hloop (hpeerLoop hl), ?_⟩
  · have hhop : linked.isSingleHopNetwork = false := isSingleHopNetwork_of_full h.full
    rw [addLinkBound, ← hlinked]
    simp only [hhop]
    rw [if_neg (by simp)]
    change (joined.restateSelf _).bind _ = _
    rw [hweights, heq, Option.bind_some]
  · rw [hidx] at hrestated
    have hfrom := hafter net.idx n _ net' hn (by simp) hrestated
    exact ⟨hfrom.node, hfrom.zid, hfrom.old, hfrom.fresh⟩
  · rw [hframe, hpeerFrame]

theorem exists_removeLink (h : Settled ∅ selfZid net) {id : ℕ} {link : Link}
    (hlink : net.links[id]? = some link) :
    ∃ mid net' removed n, net.removeLink id = some (net', removed) ∧ Settled ∅ selfZid mid ∧
      Settled ∅ selfZid net' ∧ nodeWeight net.graph net.idx = some n ∧
      Restated net.idx { n with links := n.links.erase link.zid, sn := n.sn + 1 } net mid ∧
      Collected mid net' removed ∧ (Loopless net → Loopless net') ∧
      mid = { net with
        graph := mid.graph, idxByZid := mid.idxByZid, links := net.links.erase id } := by
  obtain ⟨n, hn, -⟩ := h.root
  set unlinked : LinkstateNetwork G := { net with links := net.links.erase id } with hunlinked
  have hsettled : Settled ∅ selfZid unlinked := h.frame rfl rfl rfl rfl
  obtain ⟨mid, introduced, heq, hmid, hrestated, hloop, hframe⟩ :=
    exists_restateSelf (f := fun node =>
      { node with links := node.links.erase link.zid, sn := node.sn + 1 }) hsettled hn fun _ => rfl
  obtain ⟨net', removed, heq', hnet', hcollected⟩ := hmid.collect
  refine ⟨mid, net', removed, n, ?_, hmid, hnet', hn, ?_, hcollected,
    fun hl => hcollected.loopless (hloop hl), hframe⟩
  · have hhop : unlinked.isSingleHopNetwork = false := isSingleHopNetwork_of_full h.full
    rw [removeLink, hlink]
    simp only [← hunlinked, hhop]
    rw [if_neg (by simp), heq]
    exact heq'
  · exact ⟨hrestated.node, hrestated.zid, hrestated.old, hrestated.fresh⟩

/-- What one link state does: it is passed over, as it is not newer than the node's own, or the node
it is about takes it. -/
inductive Applied (ls : LocalLinkState) (net : LinkstateNetwork G) : LinkstateNetwork G → Prop
  | stale {i : ℕ} {n : Node} (hn : nodeWeight net.graph i = some n) (hzid : n.zid = ls.zid)
    (hsn : ls.sn ≤ n.sn) : Applied ls net net
  | restated {net' : LinkstateNetwork G} {i : ℕ} {n : Node} (h : Restated i n net net')
    (hzid : n.zid = ls.zid) (hsn : n.sn = ls.sn) (hlinks : n.links = ls.links)
    (hnewer : ∀ m, nodeWeight net.graph i = some m → m.sn < ls.sn)
    (hloop : Loopless net → Loopless net')
    (hframe : net' = { net with graph := net'.graph, idxByZid := net'.idxByZid }) :
    Applied ls net net'

theorem exists_applyLinkState (h : Settled ∅ selfZid net) (changes : Changes) (ls : LocalLinkState) :
    ∃ net' changes', applyLinkState (net, changes) ls = some (net', changes') ∧
      Settled ∅ selfZid net' ∧ Applied ls net net' := by
  rcases hidx : net.getIdx ls.zid with _ | i
  · set inserted := net.insertNode (nodeOf ls) with hinserted
    have hopen : Settled {inserted.2} selfZid inserted.1 := by
      simpa using h.insertNode (show net.getIdx (nodeOf ls).zid = none from hidx)
    obtain ⟨net', introduced, heq, hsettled, hrestated, hloop, hframe⟩ :=
      hopen.rebuild (Restated.insertNode (nodeOf ls))
    refine ⟨net', note changes introduced true ls.zid, ?_, hsettled,
      .restated hrestated rfl rfl rfl (fun m hm => ?_)
        (fun hl => hloop (loopless_insertNode hl _)) ?_⟩
    · simp [applyLinkState, admitState, hidx, ← hinserted, heq, hrestated.node]
      rfl
    · rw [hinserted, insertNode, addNode_fresh] at hm
      cases hm
    · rw [hframe]
      rfl
  obtain ⟨n, hn, hzid⟩ := (h.index ls.zid i).mp hidx
  by_cases hsn : ls.sn ≤ n.sn
  · exact ⟨net, changes, by simp [applyLinkState, admitState, hidx, hn, hsn], h, .stale hn hzid hsn⟩
  obtain ⟨net', introduced, heq, hsettled, hrestated, hloop, hframe⟩ :=
    (h.modify (f := restate ls) (fun _ => rfl) i).rebuild
      (Restated.modify (restate ls) (fun _ => rfl) hn)
  refine ⟨net', note changes introduced (n.sn = 0) n.zid, ?_, hsettled, .restated hrestated hzid rfl rfl (fun m hm => ?_)
    (fun hl => hloop (loopless_modify hl _ _)) hframe⟩
  · simp [applyLinkState, admitState, hidx, hn, hsn, heq, hrestated.node, restate]
  · rw [hn] at hm
    exact Option.some_inj.mp hm ▸ UInt64.not_le.mp hsn

theorem exists_applyLinkStates (h : Settled ∅ selfZid net) (changes : Changes)
    (states : List LocalLinkState) {P : LinkstateNetwork G → Prop} (hP : P net)
    (hstep : ∀ net net', ∀ ls ∈ states, Settled ∅ selfZid net → Applied ls net net' → P net → P net') :
    ∃ net' changes', states.foldlM applyLinkState (net, changes) = some (net', changes') ∧
      Settled ∅ selfZid net' ∧ P net' := by
  obtain ⟨⟨net', changes'⟩, heq, hsettled, hP'⟩ := Steps.foldlM_keeps (f := applyLinkState)
    (P := fun _ s => Settled ∅ selfZid s.1 ∧ P s.1) states (fun _ s ls hls hs => by
      obtain ⟨net', changes', heq, hsettled, happlied⟩ := exists_applyLinkState hs.1 s.2 ls
      exact ⟨(net', changes'), heq, hsettled, hstep s.1 net' ls hls hs.1 happlied hs.2⟩)
    [] (s := (net, changes)) ⟨h, hP⟩
  exact ⟨net', changes', heq, hsettled, hP'⟩

theorem exists_ingestLinkstateList (h : Settled ∅ selfZid net) (srcLinkId : ℕ)
    (list : List LinkstateEntry) {P : LinkstateNetwork G → Prop}
    (hP : P (net.convertToLocalLinkStates srcLinkId list).1)
    (hstep : ∀ net₁ net₂, ∀ ls ∈ (net.convertToLocalLinkStates srcLinkId list).2,
      Settled ∅ selfZid net₁ → Applied ls net₁ net₂ → P net₁ → P net₂) :
    ∃ mid net' changes removed,
      (net.convertToLocalLinkStates srcLinkId list).2.foldlM applyLinkState
        ((net.convertToLocalLinkStates srcLinkId list).1, {}) = some (mid, changes) ∧
      net.ingestLinkstateList srcLinkId list = some (net',
        { new := changes.new.filter (· ∉ removed)
          updated := changes.updated.filter (· ∉ removed)
          removed }) ∧
      Settled ∅ selfZid mid ∧ P mid ∧ Settled ∅ selfZid net' ∧ Collected mid net' removed := by
  set linked := (net.convertToLocalLinkStates srcLinkId list).1 with hlinked
  set states := (net.convertToLocalLinkStates srcLinkId list).2 with hstates
  have hframe := convertToLocalLinkStates_frame net srcLinkId list
  rw [← hlinked] at hframe
  have hsettled : Settled ∅ selfZid linked := by
    refine h.frame ?_ ?_ ?_ ?_ <;> rw [hframe]
  obtain ⟨mid, changes, hfold, hmid, hPmid⟩ := exists_applyLinkStates hsettled {} states hP hstep
  obtain ⟨net', removed, hcollect, hnet', hcollected⟩ := hmid.collect
  refine ⟨mid, net', changes, removed, hfold, ?_, hmid, hPmid, hnet', hcollected⟩
  rw [ingestLinkstateList]
  change linked.processLinkstates states = _
  simp [processLinkstates, hsettled.full, hfold, hcollect]

end WatchingZenoh.NetworkGraph
