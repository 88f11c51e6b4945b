import Mathlib
import WatchingZenoh.NetworkRuns

/-! What self advertises, against the links it holds. The graph keys self's own entry on the id of the
neighbour, so it needs no two links to one: removing one of them takes the entry with it. And an entry
about self that is newer than its own replaces what it advertises. -/

namespace WatchingZenoh.NetworkGraph

open StableGraph StableUnGraph LinkstateNetwork
open Std (ExtTreeMap)

variable {G ω : Type} [StableUnGraph G Node ω]
variable {selfZid : Zid} {net mid net' : LinkstateNetwork G}

def LinkedTo (net : LinkstateNetwork G) (zid : Zid) : Prop :=
  ∃ (id : ℕ) (link : Link), net.links[id]? = some link ∧ link.zid = zid

def Neighbours (net : LinkstateNetwork G) : Prop :=
  ∀ n, nodeWeight net.graph net.idx = some n → ∀ zid, zid ∈ n.links ↔ LinkedTo net zid

/-- No other link leads to the neighbour of the link that goes, and no entry about self is newer than
its own. -/
def Orderly (net : LinkstateNetwork G) : Call → Prop
  | .removeLink id => ∀ (link : Link), net.links[id]? = some link →
    ∀ (id' : ℕ) (link' : Link), net.links[id']? = some link' → link'.zid = link.zid → id' = id
  | .ingestLinkstateList srcLinkId list => ∀ n, nodeWeight net.graph net.idx = some n →
    ∀ ls ∈ (net.convertToLocalLinkStates srcLinkId list).2, ls.zid = n.zid → ls.sn ≤ n.sn
  | _ => True

def Numbered (net : LinkstateNetwork G) : Prop := ∀ id ∈ net.links, id < net.nextLinkId

omit [StableUnGraph G Node ω] in
theorem linkedTo_insert {id : ℕ} {link : Link} {zid : Zid}
    (hlinks : net'.links = net.links.insert id link) (hid : id ∉ net.links) :
    LinkedTo net' zid ↔ zid = link.zid ∨ LinkedTo net zid := by
  simp only [LinkedTo, hlinks, ExtTreeMap.getElem?_insert, Std.LawfulEqCmp.compare_eq_iff_eq]
  constructor
  · rintro ⟨id', link', hlink', rfl⟩
    split_ifs at hlink' with heq
    · exact .inl (congrArg Link.zid (Option.some_inj.mp hlink')).symm
    · exact .inr ⟨id', link', hlink', rfl⟩
  · rintro (rfl | ⟨id', link', hlink', rfl⟩)
    · exact ⟨id, link, by simp, rfl⟩
    · refine ⟨id', link', ?_, rfl⟩
      rw [if_neg, hlink']
      rintro rfl
      simp [ExtTreeMap.mem_iff_isSome_getElem?, hlink'] at hid

omit [StableUnGraph G Node ω] in
theorem linkedTo_erase {id : ℕ} {link : Link} {zid : Zid} (hlinks : net'.links = net.links.erase id)
    (hlink : net.links[id]? = some link)
    (honly : ∀ (id' : ℕ) (link' : Link), net.links[id']? = some link' → link'.zid = link.zid →
      id' = id) :
    LinkedTo net' zid ↔ zid ≠ link.zid ∧ LinkedTo net zid := by
  simp only [LinkedTo, hlinks, ExtTreeMap.getElem?_erase, Std.LawfulEqCmp.compare_eq_iff_eq]
  constructor
  · rintro ⟨id', link', hlink', rfl⟩
    split_ifs at hlink' with heq
    exact ⟨fun hzid => heq (honly id' link' hlink' hzid).symm, id', link', hlink', rfl⟩
  · rintro ⟨hne, id', link', hlink', rfl⟩
    refine ⟨id', link', ?_, rfl⟩
    rw [if_neg, hlink']
    rintro rfl
    rw [hlink] at hlink'
    exact hne (congrArg Link.zid (Option.some_inj.mp hlink')).symm

omit [StableUnGraph G Node ω] in
theorem convert_links (net : LinkstateNetwork G) (srcLinkId : ℕ) (list : List LinkstateEntry) (id : ℕ) :
    (net.convertToLocalLinkStates srcLinkId list).1.links[id]?.map Link.zid =
      net.links[id]?.map Link.zid := by
  unfold convertToLocalLinkStates
  split
  · rfl
  · next link hlink =>
    simp only [ExtTreeMap.getElem?_insert, Std.LawfulEqCmp.compare_eq_iff_eq]
    split_ifs with heq
    · rw [← heq, hlink]
      rfl
    · rfl

omit [StableUnGraph G Node ω] in
theorem linkedTo_congr {zid : Zid}
    (h : ∀ id : ℕ, net'.links[id]?.map Link.zid = net.links[id]?.map Link.zid) :
    LinkedTo net' zid ↔ LinkedTo net zid := by
  have hiff : ∀ net : LinkstateNetwork G, LinkedTo net zid ↔
      ∃ id : ℕ, net.links[id]?.map Link.zid = some zid := by
    intro net
    simp [LinkedTo]
  simp only [hiff, h]

omit [StableUnGraph G Node ω] in
theorem numbered_congr (h : Numbered net) (hnext : net'.nextLinkId = net.nextLinkId)
    (hlinks : ∀ id : ℕ, net'.links[id]?.map Link.zid = net.links[id]?.map Link.zid) :
    Numbered net' := by
  intro id hid
  rw [hnext]
  refine h id ?_
  rw [ExtTreeMap.mem_iff_isSome_getElem?, ← Option.isSome_map (f := Link.zid)] at hid ⊢
  rwa [← hlinks id]

/-- What holds of self along an orderly run. -/
structure Kept (selfZid : Zid) (net : LinkstateNetwork G) [EdgeArith ω] : Prop where
  settled : Settled ∅ selfZid net
  neighbours : Neighbours net
  numbered : Numbered net

variable [EdgeArith ω] [HashOrder]

theorem exists_ingest_self (h : Settled ∅ selfZid net) {srcLinkId : ℕ} {list : List LinkstateEntry}
    (horderly : Orderly net (.ingestLinkstateList srcLinkId list)) {n : Node}
    (hn : nodeWeight net.graph net.idx = some n) :
    ∃ net' changes, net.ingestLinkstateList srcLinkId list = some (net', changes) ∧
      Settled ∅ selfZid net' ∧ net'.idx = net.idx ∧ nodeWeight net'.graph net'.idx = some n ∧
      net'.links = (net.convertToLocalLinkStates srcLinkId list).1.links ∧
      net'.nextLinkId = net.nextLinkId := by
  set linked := (net.convertToLocalLinkStates srcLinkId list).1 with hlinked
  have hframe := convertToLocalLinkStates_frame net srcLinkId list
  rw [← hlinked] at hframe
  obtain ⟨k, hk, hself⟩ := h.root
  rw [hn] at hk
  obtain rfl := Option.some_inj.mp hk
  obtain ⟨mid, net', changes, removed, -, heq, hmid, ⟨hidx, hnode, hlinks, hnext⟩, hsettled,
    hcollected⟩ := exists_ingestLinkstateList h srcLinkId list
      (P := fun mid => mid.idx = net.idx ∧ nodeWeight mid.graph net.idx = some n ∧
        mid.links = linked.links ∧ mid.nextLinkId = net.nextLinkId) (by
          rw [← hlinked]
          exact ⟨by rw [hframe], by rw [hframe]; exact hn, rfl, by rw [hframe]⟩) (by
        rintro net₁ net₂ ls hls hsettled happlied ⟨hidx, hnode, hlinks, hnext⟩
        cases happlied with
        | stale => exact ⟨hidx, hnode, hlinks, hnext⟩
        | @restated _ i m hrestated hzid _ _ hnewer _ hframe₂ =>
          have hne : net.idx ≠ i := by
            rintro rfl
            have hsame := hrestated.zid n hnode
            have hle := horderly n hn ls hls (by rw [← hzid, hsame])
            exact absurd (hnewer n hnode) (UInt64.not_lt.mpr hle)
          exact ⟨by rw [hframe₂, hidx], hrestated.old _ n hne hnode, by rw [hframe₂, hlinks],
            by rw [hframe₂, hnext]⟩)
  have hframe' := hcollected.frame
  have hidx' : net'.idx = net.idx := by rw [hframe', hidx]
  refine ⟨net', _, heq, hsettled, hidx', ?_, by rw [hframe', hlinks], by rw [hframe', hnext]⟩
  rw [hidx']
  exact (hcollected.node net.idx n).mpr ⟨hnode, hidx ▸ .refl⟩

theorem exists_step_kept (h : Kept selfZid net) (call : Call) (horderly : Orderly net call) :
    ∃ net' answer, step net call = some (net', answer) ∧ Kept selfZid net' := by
  cases call with
  | addLinkBound peerZid peerWhatami remoteIsGateway =>
    obtain ⟨net', n, heq, hsettled, hn, hrestated, -, hframe⟩ :=
      exists_addLinkBound h.settled peerZid peerWhatami remoteIsGateway
    have hlinks := congrArg LinkstateNetwork.links hframe
    have hidx : net'.idx = net.idx := by rw [hframe]
    have hfresh : net.nextLinkId ∉ net.links := fun hmem => lt_irrefl _ (h.numbered _ hmem)
    refine ⟨net', _, by rw [step, heq]; rfl, hsettled, fun m hm zid => ?_, fun id hid => ?_⟩
    · rw [hidx, hrestated.node] at hm
      obtain rfl := Option.some_inj.mp hm
      rw [linkedTo_insert hlinks hfresh, ← h.neighbours n hn, ExtTreeMap.mem_insert,
        Std.LawfulEqCmp.compare_eq_iff_eq, eq_comm]
    · rw [hframe] at hid ⊢
      rcases ExtTreeMap.mem_insert.mp hid with hid | hid
      · simp only [Std.LawfulEqCmp.compare_eq_iff_eq] at hid
        exact hid ▸ Nat.lt_succ_self _
      · exact (h.numbered id hid).trans (Nat.lt_succ_self _)
  | updateLinkWeights linkWeights =>
    obtain ⟨net', moved, n, n', heq, hsettled, hn, hrestated, hlinks, -, hframe⟩ :=
      exists_updateLinkWeights h.settled linkWeights
    have hidx : net'.idx = net.idx := by rw [hframe]
    have hsame : ∀ id : ℕ, net'.links[id]?.map Link.zid = net.links[id]?.map Link.zid := by
      rw [hframe]
      exact fun _ => rfl
    refine ⟨net', _, by rw [step, heq]; rfl, hsettled, fun m hm zid => ?_,
      numbered_congr h.numbered (by rw [hframe]) hsame⟩
    rw [hidx, hrestated.node] at hm
    obtain rfl := Option.some_inj.mp hm
    rw [hlinks, h.neighbours n hn, linkedTo_congr hsame]
  | removeLink id =>
    rcases hlink : net.links[id]? with _ | link
    · exact ⟨net, _, by rw [step, removeLink, hlink]; rfl, h⟩
    obtain ⟨mid, net', removed, n, heq, hmid, hsettled, hn, hrestated, hcollected, -, hframe⟩ :=
      exists_removeLink h.settled hlink
    have hmidIdx : mid.idx = net.idx := by rw [hframe]
    have hidx : net'.idx = net.idx := by rw [hcollected.frame, hmidIdx]
    have hlinks : net'.links = net.links.erase id := by rw [hcollected.frame, hframe]
    refine ⟨net', _, by rw [step, heq]; rfl, hsettled, fun m hm zid => ?_, fun id' hid' => ?_⟩
    · rw [hidx] at hm
      have hm' := ((hcollected.node net.idx m).mp hm).1
      rw [hrestated.node] at hm'
      obtain rfl := Option.some_inj.mp hm'
      rw [linkedTo_erase hlinks hlink (horderly link hlink), ← h.neighbours n hn,
        ExtTreeMap.mem_erase, ne_eq, Std.LawfulEqCmp.compare_eq_iff_eq, eq_comm]
    · rw [hlinks] at hid'
      rw [hcollected.frame, hframe]
      exact h.numbered id' (ExtTreeMap.mem_of_mem_erase hid')
  | ingestLinkstateList srcLinkId list =>
    obtain ⟨n, hn, -⟩ := h.settled.root
    obtain ⟨net', changes, heq, hsettled, hidx, hnode, hlinks, hnext⟩ :=
      exists_ingest_self h.settled horderly hn
    have hsame : ∀ id : ℕ, net'.links[id]?.map Link.zid = net.links[id]?.map Link.zid := by
      rw [hlinks]
      exact convert_links net srcLinkId list
    refine ⟨net', _, by rw [step, heq]; rfl, hsettled, fun m hm zid => ?_,
      numbered_congr h.numbered hnext hsame⟩
    rw [hnode] at hm
    obtain rfl := Option.some_inj.mp hm
    rw [h.neighbours n hn, linkedTo_congr hsame]

/-- In every run of calls that are orderly where they are made, self advertises at its end exactly the
neighbours of the links it holds. -/
theorem neighbours_run (h : Fresh selfZid net) (calls : List Call)
    (horderly : Steps.Along step Orderly net calls) :
    ∃ net' answers, Steps.run step net calls = some (net', answers) ∧ Neighbours net' := by
  have hlinks : net.links = ∅ := by
    cases h <;> rfl
  have hstart : Kept selfZid net := by
    refine ⟨(settled_fresh h).1, fun n hn zid => ?_, fun id hid => ?_⟩
    · simp [(idx_of_fresh h hn).2, LinkedTo, hlinks]
    · simp [hlinks] at hid
  obtain ⟨net', answers, hrun, hkept⟩ := Steps.run_keeps_along
    (fun s call hs hcall => exists_step_kept hs call hcall) calls hstart horderly
  exact ⟨net', answers, hrun, hkept.neighbours⟩

omit [StableUnGraph G Node ω] [EdgeArith ω] [HashOrder] in
/-- Two neighbours are linked, and the link to one of them goes. -/
theorem neighbours_run_unlinked :
    letI := sortedOrder
    letI := plainArith
    ∃ (net : LinkstateNetwork (UnGraph Node ℕ)) (answers : List Answer),
      Steps.run step (.new zidA .peer)
        [.addLinkBound zidB .peer false, .addLinkBound zidC .peer false, .removeLink 0] =
          some (net, answers) ∧ Neighbours net := by
  let _ := sortedOrder
  let _ := plainArith
  refine neighbours_run (Fresh.new .peer) _
    ⟨trivial, fun s₁ _ h₁ => ⟨trivial, fun s₂ _ h₂ => ⟨?_, fun _ _ _ => trivial⟩⟩⟩
  intro link hlink id' link' hlink' hzid
  have hlinks : ((step (.new zidA .peer : LinkstateNetwork (UnGraph Node ℕ))
      (.addLinkBound zidB .peer false)).bind fun r => step r.1 (.addLinkBound zidC .peer false)).all
        (fun r => r.1.links.toList.map (fun entry => (entry.1, entry.2.zid)) =
          [(0, zidB), (1, zidC)]) = true := by
    decide +kernel
  rw [h₁, Option.bind_some, h₂, Option.all_some, decide_eq_true_iff] at hlinks
  have hmem : ∀ {id : ℕ} {link : Link}, s₂.links[id]? = some link →
      (id, link.zid) ∈ [(0, zidB), (1, zidC)] := by
    intro id link h
    rw [← hlinks]
    exact List.mem_map.mpr ⟨(id, link), ExtTreeMap.mem_toList_iff_getElem?_eq_some.mpr h, rfl⟩
  have hone := hmem hlink
  have htwo := hmem hlink'
  rw [hzid] at htwo
  have hne : zidC ≠ zidB := by decide
  simp only [List.mem_cons, Prod.mk.injEq, List.not_mem_nil, or_false] at hone htwo
  rcases hone with ⟨-, hone⟩ | ⟨h, -⟩
  · rcases htwo with ⟨h, -⟩ | ⟨-, htwo⟩
    · exact h
    · exact absurd (htwo.symm.trans hone) hne
  · cases h

theorem exists_not_neighbours {start : LinkstateNetwork G} {calls : List Call} {id : ℕ} {zid : Zid}
    (h : (Steps.run step start calls).any (fun r =>
      (nodeWeight r.1.graph r.1.idx).any (fun n => zid ∉ n.links) &&
        r.1.links[id]?.any fun link => link.zid = zid) = true) :
    ∃ net answers, Steps.run step start calls = some (net, answers) ∧ ¬Neighbours net := by
  obtain ⟨⟨net, answers⟩, hrun, hboth⟩ := (Option.any_eq_true _ _).mp h
  obtain ⟨hself, hlink⟩ := Bool.and_eq_true_iff.mp hboth
  obtain ⟨n, hn, hnot⟩ := (Option.any_eq_true _ _).mp hself
  obtain ⟨link, hlink, hzid⟩ := (Option.any_eq_true _ _).mp hlink
  refine ⟨net, answers, hrun, fun hneighbours => ?_⟩
  exact of_decide_eq_true hnot ((hneighbours n hn zid).mpr ⟨id, link, hlink, of_decide_eq_true hzid⟩)

omit [StableUnGraph G Node ω] [EdgeArith ω] [HashOrder] in
/-- Of two links to one neighbour the first goes: self no longer advertises the neighbour, to which the
other link leads still. Nor does it after a newer entry about self that does not name the neighbour. -/
theorem neighbours_run_parallel :
    letI := sortedOrder
    letI := plainArith
    let parallel : List Call :=
      [.addLinkBound zidB .peer false, .addLinkBound zidB .peer false, .removeLink 0]
    let aboutSelf : List Call :=
      [.addLinkBound zidB .peer false, .ingestLinkstateList 0 [entryOf 0 zidA 5 []]]
    let start : LinkstateNetwork (UnGraph Node ℕ) := .new zidA .peer
    (∃ net answers, Steps.run step start parallel = some (net, answers) ∧ ¬Neighbours net) ∧
      ∃ net answers, Steps.run step start aboutSelf = some (net, answers) ∧ ¬Neighbours net := by
  let _ := sortedOrder
  let _ := plainArith
  intro parallel aboutSelf start
  have hparallel : (Steps.run step start parallel).any (fun r =>
      (nodeWeight r.1.graph r.1.idx).any (fun n => zidB ∉ n.links) &&
        r.1.links[1]?.any fun link => link.zid = zidB) = true := by
    decide +kernel
  have haboutSelf : (Steps.run step start aboutSelf).any (fun r =>
      (nodeWeight r.1.graph r.1.idx).any (fun n => zidB ∉ n.links) &&
        r.1.links[0]?.any fun link => link.zid = zidB) = true := by
    decide +kernel
  exact ⟨exists_not_neighbours hparallel, exists_not_neighbours haboutSelf⟩

end WatchingZenoh.NetworkGraph
