import Mathlib
import WatchingZenoh.NetworkRuns

/-! Garbage collection is exact: the graph holds the nodes that advertisements lead to from self, and a
call reports as removed what was in the graph before it or in its course, and is not in it after. -/

namespace WatchingZenoh.NetworkGraph

open StableGraph StableUnGraph LinkstateNetwork

variable {G ω : Type} [StableUnGraph G Node ω]
variable {selfZid : Zid} {net mid net' : LinkstateNetwork G}

def InGraph (net : LinkstateNetwork G) (zid : Zid) : Prop :=
  ∃ i n, nodeWeight net.graph i = some n ∧ n.zid = zid

def Exact (net : LinkstateNetwork G) : Prop :=
  ∀ i n, nodeWeight net.graph i = some n → Reachable net i

theorem exact_iff (h : Indexed selfZid net) (hexact : Exact net) (i : ℕ) :
    (∃ n, nodeWeight net.graph i = some n) ↔ Reachable net i := by
  constructor
  · rintro ⟨n, hn⟩
    exact hexact i n hn
  · intro hreach
    rcases Relation.ReflTransGen.cases_tail hreach with rfl | ⟨j, -, n, -, zid, -, hzid⟩
    · obtain ⟨n, hn, -⟩ := h.root
      exact ⟨n, hn⟩
    · obtain ⟨m, hm, -⟩ := (h.index zid i).mp hzid
      exact ⟨m, hm⟩

theorem Restated.exact {n : Node} (h : Restated net.idx n net net') (hidx : net'.idx = net.idx)
    (hnet : Indexed selfZid net) (hnet' : Indexed selfZid net')
    (hlinks : ∀ m, nodeWeight net.graph net.idx = some m → ∀ zid ∈ m.links, zid ∈ n.links)
    (hexact : Exact net) : Exact net' := by
  have hstep : ∀ {i j : ℕ}, Advertises net i j → Advertises net' i j := by
    rintro i j ⟨m, hm, zid, hzid, hj⟩
    obtain ⟨k, hk, rfl⟩ := (hnet.index zid j).mp hj
    obtain ⟨k', hk', hzid'⟩ := h.persists hk
    have hj' := (hnet'.index k.zid j).mpr ⟨k', hk', hzid'⟩
    rcases eq_or_ne i net.idx with rfl | hne
    · exact ⟨n, h.node, k.zid, hlinks m hm k.zid hzid, hj'⟩
    · exact ⟨m, h.old i m hne hm, k.zid, hzid, hj'⟩
  intro i m hm
  rw [Reachable, hidx]
  rcases hold : nodeWeight net.graph i with _ | k
  · have hne : i ≠ net.idx := by
      rintro rfl
      obtain ⟨k, hk, -⟩ := hnet.root
      simp [hold] at hk
    refine .single ⟨n, h.node, m.zid, (h.fresh i m hne hm hold).2, ?_⟩
    exact (hnet'.index m.zid i).mpr ⟨m, hm, rfl⟩
  · exact Relation.ReflTransGen.mono (fun _ _ => hstep) _ _ (hexact i k hold)

namespace Collected

variable {removed : List Zid}

theorem exact (h : Collected mid net' removed) (hmid : Indexed selfZid mid)
    (hnet' : Indexed selfZid net') : Exact net' := by
  have hidx : net'.idx = mid.idx := by rw [h.frame]
  have hreach : ∀ {i : ℕ}, Reachable mid i → Reachable net' i := by
    intro i hi
    induction hi with
    | refl => exact hidx ▸ .refl
    | @tail i j hpath hstep ih =>
      refine ih.tail ?_
      obtain ⟨n, hn, zid, hzid, hj⟩ := hstep
      obtain ⟨m, hm, rfl⟩ := (hmid.index zid j).mp hj
      have hj' : Reachable mid j := hpath.tail ⟨n, hn, m.zid, hzid, hj⟩
      exact ⟨n, (h.node i n).mpr ⟨hn, hpath⟩, m.zid, hzid,
        (hnet'.index m.zid j).mpr ⟨m, (h.node j m).mpr ⟨hm, hj'⟩, rfl⟩⟩
  intro i n hn
  exact hreach ((h.node i n).mp hn).2

theorem mem_removed (h : Collected mid net' removed) (hmid : Indexed selfZid mid) (zid : Zid) :
    zid ∈ removed ↔ InGraph mid zid ∧ ¬InGraph net' zid := by
  rw [h.removed]
  constructor
  · rintro ⟨i, n, hn, rfl, hnot⟩
    refine ⟨⟨i, n, hn, rfl⟩, ?_⟩
    rintro ⟨j, m, hm, hzid⟩
    obtain ⟨hm, hreach⟩ := (h.node j m).mp hm
    exact hnot (hmid.index.zid_inj hm hn hzid ▸ hreach)
  · rintro ⟨⟨i, n, hn, rfl⟩, hnot⟩
    exact ⟨i, n, hn, rfl, fun hreach => hnot ⟨i, n, (h.node i n).mpr ⟨hn, hreach⟩, rfl⟩⟩

end Collected

variable [EdgeArith ω] [HashOrder]

/-- The id is in the graph before the list is ingested, or once some of its states have been
applied. -/
def During (net : LinkstateNetwork G) (srcLinkId : ℕ) (list : List LinkstateEntry) (zid : Zid) :
    Prop :=
  ∃ k mid changes, ((net.convertToLocalLinkStates srcLinkId list).2.take k).foldlM applyLinkState
      ((net.convertToLocalLinkStates srcLinkId list).1, {}) = some (mid, changes) ∧ InGraph mid zid

/-- What a call says of the nodes that went. -/
def Reports (net : LinkstateNetwork G) : Call → LinkstateNetwork G → Answer → Prop
  | .removeLink _, net', .removed zids => ∀ zid, zid ∈ zids ↔ InGraph net zid ∧ ¬InGraph net' zid
  | .ingestLinkstateList srcLinkId list, net', .changes changes =>
    (∀ zid, zid ∈ changes.removed ↔ During net srcLinkId list zid ∧ ¬InGraph net' zid) ∧
      ∀ zid ∈ changes.removed, zid ∉ changes.new ∧ zid ∉ changes.updated
  | .addLinkBound .., _, .linkId _ => True
  | .updateLinkWeights _, _, .moved _ => True
  | _, _, _ => False

omit [EdgeArith ω] [HashOrder] in
theorem Applied.inGraph {ls : LocalLinkState} (h : Applied ls net net') {zid : Zid}
    (hin : InGraph net zid) : InGraph net' zid := by
  cases h with
  | stale => exact hin
  | restated hrestated =>
    obtain ⟨i, n, hn, rfl⟩ := hin
    obtain ⟨m, hm, hzid⟩ := hrestated.persists hn
    exact ⟨i, m, hm, hzid⟩

theorem during_iff (h : Settled ∅ selfZid net) {srcLinkId : ℕ} {list : List LinkstateEntry}
    {changes : Changes}
    (hfold : (net.convertToLocalLinkStates srcLinkId list).2.foldlM applyLinkState
      ((net.convertToLocalLinkStates srcLinkId list).1, {}) = some (mid, changes)) (zid : Zid) :
    During net srcLinkId list zid ↔ InGraph mid zid := by
  set linked := (net.convertToLocalLinkStates srcLinkId list).1 with hlinked
  set states := (net.convertToLocalLinkStates srcLinkId list).2 with hstates
  have hsettled : Settled ∅ selfZid linked := by
    rw [hlinked, convertToLocalLinkStates_frame]
    exact h.frame rfl rfl rfl rfl
  constructor
  · rintro ⟨k, part, changes', hpart, hin⟩
    obtain ⟨part', changes'', hpart', hsettled', -⟩ :=
      exists_applyLinkStates hsettled {} (states.take k) (P := fun _ => True) trivial
        fun _ _ _ _ _ _ _ => trivial
    rw [hpart] at hpart'
    cases hpart'
    obtain ⟨mid', _, hrest, -, hkept⟩ :=
      exists_applyLinkStates hsettled' changes' (states.drop k) (P := fun net => InGraph net zid) hin
        fun _ _ _ _ _ happlied => happlied.inGraph
    rw [← List.take_append_drop k states, List.foldlM_append, hpart] at hfold
    rw [Option.bind_eq_bind, Option.bind_some, hrest] at hfold
    cases hfold
    exact hkept
  · intro hin
    exact ⟨states.length, mid, changes, by rw [List.take_length, hfold], hin⟩

theorem exists_step_reports (h : Settled ∅ selfZid net) (hexact : Exact net) (call : Call) :
    ∃ net' answer, step net call = some (net', answer) ∧ Settled ∅ selfZid net' ∧ Exact net' ∧
      Reports net call net' answer := by
  cases call with
  | addLinkBound peerZid peerWhatami remoteIsGateway =>
    obtain ⟨net', n, heq, hsettled, hn, hrestated, -, hframe⟩ :=
      exists_addLinkBound h peerZid peerWhatami remoteIsGateway
    refine ⟨net', .linkId net.nextLinkId, by rw [step, heq]; rfl, hsettled, ?_, trivial⟩
    refine hrestated.exact (by rw [hframe]) h.toIndexed hsettled.toIndexed
      (fun m hm zid hzid => ?_) hexact
    rw [hn] at hm
    obtain rfl := Option.some_inj.mp hm
    simp [Std.ExtTreeMap.mem_insert, hzid]
  | updateLinkWeights linkWeights =>
    obtain ⟨net', moved, n, n', heq, hsettled, hn, hrestated, hlinks, -, hframe⟩ :=
      exists_updateLinkWeights h linkWeights
    refine ⟨net', .moved moved, by rw [step, heq]; rfl, hsettled, ?_, trivial⟩
    refine hrestated.exact (by rw [hframe]) h.toIndexed hsettled.toIndexed
      (fun m hm zid hzid => ?_) hexact
    rw [hn] at hm
    exact (hlinks zid).mpr (Option.some_inj.mp hm ▸ hzid)
  | removeLink id =>
    rcases hlink : net.links[id]? with _ | link
    · refine ⟨net, .removed [], by rw [step, removeLink, hlink]; rfl, h, hexact, fun zid => ?_⟩
      simp
    obtain ⟨mid, net', removed, n, heq, hmid, hsettled, hn, hrestated, hcollected, -, -⟩ :=
      exists_removeLink h hlink
    refine ⟨net', .removed removed, by rw [step, heq]; rfl, hsettled,
      hcollected.exact hmid.toIndexed hsettled.toIndexed, fun zid => ?_⟩
    rw [hcollected.mem_removed hmid.toIndexed]
    refine and_congr_left fun _ => ⟨?_, ?_⟩
    · rintro ⟨i, m, hm, rfl⟩
      rcases hold : nodeWeight net.graph i with _ | k
      · -- what comes in was advertised by self, so it was known
        have hne : i ≠ net.idx := by
          rintro rfl
          simp [hold] at hn
        have hmem : m.zid ∈ n.links := by
          have hmem := (hrestated.fresh i m hne hm hold).2
          exact (Std.ExtTreeMap.mem_erase.mp hmem).2
        obtain ⟨j, hj⟩ := h.known net.idx n (fun hi => hi) hn m.zid hmem
        obtain ⟨k, hk, hzid⟩ := (h.index m.zid j).mp hj
        exact ⟨j, k, hk, hzid⟩
      · obtain ⟨k', hk', hzid⟩ := hrestated.persists hold
        rw [hm] at hk'
        exact ⟨i, k, hold, by rw [← hzid, Option.some_inj.mp hk']⟩
    · rintro ⟨i, m, hm, rfl⟩
      obtain ⟨k, hk, hzid⟩ := hrestated.persists hm
      exact ⟨i, k, hk, hzid⟩
  | ingestLinkstateList srcLinkId list =>
    obtain ⟨mid, net', changes, removed, hfold, heq, hmid, -, hsettled, hcollected⟩ :=
      exists_ingestLinkstateList h srcLinkId list (P := fun _ => True) trivial
        fun _ _ _ _ _ _ _ => trivial
    refine ⟨net', .changes _, by rw [step, heq]; rfl, hsettled,
      hcollected.exact hmid.toIndexed hsettled.toIndexed, fun zid => ?_, fun zid hzid => ?_⟩
    · rw [hcollected.mem_removed hmid.toIndexed, during_iff h hfold]
    · simpa using ⟨fun _ => hzid, fun _ => hzid⟩

/-- In every run, every call returns; at its end the nodes are those that can be reached, and whatever
is called next reports exactly what goes. -/
theorem collection_run (h : Fresh selfZid net) (calls : List Call) :
    ∃ net' answers, Steps.run step net calls = some (net', answers) ∧
      (∀ i : ℕ, (∃ n, nodeWeight net'.graph i = some n) ↔ Reachable net' i) ∧
      ∀ call, ∃ net'' answer, step net' call = some (net'', answer) ∧
        Reports net' call net'' answer := by
  have hstart := (settled_fresh h).1
  have hexact : Exact net := fun i n hn => (idx_of_fresh h hn).1 ▸ .refl
  obtain ⟨net', answers, hrun, hsettled, hexact'⟩ := @Steps.run_keeps _ _ _ step
    (fun _ net => Settled ∅ selfZid net ∧ Exact net) (fun past s call hs => by
      obtain ⟨s', answer, heq, hsettled, hexact, -⟩ := exists_step_reports hs.1 hs.2 call
      exact ⟨s', answer, heq, hsettled, hexact⟩) calls [] net ⟨hstart, hexact⟩
  refine ⟨net', answers, hrun, exact_iff hsettled.toIndexed hexact', fun call => ?_⟩
  obtain ⟨net'', answer, heq, -, -, hreports⟩ := exists_step_reports hsettled hexact' call
  exact ⟨net'', answer, heq, hreports⟩

omit [StableUnGraph G Node ω] [EdgeArith ω] [HashOrder] in
/-- A neighbour is linked and says that it is linked with self and with a third node; then its link
goes. -/
theorem collection_run_detached :
    letI := sortedOrder
    letI := plainArith
    ∃ (net : LinkstateNetwork (UnGraph Node ℕ)) (answers : List Answer),
      Steps.run step (.new zidA .peer)
        [.addLinkBound zidB .peer false,
          .ingestLinkstateList 0 [entryOf 0 zidB 1 [1, 2], entryOf 1 zidA 0 [], entryOf 2 zidC 1 [0]],
          .removeLink 0] = some (net, answers) ∧
      (∀ i : ℕ, (∃ n, nodeWeight net.graph i = some n) ↔ Reachable net i) ∧
      ∀ call, ∃ net' answer, step net call = some (net', answer) ∧ Reports net call net' answer := by
  let _ := sortedOrder
  let _ := plainArith
  exact collection_run (Fresh.new .peer) _

end WatchingZenoh.NetworkGraph
