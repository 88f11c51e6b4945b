import Mathlib
import WatchingZenoh.NetworkIndex
import WatchingZenoh.NetworkRuns
import WatchingZenoh.NetworkTrees

/-! Single-hop gossip: what a neighbour says of a node it knows names no links and may come before the
node's own entry of the same sequence number. What is kept of one node is its sequence number, its
links and the number of the entry that set them; an ingest is read off these three. -/

namespace WatchingZenoh.NetworkGraph

open StableGraph StableUnGraph LinkstateNetwork
open Std (ExtTreeMap)

variable {G ω : Type} [StableUnGraph G Node ω]
variable {selfZid : Zid} {net net' : LinkstateNetwork G}

namespace LinkstateNetwork

def setFullLinkstate (net : LinkstateNetwork G) (enabled : Bool) : LinkstateNetwork G :=
  { net with fullLinkstate := enabled }

def setGossipMultihop (net : LinkstateNetwork G) (enabled : Bool) : LinkstateNetwork G :=
  { net with gossipMultihop := enabled }

def setSelfLocators (net : LinkstateNetwork G) (locators : List Bytes) :
    Option (LinkstateNetwork G) := do
  let _ ← nodeWeight net.graph net.idx
  some (net.modify net.idx fun node =>
    { node with locators := if locators.isEmpty then none else some locators })

end LinkstateNetwork

/-- What a new network can become, whatever is called and in whatever mode. -/
inductive Reached [EdgeArith ω] [HashOrder] [GraphSearch G] : LinkstateNetwork G → Prop
  | fresh {selfZid : Zid} {net : LinkstateNetwork G} : Fresh selfZid net → Reached net
  | step {net net' : LinkstateNetwork G} {call : Call} {answer : Answer} :
    Reached net → step net call = some (net', answer) → Reached net'
  | computeTrees {net net' : LinkstateNetwork G} {newChildren : List (Zid × List Zid)} :
    Reached net → net.computeTrees = some (net', newChildren) → Reached net'
  | setFullLinkstate {net : LinkstateNetwork G} (enabled : Bool) :
    Reached net → Reached (net.setFullLinkstate enabled)
  | setGossipMultihop {net : LinkstateNetwork G} (enabled : Bool) :
    Reached net → Reached (net.setGossipMultihop enabled)
  | setSelfLocators {net net' : LinkstateNetwork G} {locators : List Bytes} :
    Reached net → net.setSelfLocators locators = some net' → Reached net'
  | getLinkMut {net : LinkstateNetwork G} {id : ℕ} (link : Link) :
    Reached net → id ∈ net.links → Reached { net with links := net.links.insert id link }

theorem Reached.inverse [EdgeArith ω] [HashOrder] [GraphSearch G] (h : Reached net) :
    Inverse net := by
  induction h with
  | fresh hfresh => exact (settled_fresh hfresh).1.index
  | step _ heq ih => exact inverse_step ih heq
  | computeTrees _ heq ih =>
    rw [computeTrees_frame heq]
    exact ih.frame rfl rfl
  | setFullLinkstate _ _ ih => exact ih.frame rfl rfl
  | setGossipMultihop _ _ ih => exact ih.frame rfl rfl
  | setSelfLocators _ heq ih =>
    simp only [LinkstateNetwork.setSelfLocators, Option.bind_eq_bind, Option.bind_eq_some_iff] at heq
    obtain ⟨n, -, heq⟩ := heq
    cases heq
    apply ih.modify
    exact fun _ => rfl
  | getLinkMut _ _ _ ih => exact ih.frame rfl rfl

/-- The sequence number and the links of a node, if it is there, and the number of the entry that last
set the links, or zero. -/
abbrev Standing := Option (UInt64 × Links) × UInt64

def standing (net : LinkstateNetwork G) (zid : Zid) : Standing :=
  (((net.getIdx zid).bind (nodeWeight net.graph)).map fun n => (n.sn, n.links),
    net.linksSn[zid]?.getD 0)

/-- What a state makes of what is kept of its node. -/
def heard (object : NetObject) (ls : LocalLinkState) : Standing → Standing
  | (none, linksAt) => (some (ls.sn, ls.links), if ls.links.isEmpty then linksAt else ls.sn)
  | (some (sn, links), linksAt) =>
    if ls.sn < sn ∨ (sn = ls.sn ∧ ¬(!ls.links.isEmpty ∧ linksAt < ls.sn)) then
      (some (sn, links), linksAt)
    else if !ls.links.isEmpty || object = .gossip then (some (ls.sn, ls.links), ls.sn)
    else (some (ls.sn, links), linksAt)

theorem standing_congr {zid : Zid} (hidx : net'.getIdx zid = net.getIdx zid)
    (hnode : ∀ i, net.getIdx zid = some i → nodeWeight net'.graph i = nodeWeight net.graph i)
    (hlinksSn : net'.linksSn[zid]? = net.linksSn[zid]?) : standing net' zid = standing net zid := by
  rw [standing, standing, hidx, hlinksSn]
  rcases hi : net.getIdx zid with _ | i
  · rfl
  · rw [Option.bind_some, Option.bind_some, hnode i hi]

theorem standing_insertNode (h : Inverse net) {n : Node} {zid : Zid} (hne : n.zid ≠ zid)
    {linksSn : ExtTreeMap Zid UInt64} (hlinksSn : linksSn[zid]? = net.linksSn[zid]?) :
    standing ({ net with linksSn }.insertNode n).1 zid = standing net zid := by
  refine standing_congr ?_ (fun i hi => ?_) hlinksSn
  · rw [getIdx_insertNode, if_neg hne]
    rfl
  · obtain ⟨m, hm, -⟩ := (h zid i).mp hi
    have hm' : nodeWeight ({ net with linksSn } : LinkstateNetwork G).graph i = some m := hm
    rw [nodeWeight_insertNode_of_some hm', hm]

theorem standing_modify (h : Inverse net) {i : ℕ} {n : Node} (hn : nodeWeight net.graph i = some n)
    {zid : Zid} (hne : n.zid ≠ zid) {f : Node → Node} {linksSn : ExtTreeMap Zid UInt64}
    (hlinksSn : linksSn[zid]? = net.linksSn[zid]?) :
    standing { net.modify i f with linksSn } zid = standing net zid := by
  refine standing_congr rfl (fun j hj => ?_) hlinksSn
  obtain ⟨m, hm, hzid⟩ := (h zid j).mp hj
  change nodeWeight (net.modify i f).graph j = _
  rw [nodeWeight_modify, if_neg]
  rintro rfl
  rw [hn] at hm
  cases hm
  exact hne hzid

theorem exists_gossipLinkState (h : Inverse net) (changes : Changes) (ls : LocalLinkState) :
    ∃ net' changes', gossipLinkState (net, changes) ls = some (net', changes') ∧ Inverse net' ∧
      net'.object = net.object ∧ net'.fullLinkstate = net.fullLinkstate ∧
      net'.gossipMultihop = net.gossipMultihop ∧
      standing net' ls.zid = heard net.object ls (standing net ls.zid) ∧
      ∀ zid, ls.zid ≠ zid → standing net' zid = standing net zid := by
  rcases hidx : net.getIdx ls.zid with _ | i
  · set linksSn := if ls.links.isEmpty then net.linksSn else net.linksSn.insert ls.zid ls.sn
      with hlinksSn
    have hresult : gossipLinkState (net, changes) ls =
        some (({ net with linksSn }.insertNode (nodeOf ls)).1,
          { changes with new := changes.new ++ [ls.zid] }) := by
      simp [gossipLinkState, hidx, hlinksSn]
    refine ⟨_, _, hresult, Inverse.gossipLinkState (s := (net, changes)) h hresult, rfl, rfl, rfl, ?_,
      fun zid hne => standing_insertNode h hne (by rw [hlinksSn]; split_ifs <;>
        simp [ExtTreeMap.getElem?_insert, hne])⟩
    have hold : standing net ls.zid = (none, net.linksSn[ls.zid]?.getD 0) := by
      simp [standing, hidx]
    rw [hold, heard, standing, getIdx_insertNode, if_pos (by rfl), Option.bind_some,
      nodeWeight_insertNode, if_pos rfl]
    refine Prod.ext rfl ?_
    change linksSn[ls.zid]?.getD 0 = _
    rw [hlinksSn]
    split_ifs <;> simp
  obtain ⟨n, hn, hzid⟩ := (h ls.zid i).mp hidx
  have hold : standing net ls.zid = (some (n.sn, n.links), net.linksSn[ls.zid]?.getD 0) := by
    simp [standing, hidx, hn]
  have hgate : (ls.sn < n.sn ∨ (n.sn = ls.sn ∧ ¬(n.sn = ls.sn ∧ !ls.links.isEmpty ∧
      net.linksSn[ls.zid]?.getD 0 < ls.sn))) ↔ ls.sn < n.sn ∨
      (n.sn = ls.sn ∧ ¬(!ls.links.isEmpty ∧ net.linksSn[ls.zid]?.getD 0 < ls.sn)) := by
    tauto
  rw [hold]
  by_cases hstale : ls.sn < n.sn ∨
      (n.sn = ls.sn ∧ ¬(!ls.links.isEmpty ∧ net.linksSn[ls.zid]?.getD 0 < ls.sn))
  · refine ⟨net, changes, ?_, h, rfl, rfl, rfl, ?_, fun _ _ => rfl⟩
    · simp only [gossipLinkState, hidx, hn, Option.bind_eq_bind, Option.bind_some, hgate, hstale,
        ↓reduceIte]
    · rw [heard, if_pos hstale, hold]
  set takesLinks : Bool := !ls.links.isEmpty || net.object = .gossip with htakes
  set taken : LinkstateNetwork G :=
    { net.modify i (overhear ls takesLinks) with
      linksSn := if takesLinks then net.linksSn.insert ls.zid ls.sn else net.linksSn } with htaken
  have hresult : ∃ changes', gossipLinkState (net, changes) ls = some (taken, changes') := by
    simp only [gossipLinkState, hidx, hn, Option.bind_eq_bind, Option.bind_some, hgate, hstale,
      ↓reduceIte, ← htakes, ← htaken]
    split_ifs
    · exact ⟨_, rfl⟩
    · exact ⟨_, rfl⟩
  obtain ⟨changes', hresult⟩ := hresult
  refine ⟨taken, changes', hresult, Inverse.gossipLinkState (s := (net, changes)) h hresult, rfl,
    rfl, rfl, ?_, fun zid hne => standing_modify h hn (hzid ▸ hne) (by
      split_ifs <;> simp [ExtTreeMap.getElem?_insert, hne])⟩
  have hnode : nodeWeight taken.graph i = some (overhear ls takesLinks n) := by
    change nodeWeight (net.modify i (overhear ls takesLinks)).graph i = _
    rw [nodeWeight_modify, if_pos rfl, hn, Option.map_some]
  have hidx' : taken.getIdx ls.zid = some i := hidx
  rw [heard, if_neg hstale, standing, hidx', Option.bind_some, hnode]
  change (some (ls.sn, if takesLinks then ls.links else n.links),
    (if takesLinks then net.linksSn.insert ls.zid ls.sn else net.linksSn)[ls.zid]?.getD 0) = _
  rw [← htakes]
  split_ifs <;> simp

theorem exists_gossip_others (states : List LocalLinkState) {zid : Zid} {s : LinkstateNetwork G × Changes}
    (h : Inverse s.1) (hother : ∀ ls ∈ states, ls.zid ≠ zid) :
    ∃ s', states.foldlM gossipLinkState s = some s' ∧ Inverse s'.1 ∧ s'.1.object = s.1.object ∧
      s'.1.fullLinkstate = s.1.fullLinkstate ∧ s'.1.gossipMultihop = s.1.gossipMultihop ∧
      standing s'.1 zid = standing s.1 zid := by
  induction states generalizing s with
  | nil => exact ⟨s, rfl, h, rfl, rfl, rfl, rfl⟩
  | cons ls states ih =>
    obtain ⟨net', changes', heq, hinverse, hobject, hfull, hmultihop, -, hframe⟩ :=
      exists_gossipLinkState h s.2 ls
    obtain ⟨s', hrest, hinverse', hobject', hfull', hmultihop', hframe'⟩ :=
      ih (s := (net', changes')) hinverse fun ls hls => hother ls (by simp [hls])
    refine ⟨s', ?_, hinverse', by rw [hobject', hobject], by rw [hfull', hfull],
      by rw [hmultihop', hmultihop], by rw [hframe', hframe zid (hother ls (by simp))]⟩
    rw [List.foldlM_cons, heq]
    exact hrest

def Says (states : List LocalLinkState) (ls : LocalLinkState) : Prop :=
  ∃ before after, states = before ++ ls :: after ∧ ∀ other ∈ before ++ after, other.zid ≠ ls.zid

theorem exists_ingest_gossip [EdgeArith ω] [HashOrder] (h : Inverse net)
    (hfull : net.fullLinkstate = false) (hmultihop : net.gossipMultihop = false) {srcLinkId : ℕ}
    {list : List LinkstateEntry} {ls : LocalLinkState}
    (hsaid : Says (net.convertToLocalLinkStates srcLinkId list).2 ls) :
    ∃ net' changes, net.ingestLinkstateList srcLinkId list = some (net', changes) ∧ Inverse net' ∧
      net'.object = net.object ∧ net'.fullLinkstate = false ∧ net'.gossipMultihop = false ∧
      standing net' ls.zid = heard net.object ls (standing net ls.zid) := by
  have hframe := convertToLocalLinkStates_frame net srcLinkId list
  obtain ⟨before, after, hlist, hother⟩ := hsaid
  set linked := (net.convertToLocalLinkStates srcLinkId list).1 with hlinked
  have hlinkedInverse : Inverse linked := by
    rw [hframe]
    exact h.frame rfl rfl
  have hstanding : standing linked ls.zid = standing net ls.zid := by
    rw [hframe]
    rfl
  have hobject : linked.object = net.object := by rw [hframe]
  have hfullLinked : linked.fullLinkstate = false := by rw [hframe, hfull]
  have hmultihopLinked : linked.gossipMultihop = false := by rw [hframe, hmultihop]
  obtain ⟨s₁, heq₁, hinverse₁, hobject₁, hfull₁, hmultihop₁, hstanding₁⟩ :=
    exists_gossip_others before (s := (linked, {})) hlinkedInverse
      fun other hmem => hother other (List.mem_append_left _ hmem)
  obtain ⟨net₂, changes₂, heq₂, hinverse₂, hobject₂, hfull₂, hmultihop₂, hheard, -⟩ :=
    exists_gossipLinkState hinverse₁ s₁.2 ls
  obtain ⟨s₃, heq₃, hinverse₃, hobject₃, hfull₃, hmultihop₃, hstanding₃⟩ :=
    exists_gossip_others after (s := (net₂, changes₂)) hinverse₂
      fun other hmem => hother other (List.mem_append_right _ hmem)
  refine ⟨s₃.1, s₃.2, ?_, hinverse₃, by rw [hobject₃, hobject₂, hobject₁, hobject],
    by rw [hfull₃, hfull₂, hfull₁, hfullLinked],
    by rw [hmultihop₃, hmultihop₂, hmultihop₁, hmultihopLinked],
    by rw [hstanding₃, hheard, hobject₁, hobject, hstanding₁, hstanding]⟩
  rw [ingestLinkstateList]
  change linked.processLinkstates (net.convertToLocalLinkStates srcLinkId list).2 = _
  rw [hlist, processLinkstates, hfullLinked, hmultihopLinked]
  change (before ++ ls :: after).foldlM gossipLinkState (linked, {}) = _
  rw [List.foldlM_append, heq₁]
  change (ls :: after).foldlM gossipLinkState s₁ = _
  rw [List.foldlM_cons, heq₂]
  exact heq₃

/-- What single-hop gossip makes of a node whose own entry comes with its links, and of which a
neighbour says the same number without them. -/
theorem heard_both (object : NetObject) {own hearsay : LocalLinkState} (hsn : own.sn = hearsay.sn)
    (hown : own.links.isEmpty = false) (hhearsay : hearsay.links.isEmpty = true) {s : Standing}
    (hold : ∀ sn links, s.1 = some (sn, links) → sn < own.sn) :
    (heard object hearsay (heard object own s)).1 = some (own.sn, own.links) ∧
      ((heard object own (heard object hearsay s)).1 = some (own.sn, own.links) ↔
        (s.2 < own.sn ∧ (s.1 = none ∨ object = .network)) ∨
          (object = .network ∧ ∃ sn, s.1 = some (sn, own.links))) := by
  have hne : hearsay.links ≠ own.links := by
    rintro heq
    rw [heq, hown] at hhearsay
    cases hhearsay
  -- a state without links changes nothing of a node at its own number
  have hignored : ∀ links linksAt, heard object hearsay (some (own.sn, links), linksAt) =
      (some (own.sn, links), linksAt) := by
    intro links linksAt
    rw [heard, if_pos (.inr ⟨hsn, by simp [hhearsay]⟩)]
  -- the node's own entry is taken exactly if its links have not been set at this number
  have hcompletes : ∀ links linksAt, (heard object own (some (own.sn, links), linksAt)).1 =
      some (own.sn, if linksAt < own.sn then own.links else links) := by
    intro links linksAt
    by_cases hat : linksAt < own.sn <;> simp [heard, hown, hat]
  obtain ⟨_ | ⟨sn, links⟩, linksAt⟩ := s
  · have hfirst : heard object hearsay (none, linksAt) = (some (own.sn, hearsay.links), linksAt) := by
      simp [heard, hhearsay, hsn]
    have hown' : heard object own (none, linksAt) = (some (own.sn, own.links), own.sn) := by
      simp [heard, hown]
    rw [hfirst, hcompletes, hown', hignored]
    refine ⟨rfl, ?_⟩
    split_ifs with hat <;> simp [hat, hne]
  have hlt : sn < own.sn := hold sn links rfl
  have hnewer : ∀ ls : LocalLinkState, ls.sn = own.sn →
      ¬(ls.sn < sn ∨ (sn = ls.sn ∧ ¬(!ls.links.isEmpty ∧ linksAt < ls.sn))) := by
    rintro ls hls (h | ⟨h, -⟩)
    · exact UInt64.lt_asymm hlt (hls ▸ h)
    · exact UInt64.lt_irrefl _ (hls ▸ h ▸ hlt)
  have hown' : heard object own (some (sn, links), linksAt) = (some (own.sn, own.links), own.sn) := by
    rw [heard, if_neg (hnewer own rfl), if_pos (by simp [hown])]
  refine ⟨by rw [hown', hignored], ?_⟩
  cases object with
  | network =>
    have hfirst : heard .network hearsay (some (sn, links), linksAt) =
        (some (own.sn, links), linksAt) := by
      rw [heard, if_neg (hnewer hearsay hsn.symm), if_neg (by simp [hhearsay]), hsn]
    rw [hfirst, hcompletes]
    split_ifs with hat <;> simp [hat]
  | gossip =>
    have hfirst : heard .gossip hearsay (some (sn, links), linksAt) =
        (some (own.sn, hearsay.links), own.sn) := by
      rw [heard, if_neg (hnewer hearsay hsn.symm), if_pos (by simp), hsn]
    rw [hfirst, hcompletes, if_neg (UInt64.lt_irrefl _)]
    simp [hne]

/-- A node stands in the graph with the number and the links of its own state. -/
def Holds (net : LinkstateNetwork G) (own : LocalLinkState) : Prop :=
  ∃ i n, net.getIdx own.zid = some i ∧ nodeWeight net.graph i = some n ∧ n.sn = own.sn ∧
    n.links = own.links

theorem holds_iff_standing {own : LocalLinkState} :
    Holds net own ↔ (standing net own.zid).1 = some (own.sn, own.links) := by
  simp [Holds, standing, Option.bind_eq_some_iff]

variable [EdgeArith ω] [HashOrder] [GraphSearch G]

/-- Of a node's own state and of what another says of it, each comes with the number of the other.
Both are ingested in both orders, and the node stands there with its links exactly if the number of
the entry that set its links was lower and what is said cannot count as setting them, or if it had
these links before. -/
theorem gossip_commutes (h : Reached net) (hfull : net.fullLinkstate = false)
    (hmultihop : net.gossipMultihop = false) {own hearsay : LocalLinkState}
    (hzid : hearsay.zid = own.zid) (hsn : own.sn = hearsay.sn) (hown : own.links.isEmpty = false)
    (hhearsay : hearsay.links.isEmpty = true)
    (hold : ∀ i n, net.getIdx own.zid = some i → nodeWeight net.graph i = some n → n.sn < own.sn)
    {ownLink otherLink : ℕ} {ownList otherList : List LinkstateEntry}
    (hownFirst : Says (net.convertToLocalLinkStates ownLink ownList).2 own)
    (hotherSecond : ∀ net₁ changes, net.ingestLinkstateList ownLink ownList = some (net₁, changes) →
      Says (net₁.convertToLocalLinkStates otherLink otherList).2 hearsay)
    (hotherFirst : Says (net.convertToLocalLinkStates otherLink otherList).2 hearsay)
    (hownSecond : ∀ net₁ changes, net.ingestLinkstateList otherLink otherList = some (net₁, changes) →
      Says (net₁.convertToLocalLinkStates ownLink ownList).2 own) :
    ((∃ net₁ net₂ changes₁ changes₂,
        net.ingestLinkstateList ownLink ownList = some (net₁, changes₁) ∧
        net₁.ingestLinkstateList otherLink otherList = some (net₂, changes₂) ∧ Holds net₂ own) ∧
      ∃ net₁ net₂ changes₁ changes₂,
        net.ingestLinkstateList otherLink otherList = some (net₁, changes₁) ∧
        net₁.ingestLinkstateList ownLink ownList = some (net₂, changes₂) ∧ Holds net₂ own) ↔
      (net.linksSn[own.zid]?.getD 0 < own.sn ∧
          (net.getIdx own.zid = none ∨ net.object = .network)) ∨
        (net.object = .network ∧ ∃ i n, net.getIdx own.zid = some i ∧
          nodeWeight net.graph i = some n ∧ n.links = own.links) := by
  have hinverse := h.inverse
  obtain ⟨a, aChanges, ha, haInverse, haObject, haFull, haMultihop, haHeard⟩ :=
    exists_ingest_gossip hinverse hfull hmultihop hownFirst
  obtain ⟨ab, abChanges, hab, -, -, -, -, habHeard⟩ :=
    exists_ingest_gossip haInverse haFull haMultihop (hotherSecond a aChanges ha)
  obtain ⟨b, bChanges, hb, hbInverse, hbObject, hbFull, hbMultihop, hbHeard⟩ :=
    exists_ingest_gossip hinverse hfull hmultihop hotherFirst
  obtain ⟨ba, baChanges, hba, -, -, -, -, hbaHeard⟩ :=
    exists_ingest_gossip hbInverse hbFull hbMultihop (hownSecond b bChanges hb)
  rw [hzid] at habHeard hbHeard
  rw [haHeard, haObject] at habHeard
  rw [hbHeard, hbObject] at hbaHeard
  have holdStanding : ∀ sn links, (standing net own.zid).1 = some (sn, links) → sn < own.sn := by
    intro sn links hstanding
    simp only [standing, Option.map_eq_some_iff, Option.bind_eq_some_iff] at hstanding
    obtain ⟨n, ⟨i, hi, hn⟩, heq⟩ := hstanding
    cases heq
    exact hold i n hi hn
  obtain ⟨hfirst, hsecond⟩ := heard_both net.object hsn hown hhearsay holdStanding
  rw [← habHeard] at hfirst
  rw [← hbaHeard] at hsecond
  have habsent : (standing net own.zid).1 = none ↔ net.getIdx own.zid = none := by
    rcases hi : net.getIdx own.zid with _ | i
    · simp [standing, hi]
    · obtain ⟨n, hn, -⟩ := (hinverse own.zid i).mp hi
      simp [standing, hi, hn]
  have hsame : (∃ sn, (standing net own.zid).1 = some (sn, own.links)) ↔
      ∃ i n, net.getIdx own.zid = some i ∧ nodeWeight net.graph i = some n ∧ n.links = own.links := by
    simp [standing, Option.bind_eq_some_iff]
  rw [habsent, hsame] at hsecond
  refine Iff.trans ⟨fun hboth => ?_, fun hholds => ?_⟩ hsecond
  · obtain ⟨-, net₁, net₂, changes₁, changes₂, hnet₁, hnet₂, hholds⟩ := hboth
    obtain ⟨rfl, rfl⟩ := Prod.mk.inj (Option.some_inj.mp (hb.symm.trans hnet₁))
    obtain ⟨rfl, rfl⟩ := Prod.mk.inj (Option.some_inj.mp (hba.symm.trans hnet₂))
    exact holds_iff_standing.mp hholds
  · exact ⟨⟨a, ab, aChanges, abChanges, ha, hab, holds_iff_standing.mpr hfirst⟩,
      b, ba, bChanges, baChanges, hb, hba, holds_iff_standing.mpr hholds⟩

theorem reached_run (h : Reached net) {calls : List Call} {answers : List Answer}
    (hrun : Steps.run step net calls = some (net', answers)) : Reached net' :=
  Steps.run_preserves (fun _ _ _ _ hs heq => hs.step heq) h hrun

deriving instance DecidableEq for LocalLinkState

abbrev ownOfB : LocalLinkState := ⟨1, zidB, .peer, (∅ : Links).insert zidC {}, none, false⟩
abbrev hearsayOfB : LocalLinkState := ⟨1, zidB, .peer, ∅, none, false⟩
abbrev hearsayOfC : LocalLinkState := ⟨0, zidC, .peer, ∅, none, false⟩

abbrev listOfB : List LinkstateEntry := [entryOf 0 zidB 1 [1], entryOf 1 zidC 0 []]
abbrev listOfC : List LinkstateEntry := [entryOf 5 zidB 1 []]

abbrev linkBoth : List Call := [.addLinkBound zidB .peer false, .addLinkBound zidC .peer false]

omit [HashOrder] in
theorem says_ownOfB : Says [ownOfB, hearsayOfC] ownOfB :=
  ⟨[], [hearsayOfC], rfl, by decide +kernel⟩

omit [HashOrder] in
theorem says_hearsayOfB : Says [hearsayOfB] hearsayOfB := ⟨[], [], rfl, by simp⟩

omit [StableUnGraph G Node ω] [EdgeArith ω] [HashOrder] [GraphSearch G] in
/-- In a region's network a neighbour that is not known yet is heard of before and after its own
entry. -/
theorem gossip_commutes_absent :
    letI := sortedOrder
    letI := plainArith
    let start : LinkstateNetwork (UnGraph Node ℕ) :=
      (LinkstateNetwork.newInRegion zidA .peer false).setFullLinkstate false
    ∃ net answers, Steps.run step start linkBoth = some (net, answers) ∧
      (∃ net₁ net₂ changes₁ changes₂, net.ingestLinkstateList 0 listOfB = some (net₁, changes₁) ∧
        net₁.ingestLinkstateList 1 listOfC = some (net₂, changes₂) ∧ Holds net₂ ownOfB) ∧
      ∃ net₁ net₂ changes₁ changes₂, net.ingestLinkstateList 1 listOfC = some (net₁, changes₁) ∧
        net₁.ingestLinkstateList 0 listOfB = some (net₂, changes₂) ∧ Holds net₂ ownOfB := by
  let _ := sortedOrder
  let _ := plainArith
  intro start
  have hrun : (Steps.run step start linkBoth).any (fun r =>
      !r.1.fullLinkstate && !r.1.gossipMultihop && (r.1.getIdx zidB).isNone &&
      decide (r.1.linksSn[zidB]?.getD 0 < 1) &&
      decide ((r.1.convertToLocalLinkStates 0 listOfB).2 = [ownOfB, hearsayOfC]) &&
      ((r.1.ingestLinkstateList 0 listOfB).all fun r =>
        (r.1.convertToLocalLinkStates 1 listOfC).2 = [hearsayOfB]) &&
      decide ((r.1.convertToLocalLinkStates 1 listOfC).2 = [hearsayOfB]) &&
      ((r.1.ingestLinkstateList 1 listOfC).all fun r =>
        (r.1.convertToLocalLinkStates 0 listOfB).2 = [ownOfB, hearsayOfC])) = true := by
    decide +kernel
  obtain ⟨⟨net, answers⟩, heq, hfacts⟩ := (Option.any_eq_true _ _).mp hrun
  simp only [Bool.and_eq_true, Bool.not_eq_true', Option.isNone_iff_eq_none, decide_eq_true_eq] at hfacts
  obtain ⟨⟨⟨⟨⟨⟨⟨hfull, hmultihop⟩, habsent⟩, hlinksSn⟩, hown⟩, hother⟩, hother'⟩, hown'⟩ := hfacts
  have hreached : Reached net :=
    reached_run (.setFullLinkstate false (.fresh (.newInRegion .peer false))) heq
  have hzid : hearsayOfB.zid = ownOfB.zid := rfl
  have hsn : ownOfB.sn = hearsayOfB.sn := rfl
  refine ⟨net, answers, heq, (gossip_commutes hreached hfull hmultihop hzid hsn
    (by decide +kernel) (by decide +kernel) (fun i n hi => ?_) (hown ▸ says_ownOfB)
    (fun net₁ changes h₁ => ?_) (hother' ▸ says_hearsayOfB) (fun net₁ changes h₁ => ?_)).mpr (.inl ⟨hlinksSn, .inl habsent⟩)⟩
  · rw [show net.getIdx zidB = none from habsent] at hi
    cases hi
  · rw [h₁, Option.all_some, decide_eq_true_eq] at hother
    exact hother ▸ says_hearsayOfB
  · rw [h₁, Option.all_some, decide_eq_true_eq] at hown'
    exact hown' ▸ says_ownOfB

/-- In single-hop gossip C's list about B is ingested before B's own of the same number, and B does not
stand in the graph with the links it has told. -/
def PassedOver (start : LinkstateNetwork G) (calls : List Call) (ownLink : ℕ) : Prop :=
  ∃ net answers net₁ net₂ changes₁ changes₂,
    Steps.run step start calls = some (net, answers) ∧ Reached net ∧
    net.fullLinkstate = false ∧ net.gossipMultihop = false ∧
    (∀ i n, net.getIdx zidB = some i → nodeWeight net.graph i = some n → n.sn < ownOfB.sn) ∧
    Says (net.convertToLocalLinkStates 1 listOfC).2 hearsayOfB ∧
    net.ingestLinkstateList 1 listOfC = some (net₁, changes₁) ∧
    Says (net₁.convertToLocalLinkStates ownLink listOfB).2 ownOfB ∧
    net₁.ingestLinkstateList ownLink listOfB = some (net₂, changes₂) ∧ ¬Holds net₂ ownOfB

theorem passedOver_of_run {start : LinkstateNetwork G} {calls : List Call} {ownLink : ℕ}
    (h : Reached start)
    (hrun : (Steps.run step start calls).any (fun r =>
      !r.1.fullLinkstate && !r.1.gossipMultihop &&
      (((r.1.getIdx zidB).bind (nodeWeight r.1.graph)).all fun n => n.sn < 1) &&
      decide ((r.1.convertToLocalLinkStates 1 listOfC).2 = [hearsayOfB]) &&
      ((r.1.ingestLinkstateList 1 listOfC).any fun r =>
        decide ((r.1.convertToLocalLinkStates ownLink listOfB).2 = [ownOfB, hearsayOfC]) &&
        ((r.1.ingestLinkstateList ownLink listOfB).any fun r =>
          ((r.1.getIdx zidB).bind (nodeWeight r.1.graph)).all fun n => n.links.isEmpty))) = true) :
    PassedOver start calls ownLink := by
  obtain ⟨⟨net, answers⟩, heq, hfacts⟩ := (Option.any_eq_true _ _).mp hrun
  simp only [Bool.and_eq_true, Bool.not_eq_true', decide_eq_true_eq] at hfacts
  obtain ⟨⟨⟨⟨hfull, hmultihop⟩, hold⟩, hother⟩, hrest⟩ := hfacts
  obtain ⟨⟨net₁, changes₁⟩, h₁, hfacts⟩ := (Option.any_eq_true _ _).mp hrest
  simp only [Bool.and_eq_true, decide_eq_true_eq] at hfacts
  obtain ⟨hown, hlast⟩ := hfacts
  obtain ⟨⟨net₂, changes₂⟩, h₂, hempty⟩ := (Option.any_eq_true _ _).mp hlast
  refine ⟨net, answers, net₁, net₂, changes₁, changes₂, heq, reached_run h heq, hfull, hmultihop,
    fun i n hi hn => ?_, hother ▸ says_hearsayOfB, h₁, hown ▸ says_ownOfB, h₂, ?_⟩
  · rw [hi, Option.bind_some, hn, Option.all_some, decide_eq_true_eq] at hold
    exact hold
  · rintro ⟨i, n, hi, hn, -, hlinks⟩
    rw [show net₂.getIdx zidB = some i from hi, Option.bind_some, hn, Option.all_some, hlinks] at hempty
    exact absurd hempty (by decide +kernel)

/-- B tells its links and goes, and a new link to it comes. -/
abbrev comeBack : List Call :=
  [.ingestLinkstateList 0 listOfB, .removeLink 0, .addLinkBound zidB .peer false]

omit [StableUnGraph G Node ω] [EdgeArith ω] [HashOrder] [GraphSearch G] in
/-- In a peer's own graph what a neighbour says of another wipes its links and counts as setting them:
its own entry of the same number is passed over. In a region's network the row of a node that went
stays, and its own entry of that number is passed over when it is heard of again. -/
theorem gossip_commutes_wiped :
    letI := sortedOrder
    letI := plainArith
    let start : LinkstateNetwork (UnGraph Node ℕ) :=
      (LinkstateNetwork.new zidA .peer).setFullLinkstate false
    let region : LinkstateNetwork (UnGraph Node ℕ) :=
      (LinkstateNetwork.newInRegion zidA .peer false).setFullLinkstate false
    PassedOver start linkBoth 0 ∧ PassedOver region (linkBoth ++ comeBack) 2 := by
  let _ := sortedOrder
  let _ := plainArith
  intro start region
  exact ⟨passedOver_of_run (.setFullLinkstate false (.fresh (.new .peer))) (by decide +kernel),
    passedOver_of_run (.setFullLinkstate false (.fresh (.newInRegion .peer false)))
      (by decide +kernel)⟩

end WatchingZenoh.NetworkGraph
