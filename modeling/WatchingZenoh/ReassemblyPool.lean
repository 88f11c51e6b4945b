import WatchingZenoh.ReassemblyHistory
import WatchingZenoh.ReassemblyStep

/-! The accounts of the pool: machines, keys and staging agree slot by slot, the arena counts what the
slots hold, and no peer has more chains than its quota. -/

namespace WatchingZenoh.ReassemblyPool

open FrameEncode ReassemblySlot ReassemblyDispatch ReassemblyDispatcher ReassemblyChain
open ReassemblyRefine ReassemblyStep ReassemblyHistory KeyedSlots

variable {slotCount cap : ℕ} {d d' : ReassemblyDispatcher slotCount cap}

def heldKeys (d : ReassemblyDispatcher slotCount cap) : List ChainKey := d.slots.filterMap Slot.key

theorem mem_heldKeys (h : Inv d) {k : ChainKey} : k ∈ heldKeys d ↔ (chainOf d k).isSome = true := by
  constructor
  · intro hk
    obtain ⟨slot, hslot, hkey⟩ := List.mem_filterMap.mp hk
    rcases hchain : chainOf d k with _ | chain
    · have hnone := holder_eq_none_iff.mp (holder_of_chainOf h hchain)
      exact absurd hkey (hnone slot hslot)
    · rfl
  · intro hk
    obtain ⟨slot, hholder, _⟩ := Option.bind_eq_some_iff.mp (Option.eq_some_of_isSome hk)
    obtain ⟨hslot, hkey⟩ := (holder_eq_some_iff h.distinct).mp hholder
    exact List.mem_filterMap.mpr ⟨slot, hslot, hkey⟩

def peerChains (d : ReassemblyDispatcher slotCount cap) (peerKey : Bytes) : ℕ :=
  d.slots.countP fun s => s.key.any (·.samePeer peerKey)

theorem peerChains_eq (peerKey : Bytes) :
    peerChains d peerKey = (heldKeys d).countP (·.samePeer peerKey) :=
  (countP_filterMap_key _ _).symm

theorem peerChains_le (h : Inv d) (h' : Inv d')
    (hchains : ∀ k, (chainOf d' k).isSome = true → (chainOf d k).isSome = true) (peerKey : Bytes) :
    peerChains d' peerKey ≤ peerChains d peerKey := by
  rw [peerChains_eq, peerChains_eq]
  refine List.Subperm.countP_le _ (List.subperm_of_subset h'.distinct.nodup fun k hk => ?_)
  exact (mem_heldKeys h).mpr (hchains k ((mem_heldKeys h').mp hk))

theorem peerChains_le_succ (h : Inv d) {k : ChainKey} {chain : Option OpenChain}
    (hmove : Moves d d' k chain) (peerKey : Bytes) :
    peerChains d' peerKey ≤ peerChains d peerKey + if k.samePeer peerKey then 1 else 0 := by
  rw [peerChains_eq, peerChains_eq, ← List.countP_cons]
  refine List.Subperm.countP_le _ (List.subperm_of_subset hmove.inv.distinct.nodup fun k' hk' => ?_)
  by_cases hk : k' = k
  · exact hk ▸ List.mem_cons_self ..
  · refine List.mem_cons_of_mem _ ((mem_heldKeys h).mpr ?_)
    rw [← hmove.elsewhere k' hk]
    exact (mem_heldKeys hmove.inv).mp hk'

structure Balanced (quota : UInt16) (d : ReassemblyDispatcher slotCount cap) : Prop where
  inv : Inv d
  quota_eq : d.config.perPeerQuota = quota
  within : ∀ peerKey, peerChains d peerKey ≤ quota.toNat

theorem balanced_new (config : ReassemblyConfig) :
    Balanced config.perPeerQuota (new config : ReassemblyDispatcher slotCount cap) :=
  ⟨inv_new config, rfl, fun _ => by simp [peerChains, new, List.countP_replicate, Slot.new]⟩

theorem samePeer_key (frag : Fragment) (peerKey : Bytes) :
    frag.key.samePeer peerKey = true ↔ frag.peerKey.take peerKeyMax = peerKey.take peerKeyMax := by
  simp [ChainKey.samePeer, Fragment.key, ChainKey.new]

/-- A chain starts where the peer has room, so the quota holds; below it the cut to 16 bits does
nothing. -/
theorem within_ingest {quota : UInt16} (h : Balanced quota d) {frag : Fragment}
    {chain : Option OpenChain} (hmove : Moves d d' frag.key chain)
    (hroom : chainOf d frag.key = none → hasRoom d frag.peerKey = true) (peerKey : Bytes) :
    peerChains d' peerKey ≤ quota.toNat := by
  rcases hold : chainOf d frag.key with _ | old
  · have hle := peerChains_le_succ h.inv hmove peerKey
    by_cases hsame : frag.key.samePeer peerKey = true
    · have hcount : d.peerChainCount frag.peerKey = peerChains d peerKey % 2 ^ 16 := by
        unfold peerChainCount peerChains ChainKey.samePeer
        rw [(samePeer_key frag peerKey).mp hsame]
      have hlt := hroom hold
      simp only [hasRoom, Bool.and_eq_true, decide_eq_true_eq, hcount, h.quota_eq] at hlt
      have hwithin := h.within peerKey
      have hword : quota.toNat < 2 ^ 16 := quota.toNat_lt
      simp only [hsame, if_true] at hle
      omega
    · simp only [hsame, Bool.false_eq_true, if_false] at hle
      exact hle.trans (h.within peerKey)
  · refine (peerChains_le h.inv hmove.inv (fun k hk => ?_) peerKey).trans (h.within peerKey)
    by_cases hkey : k = frag.key
    · simp [hkey, hold]
    · rwa [← hmove.elsewhere k hkey]

theorem balanced_call {quota : UInt16} (h : Balanced quota d) (c : Call) :
    ∃ d' delivered, call d c = some (d', delivered) ∧ Balanced quota d' := by
  obtain ⟨d', delivered, hcall, heffect⟩ := call_effect h.inv c
  have hinv := inv_of_effect heffect
  have hfewer : (∀ k, (chainOf d' k).isSome = true → (chainOf d k).isSome = true) →
      ∀ peerKey, peerChains d' peerKey ≤ quota.toNat := fun hchains peerKey =>
    (peerChains_le h.inv hinv hchains peerKey).trans (h.within peerKey)
  refine ⟨d', delivered, hcall, hinv, ?_, ?_⟩
  · cases c with
    | ingest frag ring nowMs lend =>
      obtain ⟨_, hmove, _⟩ := heffect
      rw [hmove.config, h.quota_eq]
    | abortChannel peerKey priority reliable => rw [heffect.1.config, h.quota_eq]
    | sweep nowMs => rw [heffect.2.1, h.quota_eq]
    | setFragmentationMarkers on => rw [heffect.2.1, ← h.quota_eq]
    | setMaxMessageBytes bytes => rw [heffect.2.1, ← h.quota_eq]
  · cases c with
    | ingest frag ring nowMs lend =>
      obtain ⟨room, hmove, _, hroom⟩ := heffect
      rcases absorbed_absorb d.config.fragmentationMarkers d.maxMessageBytes (deadlineAt d nowMs)
        ring room (chainOf d frag.key) frag with hnone | ⟨_, _, _, hjoins, _⟩
      · rw [hnone] at hmove
        refine hfewer fun k hk => ?_
        by_cases hkey : k = frag.key
        · simp [hkey, hmove.here] at hk
        · rwa [← hmove.elsewhere k hkey]
      · refine within_ingest h hmove fun hold => ?_
        rw [← hroom hold]
        rcases hjoins with ⟨_, hstart, _⟩ | ⟨old, hsome, _⟩
        · exact hstart hold
        · simp [hold] at hsome
    | abortChannel peerKey priority reliable =>
      refine hfewer fun k hk => ?_
      by_cases hkey : k = .new peerKey reliable priority
      · simp [hkey, heffect.1.here] at hk
      · rwa [← heffect.1.elsewhere k hkey]
    | sweep nowMs =>
      refine hfewer fun k hk => ?_
      rw [heffect.2.2.2] at hk
      exact Option.isSome_of_isSome_filter _ _ hk
    | setFragmentationMarkers on => exact hfewer fun k hk => heffect.2.2.2 k ▸ hk
    | setMaxMessageBytes bytes => exact hfewer fun k hk => heffect.2.2.2 k ▸ hk

theorem activeChains_add_available (h : Inv d) : d.activeChains + d.stagingAvailable = slotCount := by
  have hactive : d.activeChains = d.slots.countP fun slot => slot.chain.isSome := by
    refine List.countP_congr fun slot hslot => ?_
    rw [chain_of_settled (h.settled slot hslot), Slot.isFree, Option.not_isNone]
  have hle : d.slots.countP (fun slot => slot.chain.isSome) ≤ d.slots.length :=
    List.countP_le_length
  rw [h.size] at hle
  rw [hactive, stagingAvailable, HeapStaging.available, h.counted]
  omega

theorem pool_accounts (config : ReassemblyConfig) (calls : List Call) :
    ∃ d messages, run (new config : ReassemblyDispatcher slotCount cap) calls = some (d, messages) ∧
      (∀ slot ∈ d.slots, (slot.key.isSome = true ↔ slot.engine = .receiving) ∧
        (slot.key.isSome = true ↔ slot.chain.isSome = true)) ∧
      d.activeChains + d.stagingAvailable = slotCount ∧
      (∀ (i j : ℕ) (a b : Slot) (k : ChainKey), d.slots[i]? = some a → d.slots[j]? = some b →
        a.key = some k → b.key = some k → i = j) ∧
      ∀ peerKey, (d.slots.countP fun slot => slot.key.any (·.samePeer peerKey)) ≤
        config.perPeerQuota.toNat := by
  obtain ⟨d, messages, hrun, h⟩ := @Steps.run_keeps (ReassemblyDispatcher slotCount cap) _ _ call
    (fun _ d => Balanced config.perPeerQuota d) (fun _ _ c h => balanced_call h c) calls [] _
    (balanced_new config)
  refine ⟨d, messages, hrun, fun slot hslot => ?_, activeChains_add_available h.inv, h.inv.distinct,
    h.within⟩
  rcases settled_cases (h.inv.settled slot hslot) with ⟨hengine, hkey, hchain⟩ |
    ⟨key, chain, hengine, hkey, hchain⟩
  · simp [hengine, hkey, hchain]
  · simp [hengine, hkey, hchain]

end WatchingZenoh.ReassemblyPool
