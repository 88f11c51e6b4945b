import WatchingZenoh.Library.KeyedSlots
import WatchingZenoh.ReassemblyDispatch

/-! What the router is for, key by key: each key has at most one open chain, and a fragment of the key
begins, extends, completes or ends it. Slots, machines and the arena are not seen from here; that the
router does exactly this, and nothing to the chains of other keys, is the refinement. -/

namespace WatchingZenoh.ReassemblyChain

open FrameEncode ReassemblySlot ReassemblyDispatch KeyedSlots

structure OpenChain where
  lastSn : UInt64
  deadlineMs : ℕ
  bytes : Bytes
  deriving DecidableEq

/-- A fragment on a key without an open chain; `room` says that the quota and the pool let one
start. -/
def beginChain (bound deadlineMs : ℕ) (room : Bool) (frag : Fragment) :
    Option OpenChain × Option Bytes :=
  if !room || decide (bound < frag.payload.length) then (none, none)
  else if frag.more = 0 then (none, some frag.payload)
  else (some ⟨frag.sn, deadlineMs, frag.payload⟩, none)

def extendChain (bound : ℕ) (ring : SnRing) (chain : OpenChain) (frag : Fragment) :
    Option OpenChain × Option Bytes :=
  match ring.admits chain.lastSn frag.sn with
  | .error _ => (none, none)
  | .ok () =>
    if bound < chain.bytes.length + frag.payload.length then (none, none)
    else if frag.more = 0 then (none, some (chain.bytes ++ frag.payload))
    else (some ⟨frag.sn, chain.deadlineMs, chain.bytes ++ frag.payload⟩, none)

/-- The chain of the key behind a fragment, and what is delivered. -/
def absorb (markers : Bool) (bound deadlineMs : ℕ) (ring : SnRing) (room : Bool)
    (chain : Option OpenChain) (frag : Fragment) : Option OpenChain × Option Bytes :=
  match markers && frag.markers.first, chain with
  | true, _ => beginChain bound deadlineMs room frag
  | false, none => if markers then (none, none) else beginChain bound deadlineMs room frag
  | false, some chain =>
    if markers && frag.markers.dropped then (none, none) else extendChain bound ring chain frag

def opened (slot : Slot) : Option OpenChain :=
  slot.chain.map fun chain => ⟨slot.lastSn, slot.deadlineMs, chain.buf⟩

section Router

variable {slotCount cap : ℕ}

def chainOf (d : ReassemblyDispatcher slotCount cap) (k : ChainKey) : Option OpenChain :=
  (holder Slot.key k d.slots).bind opened

structure Inv (d : ReassemblyDispatcher slotCount cap) : Prop where
  size : d.slots.length = slotCount
  settled : ∀ slot ∈ d.slots, Settled slot
  distinct : Distinct Slot.key d.slots
  counted : d.staging.outstanding = d.slots.countP fun slot => slot.chain.isSome

theorem inv_new (config : ReassemblyConfig) :
    Inv (ReassemblyDispatcher.new config : ReassemblyDispatcher slotCount cap) where
  size := by simp [ReassemblyDispatcher.new]
  settled slot h := by
    rw [List.eq_of_mem_replicate h]
    exact settled_new
  distinct := distinct_replicate rfl slotCount
  counted := by simp [ReassemblyDispatcher.new, List.countP_replicate, Slot.new]

/-- A call that touches the chain of one key: it is `chain` afterwards, and the rest is as before. -/
structure Moves (d d' : ReassemblyDispatcher slotCount cap) (k : ChainKey)
    (chain : Option OpenChain) : Prop where
  inv : Inv d'
  config : d'.config = d.config
  here : chainOf d' k = chain
  elsewhere : ∀ k', k' ≠ k → chainOf d' k' = chainOf d k'

variable {d : ReassemblyDispatcher slotCount cap}

theorem Moves.trans {d' d'' : ReassemblyDispatcher slotCount cap} {k : ChainKey}
    {chain chain' : Option OpenChain} (h : Moves d d' k chain) (h' : Moves d' d'' k chain') :
    Moves d d'' k chain' where
  inv := h'.inv
  config := h'.config.trans h.config
  here := h'.here
  elsewhere k' hk := (h'.elsewhere k' hk).trans (h.elsewhere k' hk)

theorem moves_refl (h : Inv d) (k : ChainKey) : Moves d d k (chainOf d k) :=
  ⟨h, rfl, rfl, fun _ _ => rfl⟩

theorem moves_noteCapacityOverflow (h : Inv d) (k : ChainKey) :
    Moves d d.noteCapacityOverflow k (chainOf d k) :=
  ⟨⟨h.size, h.settled, h.distinct, h.counted⟩, rfl, rfl, fun _ _ => rfl⟩

section Write

variable {idx : ℕ} {old : Slot} {k : ChainKey}

theorem moves_set (h : Inv d) (hold : d.slots[idx]? = some old) {new : Slot} (hnew : Settled new)
    (staging : HeapStaging)
    (hcount : staging.outstanding + (if old.chain.isSome then 1 else 0) =
      d.staging.outstanding + if new.chain.isSome then 1 else 0)
    (hkey : old.key = some k ∨ old.key = none ∧ holder Slot.key k d.slots = none)
    (hkey' : new.key = some k ∨ new.key = none) :
    Moves d { d with slots := d.slots.set idx new, staging } k
      (if new.key = some k then opened new else none) := by
  have hfree : ∀ k', new.key = some k' →
      old.key = some k' ∨ ∀ s ∈ d.slots, s.key ≠ some k' := by
    intro k' hk'
    obtain rfl : k = k' := by
      rcases hkey' with h | h <;> simp_all
    rcases hkey with hk | ⟨_, hnone⟩
    · exact .inl hk
    · exact .inr (holder_eq_none_iff.mp hnone)
  have hdistinct := h.distinct.set hold hfree
  refine ⟨⟨?_, ?_, hdistinct, ?_⟩, rfl, ?_, ?_⟩
  · simp [h.size]
  · intro s hs
    rcases (mem_set_iff hold).mp hs with rfl | ⟨j, _, hj⟩
    · exact hnew
    · exact h.settled s (List.mem_of_getElem? hj)
  · have hset := countP_set_add (fun s : Slot => s.chain.isSome) hold new
    have hcounted := h.counted
    simp only at hset ⊢
    omega
  · unfold chainOf
    by_cases hk : new.key = some k
    · rw [if_pos hk, holder_set_self hdistinct hold hk]
      rfl
    · rw [if_neg hk]
      rcases hkey with hk' | ⟨hk', hnone⟩
      · rw [holder_set_cleared h.distinct hold hk' hk]
        rfl
      · rw [holder_set_other h.distinct hdistinct hold (by simp [hk']) hk, hnone]
        rfl
  · intro k' hk'
    unfold chainOf
    rw [holder_set_other h.distinct hdistinct hold]
    · rcases hkey with h | ⟨h, _⟩ <;> simp [h, Ne.symm hk']
    · rcases hkey' with h | h <;> simp [h, Ne.symm hk']

theorem chain_of_settled {slot : Slot} (h : Settled slot) : slot.chain.isSome = slot.key.isSome := by
  cases h <;> rfl

theorem moves_free (h : Inv d) (hold : d.slots[idx]? = some old) (hk : old.key = some k) :
    Moves d { d with slots := d.slots.set idx Slot.new, staging := d.staging.release } k none := by
  have hmem := List.mem_of_getElem? hold
  have hchain : old.chain.isSome = true := by
    rw [chain_of_settled (h.settled old hmem), hk]
    rfl
  have hpos : 0 < d.staging.outstanding := by
    rw [h.counted]
    exact List.countP_pos_iff.mpr ⟨old, hmem, hchain⟩
  have hmove := moves_set h hold settled_new d.staging.release
    (by simp [hchain, Slot.new, HeapStaging.release]; omega) (.inl hk) (.inr rfl)
  simpa [Slot.new] using hmove

end Write

end Router

end WatchingZenoh.ReassemblyChain
