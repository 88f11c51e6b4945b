import WatchingZenoh.ReassemblyHistory
import WatchingZenoh.ReassemblyStep

/-! Messages are not spliced: an open chain is the end of its key's history, and so is every message
that is delivered. A call of another key leaves the chain as it is. -/

namespace WatchingZenoh.ReassemblySplice

open FrameEncode ReassemblySlot ReassemblyDispatch ReassemblyDispatcher ReassemblyChain
open ReassemblyRefine ReassemblyStep ReassemblyHistory KeyedSlots

section Told

variable {slotCount cap : ℕ} {d d' : ReassemblyDispatcher slotCount cap} {history : List Arrival}

/-- Every open chain is what its key last heard. -/
def Told (history : List Arrival) (d : ReassemblyDispatcher slotCount cap) : Prop :=
  ∀ k chain, chainOf d k = some chain →
    ∃ earlier run, onKey k history = earlier ++ run ∧ OpenRun run chain

theorem spells_of_joins (h : Told history d) {frag : Fragment} {ring : SnRing} {markers room : Bool}
    {bytes : Bytes} (hjoins : Joins markers ring room (chainOf d frag.key) frag bytes) :
    ∃ earlier init, onKey frag.key (history ++ [⟨frag, ring, markers⟩]) =
        earlier ++ (init ++ [⟨frag, ring, markers⟩]) ∧
      Spells (init ++ [⟨frag, ring, markers⟩]) bytes ∧ ∀ a ∈ init, a.frag.more ≠ 0 := by
  have hhere : onKey frag.key [⟨frag, ring, markers⟩] = [⟨frag, ring, markers⟩] := by simp [onKey]
  rw [onKey_append, hhere]
  rcases hjoins with ⟨rfl, _, hfirst⟩ | ⟨old, hold, rfl, hring, hplain⟩
  · exact ⟨onKey frag.key history, [], rfl, spells_single hfirst, by simp⟩
  · obtain ⟨earlier, run, hrun, hopen⟩ := h frag.key old hold
    obtain ⟨last, hlast, hsn⟩ := Option.map_eq_some_iff.mp hopen.lastSn
    refine ⟨earlier, run, by rw [hrun, List.append_assoc], ?_, hopen.unfinished⟩
    refine spells_concat hopen.toSpells hlast ?_ hplain
    rintro mask rfl
    rw [← hsn] at hring
    by_contra hno
    simp [SnRing.admits, hno] at hring

theorem told_moves (h : Told history d) {a : Arrival} {chain : Option OpenChain}
    (hmove : Moves d d' a.frag.key chain)
    (hhere : ∀ c, chain = some c → ∃ earlier run,
      onKey a.frag.key (history ++ [a]) = earlier ++ run ∧ OpenRun run c) :
    Told (history ++ [a]) d' := by
  intro k c hc
  by_cases hk : k = a.frag.key
  · rw [hk] at hc ⊢
    exact hhere c (hmove.here.symm.trans hc)
  · have hnot : onKey k [a] = [] := by simp [onKey, Ne.symm hk]
    rw [onKey_append, hnot, List.append_nil]
    rw [hmove.elsewhere k hk] at hc
    exact h k c hc

/-- A message that ends the history of a key. -/
def Heard (history : List Arrival) (bound : ℕ) (message : Bytes) : Prop :=
  ∃ k earlier init last, onKey k history = earlier ++ (init ++ [last]) ∧
    Spells (init ++ [last]) message ∧ last.frag.more = 0 ∧ (∀ a ∈ init, a.frag.more ≠ 0) ∧
    message.length ≤ bound

theorem told_ingest (h : Told history d) {frag : Fragment} {ring : SnRing} {room : Bool}
    {r : Option OpenChain × Option Bytes}
    (hr : Absorbed d.config.fragmentationMarkers d.maxMessageBytes ring room (chainOf d frag.key)
      frag r) (hmove : Moves d d' frag.key r.1) :
    Told (history ++ [⟨frag, ring, d.config.fragmentationMarkers⟩]) d' ∧
      ∀ message, r.2 = some message →
        Heard (history ++ [⟨frag, ring, d.config.fragmentationMarkers⟩]) d.maxMessageBytes
          message := by
  rcases hr with rfl | ⟨deadlineMs, bytes, hle, hjoins, rfl⟩
  · exact ⟨told_moves h hmove (by simp), by simp⟩
  obtain ⟨earlier, init, hhistory, hspells, hinit⟩ := spells_of_joins h hjoins
  by_cases hmore : frag.more = 0
  · simp only [hmore, if_true] at hmove ⊢
    refine ⟨told_moves h hmove (by simp), ?_⟩
    rintro message hmessage
    obtain rfl := Option.some.inj hmessage
    exact ⟨frag.key, earlier, init, _, hhistory, hspells, hmore, hinit, hle⟩
  · simp only [hmore, if_false] at hmove ⊢
    refine ⟨told_moves h hmove ?_, by simp⟩
    rintro c hc
    obtain rfl := Option.some.inj hc
    refine ⟨earlier, _, hhistory, hspells, by simp, ?_⟩
    intro a ha
    rcases List.mem_append.mp ha with ha | ha
    · exact hinit a ha
    · rw [List.mem_singleton.mp ha]
      exact hmore

theorem told_call (h : Told history d) {c : Call} {delivered : Option Bytes}
    (heffect : Effect d d' c delivered) :
    Told (history ++ arrival d.config.fragmentationMarkers c) d' ∧
      ∀ message, delivered = some message →
        Heard (history ++ arrival d.config.fragmentationMarkers c) d.maxMessageBytes message := by
  have hquiet : (∀ k chain, chainOf d' k = some chain → chainOf d k = some chain) →
      Told (history ++ []) d' := by
    intro hchains k chain hk
    rw [List.append_nil]
    exact h k chain (hchains k chain hk)
  cases c with
  | ingest frag ring nowMs lend =>
    obtain ⟨room, hmove, hmessage, _⟩ := heffect
    rw [hmessage]
    exact told_ingest h (absorbed_absorb ..) hmove
  | abortChannel peerKey priority reliable =>
    obtain ⟨hmove, hmessage⟩ := heffect
    refine ⟨hquiet fun k chain hchain => ?_, by simp [hmessage]⟩
    by_cases hk : k = .new peerKey reliable priority
    · rw [hk, hmove.here] at hchain
      simp at hchain
    · rwa [hmove.elsewhere k hk] at hchain
  | sweep nowMs =>
    obtain ⟨_, _, hmessage, hchains⟩ := heffect
    refine ⟨hquiet fun k chain hchain => ?_, by simp [hmessage]⟩
    rw [hchains, Option.filter_eq_some_iff] at hchain
    exact hchain.1
  | setFragmentationMarkers on =>
    obtain ⟨_, _, hmessage, hchains⟩ := heffect
    exact ⟨hquiet fun k chain hchain => hchains k ▸ hchain, by simp [hmessage]⟩
  | setMaxMessageBytes bytes =>
    obtain ⟨_, _, hmessage, hchains⟩ := heffect
    exact ⟨hquiet fun k chain hchain => hchains k ▸ hchain, by simp [hmessage]⟩

theorem markers_call {c : Call} {message : Option Bytes} (h : Effect d d' c message) :
    d'.config.fragmentationMarkers = markersAfter d.config.fragmentationMarkers c := by
  cases c with
  | ingest frag ring nowMs lend =>
    obtain ⟨_, hmove, _⟩ := h
    rw [hmove.config]
    rfl
  | abortChannel peerKey priority reliable =>
    rw [h.1.config]
    rfl
  | sweep nowMs =>
    rw [h.2.1]
    rfl
  | setFragmentationMarkers on =>
    rw [h.2.1]
    rfl
  | setMaxMessageBytes bytes =>
    rw [h.2.1]
    rfl

/-- The router after some calls, with the fragments they ingested. -/
structure Reached (on : Bool) (calls : List Call) (d : ReassemblyDispatcher slotCount cap) :
    Prop where
  inv : Inv d
  told : Told (arrivals on calls) d
  markers : d.config.fragmentationMarkers = calls.foldl markersAfter on

theorem reached_call {on : Bool} {calls : List Call} (h : Reached on calls d) (c : Call) :
    ∃ d' delivered, call d c = some (d', delivered) ∧ Reached on (calls ++ [c]) d' ∧
      ∀ message, delivered = some message →
        Heard (arrivals on (calls ++ [c])) d.maxMessageBytes message := by
  obtain ⟨d', delivered, hcall, heffect⟩ := call_effect h.inv c
  obtain ⟨htold, hheard⟩ := told_call h.told heffect
  rw [h.markers, ← arrivals_concat] at htold hheard
  refine ⟨d', delivered, hcall, ⟨inv_of_effect heffect, htold, ?_⟩, hheard⟩
  rw [markers_call heffect, h.markers, List.foldl_append]
  rfl

theorem reached_run (config : ReassemblyConfig) (calls : List Call) :
    ∃ d messages, run (new config : ReassemblyDispatcher slotCount cap) calls = some (d, messages) ∧
      Reached config.fragmentationMarkers calls d := by
  have hnew : Reached config.fragmentationMarkers []
      (new config : ReassemblyDispatcher slotCount cap) := by
    refine ⟨inv_new config, ?_, rfl⟩
    intro k chain hchain
    have hnone : holder Slot.key k (List.replicate slotCount Slot.new) = none := by
      rw [holder_eq_none_iff]
      intro slot hslot
      rw [List.eq_of_mem_replicate hslot]
      simp [Slot.new]
    simp [chainOf, new, hnone] at hchain
  refine Steps.run_keeps (fun past d c hpast => ?_) calls hnew
  obtain ⟨d', delivered, hcall, hreached, _⟩ := reached_call hpast c
  exact ⟨d', delivered, hcall, hreached⟩

end Told

/-- Whatever was ingested before, a message that is delivered is the payloads of fragments that came
one after another on one key. -/
theorem delivered_unspliced {slotCount cap : ℕ} (config : ReassemblyConfig) (before : List Call) :
    ∃ d messages,
      run (new config : ReassemblyDispatcher slotCount cap) before = some (d, messages) ∧
      ∀ op, ∃ d' delivered, call d op = some (d', delivered) ∧
        ∀ message, delivered = some message → ∃ k earlier init last,
          onKey k (arrivals config.fragmentationMarkers (before ++ [op])) =
            earlier ++ (init ++ [last]) ∧
          (∀ a ∈ init ++ [last], a.frag.reliable = k.reliable ∧ a.frag.priority = k.priority ∧
            (a.frag.peerKey.length ≤ peerKeyMax → a.frag.peerKey = k.peerKey)) ∧
          message = (init ++ [last]).flatMap (fun a => a.frag.payload) ∧
          (init ++ [last]).IsChain Consecutive ∧
          (last.frag.more = 0 ∧ ∀ a ∈ init, a.frag.more ≠ 0) ∧
          message.length ≤ min cap d.config.maxMessageBytes ∧
          MarkedOnce (init ++ [last]) := by
  obtain ⟨d, messages, hrun, hreached⟩ := reached_run config before
  refine ⟨d, messages, hrun, fun op => ?_⟩
  obtain ⟨d', delivered, hcall, _, hheard⟩ := reached_call hreached op
  refine ⟨d', delivered, hcall, fun message hmessage => ?_⟩
  obtain ⟨k, earlier, init, last, hhistory, hspells, hlast, hinit, hle⟩ := hheard message hmessage
  refine ⟨k, earlier, init, last, hhistory, ?_, hspells.bytes_eq, hspells.consecutive,
    ⟨hlast, hinit⟩, by rwa [min_comm], hspells.marked⟩
  intro a ha
  have hmem : a ∈ onKey k (arrivals config.fragmentationMarkers (before ++ [op])) := by
    rw [hhistory]
    exact List.mem_append_right _ ha
  obtain rfl : a.frag.key = k := by simpa [onKey] using (List.mem_filter.mp hmem).2
  exact ⟨rfl, rfl, fun hlen => (List.take_of_length_le hlen).symm⟩

/-- A fragment of the peer `[1]` on its reliable channel. -/
def piece (sn : UInt64) (more : UInt8) (payload : Bytes) (first : Bool) : Fragment :=
  ⟨[1], true, sn, more, payload, .data, ⟨first, false⟩⟩

/-- Two fragments over the seam of the ring of 256, with the marker rules on. -/
theorem delivered_unspliced_pair :
    ∃ d messages d',
      run (new ⟨1, 100, true, 64⟩ : ReassemblyDispatcher 1 64)
        [.ingest (piece 255 1 [7] true) (.known 255) 0 false] = some (d, messages) ∧
      call d (.ingest (piece 0 0 [8] false) (.known 255) 0 true) = some (d', some [7, 8]) ∧
      ∃ k earlier init last,
        onKey k (arrivals true [.ingest (piece 255 1 [7] true) (.known 255) 0 false,
          .ingest (piece 0 0 [8] false) (.known 255) 0 true]) = earlier ++ (init ++ [last]) ∧
        ([7, 8] : Bytes) = (init ++ [last]).flatMap (fun a => a.frag.payload) ∧
        MarkedOnce (init ++ [last]) := by
  obtain ⟨d, messages, hrun, hall⟩ := @delivered_unspliced 1 64 ⟨1, 100, true, 64⟩
    [.ingest (piece 255 1 [7] true) (.known 255) 0 false]
  obtain ⟨d', delivered, hcall, hmessage⟩ := hall
    (.ingest (piece 0 0 [8] false) (.known 255) 0 true)
  have hdelivered : delivered = some [7, 8] := by
    have hboth : (run (new ⟨1, 100, true, 64⟩ : ReassemblyDispatcher 1 64)
        [.ingest (piece 255 1 [7] true) (.known 255) 0 false]).bind (fun r =>
          (call r.1 (.ingest (piece 0 0 [8] false) (.known 255) 0 true)).map Prod.snd) =
        some (some [7, 8]) := by decide
    simpa [hrun, hcall] using hboth
  obtain ⟨k, earlier, init, last, hhistory, _, hbytes, _, _, _, hmarked⟩ :=
    hmessage [7, 8] hdelivered
  exact ⟨d, messages, d', hrun, hdelivered ▸ hcall, k, earlier, init, last, hhistory, hbytes,
    hmarked⟩

end WatchingZenoh.ReassemblySplice
