import WatchingZenoh.ReassemblyStep

/-! Fragments of one key among calls that spare it: the chain goes on as if it were alone, and the
last fragment delivers it. -/

namespace WatchingZenoh.ReassemblyWeave

open FrameEncode ReassemblySlot ReassemblyDispatch ReassemblyDispatcher ReassemblyChain
open ReassemblyStep Sn

section Weave

variable (k : ChainKey) (mask : UInt64) (deadlineMs : ℕ)

/-- A call that leaves the chain of `k` alone: it is about another key, or a sweep before the
deadline. -/
def Spares : Call → Prop
  | .ingest frag _ _ _ => frag.key ≠ k
  | .abortChannel peerKey priority reliable => .new peerKey reliable priority ≠ k
  | .sweep nowMs => nowMs < deadlineMs
  | .setFragmentationMarkers _ => False
  | .setMaxMessageBytes _ => False

/-- The fragments, ingested in order, among calls that spare `k`. -/
inductive Weave : List Fragment → List Call → Prop
  | done : Weave [] []
  | own {frag frags calls nowMs lend} : frag.key = k → Weave frags calls →
      Weave (frag :: frags) (.ingest frag (.known mask) nowMs lend :: calls)
  | other {frags c calls} : Spares k deadlineMs c → Weave frags calls → Weave frags (c :: calls)

/-- What may follow an open chain that last saw `sn`, up to the fragment that completes it. -/
inductive Follows : UInt64 → List Fragment → Prop
  | last {sn frag} : consecutive mask sn frag.sn = true → frag.markers = ⟨false, false⟩ →
      frag.more = 0 → Follows sn [frag]
  | next {sn frag frags} : consecutive mask sn frag.sn = true → frag.markers = ⟨false, false⟩ →
      frag.more ≠ 0 → Follows frag.sn frags → Follows sn (frag :: frags)

/-- The call ingests a fragment of `k`. -/
def concerns : Call → Bool
  | .ingest frag _ _ _ => frag.key = k
  | _ => false

/-- What the ingests of `k` delivered. -/
def deliveredOn (calls : List Call) (messages : List (Option Bytes)) : List (Option Bytes) :=
  ((calls.zip messages).filter fun p => concerns k p.1).map Prod.snd

theorem deliveredOn_own {frag : Fragment} (hkey : frag.key = k) (ring : SnRing) (nowMs : ℕ)
    (lend : Bool) (calls : List Call) (message : Option Bytes) (messages : List (Option Bytes)) :
    deliveredOn k (.ingest frag ring nowMs lend :: calls) (message :: messages) =
      message :: deliveredOn k calls messages := by
  simp [deliveredOn, concerns, hkey]

/-- Nothing, until the last fragment delivers. -/
def answers (body : Bytes) (frags : List Fragment) : List (Option Bytes) :=
  match frags with
  | [] => []
  | _ :: rest => List.replicate rest.length none ++ [some body]

end Weave

section Run

variable {slotCount cap : ℕ} {d d' : ReassemblyDispatcher slotCount cap} {k : ChainKey}
  {mask : UInt64} {deadlineMs : ℕ} {body : Bytes}

theorem spares_effect {c : Call} {message : Option Bytes} (hspares : Spares k deadlineMs c)
    (heffect : Effect d d' c message)
    (hdeadline : ∀ chain, chainOf d k = some chain → chain.deadlineMs = deadlineMs) :
    chainOf d' k = chainOf d k ∧ d'.config = d.config := by
  cases c with
  | ingest frag ring nowMs lend =>
    obtain ⟨_, hmove, _⟩ := heffect
    exact ⟨hmove.elsewhere k (Ne.symm hspares), hmove.config⟩
  | abortChannel peerKey priority reliable =>
    exact ⟨heffect.1.elsewhere k (Ne.symm hspares), heffect.1.config⟩
  | sweep nowMs =>
    obtain ⟨_, hconfig, _, hchains⟩ := heffect
    refine ⟨?_, hconfig⟩
    rcases hchain : chainOf d k with _ | chain
    · simp [hchains, hchain]
    · rw [hchains, hchain, Option.filter_some_pos]
      simpa [hdeadline chain hchain, Spares] using hspares
  | setFragmentationMarkers on => exact hspares.elim
  | setMaxMessageBytes bytes => exact hspares.elim

theorem concerns_of_spares {c : Call} (h : Spares k deadlineMs c) : concerns k c = false := by
  cases c with
  | ingest frag ring nowMs lend => simpa [concerns, Spares] using h
  | _ => rfl

/-- The chain of `k` still waits for these fragments, or is complete. -/
inductive Awaits (k : ChainKey) (mask : UInt64) (deadlineMs : ℕ) (body : Bytes)
    (d : ReassemblyDispatcher slotCount cap) : List Fragment → Prop
  | complete : chainOf d k = none → Awaits k mask deadlineMs body d []
  | receiving {chain frags} : chainOf d k = some chain → chain.deadlineMs = deadlineMs →
      Follows mask chain.lastSn frags →
      chain.bytes ++ frags.flatMap (fun frag => frag.payload) = body →
      Awaits k mask deadlineMs body d frags

theorem Awaits.deadline {frags : List Fragment} (h : Awaits k mask deadlineMs body d frags) :
    ∀ chain, chainOf d k = some chain → chain.deadlineMs = deadlineMs := by
  intro chain hchain
  cases h with
  | complete hnone => simp [hnone] at hchain
  | receiving hopen hdeadline _ _ =>
    rw [hopen, Option.some.injEq] at hchain
    exact hchain ▸ hdeadline

theorem Awaits.of_chainOf {frags : List Fragment} (h : Awaits k mask deadlineMs body d frags)
    (hchain : chainOf d' k = chainOf d k) : Awaits k mask deadlineMs body d' frags := by
  cases h with
  | complete hnone => exact .complete (hchain.trans hnone)
  | receiving hopen hdeadline hfollows hbytes =>
    exact .receiving (hchain.trans hopen) hdeadline hfollows hbytes

theorem absorb_plain {markers room : Bool} {bound deadlineMs' : ℕ} {chain : OpenChain}
    {frag : Fragment} (hplain : frag.markers = ⟨false, false⟩)
    (hstep : consecutive mask chain.lastSn frag.sn = true)
    (hfits : chain.bytes.length + frag.payload.length ≤ bound) :
    absorb markers bound deadlineMs' (.known mask) room (some chain) frag =
      if frag.more = 0 then (none, some (chain.bytes ++ frag.payload))
      else (some ⟨frag.sn, chain.deadlineMs, chain.bytes ++ frag.payload⟩, none) := by
  simp [absorb, hplain, extendChain, SnRing.admits, hstep, Nat.not_lt.mpr hfits]

theorem awaits_own {frag : Fragment} {frags : List Fragment} {nowMs : ℕ} {lend : Bool}
    {message : Option Bytes} (h : Awaits k mask deadlineMs body d (frag :: frags))
    (hkey : frag.key = k) (hbound : body.length ≤ d.maxMessageBytes)
    (heffect : Effect d d' (.ingest frag (.known mask) nowMs lend) message) :
    Awaits k mask deadlineMs body d' frags ∧ d'.config = d.config ∧
      message :: answers body frags = answers body (frag :: frags) := by
  obtain ⟨room, hmove, hmessage, _⟩ := heffect
  rw [hkey] at hmove hmessage
  cases h with
  | @receiving chain _ hopen hdeadline hfollows hbytes =>
    rw [hopen] at hmove hmessage
    have hfits : chain.bytes.length + frag.payload.length ≤ d.maxMessageBytes := by
      refine le_trans ?_ hbound
      rw [← hbytes]
      simp [← Nat.add_assoc]
    cases hfollows with
    | last hstep hplain hmore =>
      rw [absorb_plain hplain hstep hfits, if_pos hmore] at hmove hmessage
      refine ⟨.complete hmove.here, hmove.config, ?_⟩
      simp only [List.flatMap_cons, List.flatMap_nil, List.append_nil] at hbytes
      simp [answers, hmessage, hbytes]
    | next hstep hplain hmore hrest =>
      rw [absorb_plain hplain hstep hfits, if_neg hmore] at hmove hmessage
      refine ⟨.receiving hmove.here hdeadline hrest ?_, hmove.config, ?_⟩
      · simpa using hbytes
      · cases hrest <;> simp [answers, hmessage, List.replicate_succ]

theorem run_weave {frags : List Fragment} {calls : List Call}
    (hweave : Weave k mask deadlineMs frags calls) (hinv : Inv d)
    (h : Awaits k mask deadlineMs body d frags) (hbound : body.length ≤ d.maxMessageBytes) :
    ∃ d' messages, run d calls = some (d', messages) ∧ Inv d' ∧ chainOf d' k = none ∧
      deliveredOn k calls messages = answers body frags := by
  induction hweave generalizing d with
  | done =>
    cases h with
    | complete hnone => exact ⟨d, [], rfl, hinv, hnone, rfl⟩
    | receiving _ _ hfollows _ => cases hfollows
  | @own frag frags calls nowMs lend hkey _ ih =>
    obtain ⟨d₁, message, hcall, heffect⟩ :=
      call_effect hinv (.ingest frag (.known mask) nowMs lend)
    obtain ⟨hawaits, hconfig, hanswers⟩ := awaits_own h hkey hbound heffect
    rw [← maxMessageBytes_of_config hconfig] at hbound
    obtain ⟨d', messages, hrun, hinv', hnone, hdelivered⟩ :=
      ih (inv_of_effect heffect) hawaits hbound
    refine ⟨d', message :: messages, Steps.run_cons hcall hrun, hinv', hnone, ?_⟩
    rw [deliveredOn_own k hkey, ← hanswers, ← hdelivered]
  | @other frags c calls hspares _ ih =>
    obtain ⟨d₁, message, hcall, heffect⟩ := call_effect hinv c
    obtain ⟨hchain, hconfig⟩ := spares_effect hspares heffect h.deadline
    rw [← maxMessageBytes_of_config hconfig] at hbound
    obtain ⟨d', messages, hrun, hinv', hnone, hdelivered⟩ :=
      ih (inv_of_effect heffect) (h.of_chainOf hchain) hbound
    refine ⟨d', message :: messages, Steps.run_cons hcall hrun, hinv', hnone, ?_⟩
    rw [← hdelivered]
    simp [deliveredOn, concerns_of_spares hspares]

end Run

end WatchingZenoh.ReassemblyWeave
