import WatchingZenoh.ReassemblySplice
import WatchingZenoh.ReassemblyWeave

/-! A message that is cut into fragments and ingested again comes out whole, whatever happens on other
keys in between. The sender's plan is followed span by span: what has been cut off so far is what the
chain of its key holds. -/

namespace WatchingZenoh.ReassemblyRoundTrip

open FrameEncode ReassemblySlot ReassemblyDispatch ReassemblyDispatcher ReassemblyChain
open ReassemblyRefine ReassemblyStep ReassemblySplice ReassemblyWeave KeyedSlots Sn

section Plan

variable (body peerKey : Bytes) (reliable : Bool) (priority : Priority)

/-- The fragment of a span, as the receiving side ingests it. -/
def received (span : FragmentSpan) : Fragment where
  peerKey := peerKey
  reliable := reliable
  sn := span.sn
  more := if span.more then 1 else 0
  payload := FragmentPlan.payload body span
  priority := priority
  markers := ⟨span.first, span.dropMarker⟩

theorem more_received (span : FragmentSpan) :
    (received body peerKey reliable priority span).more = 0 ↔ span.more = false := by
  cases h : span.more <;> simp [received, h]

theorem advance_more {plan : FragmentPlan} : plan.advance.done = !plan.head.more := rfl

variable {mask : UInt64} {bits : ℕ}

theorem follows_spans (hmask : RingMask mask bits) (plan : FragmentPlan)
    (hdone : plan.done = false) (hoff : 0 < plan.off) (hsnMask : plan.snMask = mask) {sn : UInt64}
    (hsn : plan.sn = increment mask sn) :
    Follows mask sn (plan.spans.map (received body peerKey reliable priority)) := by
  induction plan using FragmentPlan.plan_induction generalizing sn with
  | done plan h => simp [h] at hdone
  | next plan _ ih =>
    rw [FragmentPlan.spans_of_not_done hdone, List.map_cons]
    have hstep : consecutive mask sn (received body peerKey reliable priority plan.head).sn = true := by
      change consecutive mask sn plan.sn = true
      rw [hsn]
      exact consecutive_increment hmask sn
    have hplain : (received body peerKey reliable priority plan.head).markers = ⟨false, false⟩ := by
      simp [received, FragmentPlan.head]
      omega
    cases hmore : plan.head.more with
    | false =>
      rw [FragmentPlan.spans_of_done (by simp [advance_more, hmore])]
      exact .last hstep hplain ((more_received ..).mpr hmore)
    | true =>
      refine .next hstep hplain (fun h => ?_) ?_
      · simp [(more_received ..).mp h] at hmore
      · refine ih (by simp [advance_more, hmore]) ?_ hsnMask ?_
        · have hpos := plan.chunk_pos
          simp only [FragmentPlan.head, decide_eq_true_eq] at hmore
          simp only [FragmentPlan.advance]
          omega
        · simp [received, FragmentPlan.head, FragmentPlan.advance, hsnMask]

variable {slotCount cap : ℕ} {d d' : ReassemblyDispatcher slotCount cap}

theorem awaits_first (hmask : RingMask mask bits) (mtu : ℕ) (baseSn : UInt64)
    (extQos : Option Priority) {nowMs : ℕ} {lend : Bool} {message : Option Bytes}
    (hroom : hasRoom d peerKey = true) (hbound : body.length ≤ d.maxMessageBytes)
    (hnone : chainOf d (.new peerKey reliable priority) = none)
    (heffect : Effect d d' (.ingest (received body peerKey reliable priority
      (FragmentPlan.new body.length mtu baseSn mask extQos).head) (.known mask) nowMs lend)
      message) :
    Awaits (.new peerKey reliable priority) mask (deadlineAt d nowMs) body d'
        ((FragmentPlan.new body.length mtu baseSn mask extQos).advance.spans.map
          (received body peerKey reliable priority)) ∧
      d'.config = d.config ∧
      message :: answers body ((FragmentPlan.new body.length mtu baseSn mask extQos).advance.spans.map
          (received body peerKey reliable priority)) =
        answers body ((FragmentPlan.new body.length mtu baseSn mask extQos).spans.map
          (received body peerKey reliable priority)) := by
  set plan := FragmentPlan.new body.length mtu baseSn mask extQos with hplan
  set frag := received body peerKey reliable priority plan.head with hfrag
  have hdone : plan.done = false := rfl
  have hwhole := @FragmentPlan.flatMap_payload_spans body plan hdone rfl
  rw [show plan.off = 0 from rfl, List.drop_zero, FragmentPlan.spans_of_not_done hdone,
    List.flatMap_cons] at hwhole
  have hfits : frag.payload.length ≤ d.maxMessageBytes := by
    refine le_trans ?_ hbound
    rw [← hwhole, List.length_append]
    exact Nat.le_add_right _ _
  obtain ⟨room, hmove, hmessage, hroom'⟩ := heffect
  have hkey : frag.key = .new peerKey reliable priority := rfl
  rw [hkey, hnone] at hmove hmessage
  rw [hkey] at hroom'
  have habsorb : absorb d.config.fragmentationMarkers d.maxMessageBytes (deadlineAt d nowMs)
      (.known mask) room none frag =
        if frag.more = 0 then (none, some frag.payload)
        else (some ⟨frag.sn, deadlineAt d nowMs, frag.payload⟩, none) := by
    have hfirst : frag.markers.first = true := rfl
    rw [hroom' hnone, show frag.peerKey = peerKey from rfl, hroom]
    cases d.config.fragmentationMarkers <;>
      simp [absorb, hfirst, beginChain, Nat.not_lt.mpr hfits]
  rw [habsorb] at hmove hmessage
  rw [FragmentPlan.spans_of_not_done hdone, List.map_cons, ← hfrag]
  cases hmore : plan.head.more with
  | false =>
    rw [if_pos ((more_received ..).mpr hmore)] at hmove hmessage
    have hspans : plan.advance.spans = [] := FragmentPlan.spans_of_done (by simp [advance_more, hmore])
    rw [hspans] at hwhole ⊢
    rw [List.flatMap_nil, List.append_nil] at hwhole
    refine ⟨.complete hmove.here, hmove.config, ?_⟩
    simp [answers, hmessage, hfrag, received, hwhole]
  | true =>
    have hne : frag.more ≠ 0 := fun h => by simp [(more_received ..).mp h] at hmore
    rw [if_neg hne] at hmove hmessage
    have hadvance : plan.advance.done = false := by simp [advance_more, hmore]
    refine ⟨.receiving hmove.here rfl ?_ ?_, hmove.config, ?_⟩
    · refine follows_spans body peerKey reliable priority hmask plan.advance hadvance ?_ rfl rfl
      have hpos := plan.chunk_pos
      simp only [FragmentPlan.head, decide_eq_true_eq] at hmore
      simp only [FragmentPlan.advance]
      omega
    · rw [List.flatMap_map]
      exact hwhole
    · rw [FragmentPlan.spans_of_not_done hadvance]
      simp [answers, hmessage, List.replicate_succ]

end Plan

/-- Fragmentation followed by reassembly. The first fragment is ingested where the quota and the slots
let a chain start; the others come later, in order, among calls that spare the chain. -/
theorem fragment_reassemble {slotCount cap : ℕ} {writeVleU64 : UInt64 → Bytes}
    (hwrite : WritesZint writeVleU64) (config : ReassemblyConfig) (before : List Call)
    {d : ReassemblyDispatcher slotCount cap} {past : List (Option Bytes)}
    (hbefore : run (new config) before = some (d, past)) {mask : UInt64} {bits : ℕ}
    (hmask : RingMask mask bits) (body peerKey : Bytes) (mtu : ℕ) (baseSn : UInt64)
    (reliable : Bool) (priority : Priority) (extQos : Option Priority) (nowMs : ℕ) (lend : Bool)
    (hroom : hasRoom d peerKey = true) (hbound : body.length ≤ min cap d.config.maxMessageBytes)
    (hidle : ∀ slot ∈ d.slots, slot.key ≠ some (.new peerKey reliable priority))
    {first : Fragment} {calls : List Call} (hfirst : first.key = .new peerKey reliable priority)
    (hweave : Weave (.new peerKey reliable priority) mask (deadlineAt d nowMs)
      ((FragmentPlan.new body.length mtu baseSn mask extQos).spans.map
        (received body peerKey reliable priority))
      (.ingest first (.known mask) nowMs lend :: calls)) :
    (∃ d' messages,
      run d (.ingest first (.known mask) nowMs lend :: calls) = some (d', messages) ∧
      deliveredOn (.new peerKey reliable priority)
          (.ingest first (.known mask) nowMs lend :: calls) messages =
        List.replicate ((FragmentPlan.new body.length mtu baseSn mask extQos).spans.length - 1) none
          ++ [some body] ∧
      ∀ slot ∈ d'.slots, slot.key ≠ some (.new peerKey reliable priority)) ∧
    (14 ≤ mtu → bits ≤ 63 →
      ∀ span ∈ (FragmentPlan.new body.length mtu baseSn mask extQos).spans,
        (buildFragmentWire writeVleU64 span.sn (FragmentPlan.payload body span) reliable span.more
          span.first span.dropMarker extQos).length ≤ mtu) := by
  refine ⟨?_, fun hmtu hbits span hspan =>
    wire_le_mtu hwrite hbits hmtu hmask baseSn body reliable extQos hspan⟩
  obtain ⟨d₀, past', hrun₀, hreached⟩ := @reached_run slotCount cap config before
  obtain ⟨rfl, rfl⟩ := Prod.mk.inj (Option.some.inj (hbefore.symm.trans hrun₀))
  have hnone : chainOf d (.new peerKey reliable priority) = none := by
    simp [chainOf, holder_eq_none_iff.mpr hidle]
  have hbound : body.length ≤ d.maxMessageBytes := by rwa [maxMessageBytes, min_comm]
  have hspans := FragmentPlan.spans_of_not_done
    (show (FragmentPlan.new body.length mtu baseSn mask extQos).done = false from rfl)
  rw [hspans, List.map_cons] at hweave
  cases hweave with
  | other hspares _ => exact absurd hfirst hspares
  | own _ hweave =>
    obtain ⟨d₁, message, hcall, heffect⟩ := call_effect hreached.inv
      (.ingest (received body peerKey reliable priority
        (FragmentPlan.new body.length mtu baseSn mask extQos).head) (.known mask) nowMs lend)
    obtain ⟨hawaits, hconfig, hanswers⟩ := awaits_first body peerKey reliable priority hmask mtu
      baseSn extQos hroom hbound hnone heffect
    rw [← maxMessageBytes_of_config hconfig] at hbound
    obtain ⟨d', messages, hrun, hinv, hdone, hdelivered⟩ :=
      run_weave hweave (inv_of_effect heffect) hawaits hbound
    refine ⟨d', message :: messages, Steps.run_cons hcall hrun, ?_,
      holder_eq_none_iff.mp (holder_of_chainOf hinv hdone)⟩
    rw [deliveredOn_own _ hfirst, hdelivered, hanswers, hspans]
    simp [answers]

def writeZint : ℕ → ℕ → Bytes
  | 0, _ => []
  | fuel + 1, v =>
    if v < 2 ^ 7 then [.ofNat v] else .ofNat (v % 2 ^ 7 + 2 ^ 7) :: writeZint fuel (v / 2 ^ 7)

theorem length_writeZint (fuel n v : ℕ) (hv : v < 2 ^ (7 * (n + 1))) :
    (writeZint fuel v).length ≤ n + 1 := by
  induction fuel generalizing n v with
  | zero => simp [writeZint]
  | succ fuel ih =>
    unfold writeZint
    split_ifs with hsmall
    · simp
    · cases n with
      | zero => exact absurd hv hsmall
      | succ n =>
        have hdiv : v / 2 ^ 7 < 2 ^ (7 * (n + 1)) := by
          rw [Nat.div_lt_iff_lt_mul (by decide), ← pow_add]
          exact hv
        simpa using ih n _ hdiv

theorem writesZint_writeZint : WritesZint fun v => writeZint 10 v.toNat where
  one v hv := by simp only [writeZint, hv, if_true, List.length_singleton]
  nine v hv := length_writeZint 10 8 v.toNat hv

/-- The two fragments of a message, over the seam of a ring, with a foreign fragment and a sweep between
them. -/
def pairCalls : List Call :=
  [.ingest (received [1, 2, 3, 4] [9] true .data ⟨255, 0, 3, true, true, false⟩) (.known 255) 5 false,
    .ingest ⟨[8], true, 7, 1, [0], .data, ⟨true, false⟩⟩ .unknown 6 true,
    .sweep 104,
    .ingest (received [1, 2, 3, 4] [9] true .data ⟨0, 3, 4, false, false, false⟩) (.known 255) 7 true]

theorem fragment_reassemble_pair :
    (∃ d' messages,
      run (new ⟨4, 100, true, 64⟩ : ReassemblyDispatcher 2 64) pairCalls = some (d', messages) ∧
      deliveredOn (.new [9] true .data) pairCalls messages = [none, some [1, 2, 3, 4]] ∧
      ∀ slot ∈ d'.slots, slot.key ≠ some (.new [9] true .data)) ∧
    (14 ≤ 14 → 8 ≤ 63 → ∀ span ∈ (FragmentPlan.new 4 14 255 255 none).spans,
      (buildFragmentWire (fun v => writeZint 10 v.toNat) span.sn
        (FragmentPlan.payload [1, 2, 3, 4] span) true span.more span.first span.dropMarker
        none).length ≤ 14) := by
  have hspans : (FragmentPlan.new 4 14 255 255 none).spans =
      [⟨255, 0, 3, true, true, false⟩, ⟨0, 3, 4, false, false, false⟩] := by
    rw [FragmentPlan.spans_of_not_done rfl, FragmentPlan.spans_of_not_done rfl,
      FragmentPlan.spans_of_done rfl]
    rfl
  have hweave : Weave (.new [9] true .data) 255
      (deadlineAt (new ⟨4, 100, true, 64⟩ : ReassemblyDispatcher 2 64) 5)
      ((FragmentPlan.new 4 14 255 255 none).spans.map (received [1, 2, 3, 4] [9] true .data))
      pairCalls := by
    rw [hspans]
    refine .own rfl (.other ?_ (.other ?_ (.own rfl .done)))
    · exact show _ ≠ _ by decide
    · exact show 104 < _ by decide
  have hall := fragment_reassemble writesZint_writeZint ⟨4, 100, true, 64⟩ []
    (show run (new ⟨4, 100, true, 64⟩ : ReassemblyDispatcher 2 64) [] = some (_, []) from rfl)
    (show RingMask 255 8 from ⟨rfl, by decide⟩) [1, 2, 3, 4] [9] 14 255 true .data none 5 false
    (by decide) (by decide) (by decide) rfl hweave
  rw [show ([1, 2, 3, 4] : Bytes).length = 4 from rfl, hspans] at hall
  rw [hspans]
  exact hall

end WatchingZenoh.ReassemblyRoundTrip
