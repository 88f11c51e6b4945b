import WatchingZenoh.Sn
import WatchingZenoh.Text

/-! The sending side of fragmentation: where each fragment of a message lies, which sequence number it
carries, and how it is written. The runtime's variable-length integer is a parameter of which only the
length matters. -/

namespace WatchingZenoh.FrameEncode

inductive Priority where
  | control
  | realTime
  | interactiveHigh
  | interactiveLow
  | dataHigh
  | data
  | dataLow
  | background
  deriving DecidableEq, Repr

def Priority.wireByte : Priority → UInt8
  | .control => 0
  | .realTime => 1
  | .interactiveHigh => 2
  | .interactiveLow => 3
  | .dataHigh => 4
  | .data => 5
  | .dataLow => 6
  | .background => 7

/-- `Priority::DEFAULT`, which no `ext_qos` is sent for. -/
def Priority.default : Priority := .data

/-- One flags byte and the widest `u64`. -/
def fragHeaderBudget : ℕ := 1 + 10

def qosExtWireBytes : ℕ := 2

def fragmentChunkSize (mtu : ℕ) (qos : Bool) : ℕ :=
  max (mtu - (fragHeaderBudget + if qos then qosExtWireBytes else 0)) 1

structure FragmentSpan where
  sn : UInt64
  start : ℕ
  finish : ℕ
  more : Bool
  first : Bool
  dropMarker : Bool
  deriving DecidableEq, Repr

/-- A chunk is never empty, so a plan comes to an end. -/
structure FragmentPlan where
  len : ℕ
  off : ℕ
  chunk : ℕ
  sn : UInt64
  snMask : UInt64
  done : Bool
  chunk_pos : 0 < chunk

namespace FragmentPlan

def new (len mtu : ℕ) (baseSn snMask : UInt64) (extQos : Option Priority) : FragmentPlan where
  len := len
  off := 0
  chunk := fragmentChunkSize mtu extQos.isSome
  sn := baseSn &&& snMask
  snMask := snMask
  done := false
  chunk_pos := lt_of_lt_of_le Nat.one_pos (le_max_right _ _)

/-- The next fragment, and the plan behind it. -/
def nextSpan (plan : FragmentPlan) : Option (FragmentSpan × FragmentPlan) :=
  if plan.done then none
  else
    let finish := min (plan.off + plan.chunk) plan.len
    let more := decide (finish < plan.len)
    some ({ sn := plan.sn, start := plan.off, finish := finish, more := more,
            first := plan.off == 0, dropMarker := false },
      { plan with off := finish, sn := Sn.increment plan.snMask plan.sn, done := !more })

def remaining (plan : FragmentPlan) : ℕ := if plan.done then 0 else plan.len - plan.off + 1

theorem remaining_lt {plan next : FragmentPlan} {span : FragmentSpan}
    (h : plan.nextSpan = some (span, next)) : next.remaining < plan.remaining := by
  unfold nextSpan at h
  split_ifs at h with hdone
  have hnext := (Prod.mk.inj (Option.some.inj h)).2
  have hpos := plan.chunk_pos
  rw [← hnext]
  simp only [remaining, hdone]
  by_cases hmore : min (plan.off + plan.chunk) plan.len < plan.len
  · simp only [hmore, decide_true, Bool.not_true, Bool.false_eq_true, if_false]
    omega
  · simp [hmore]

/-- Every fragment the plan yields, in order. -/
def spans (plan : FragmentPlan) : List FragmentSpan :=
  match h : plan.nextSpan with
  | none => []
  | some (span, next) => span :: next.spans
termination_by plan.remaining
decreasing_by exact remaining_lt h

end FragmentPlan

section Wire

-- `write_vle_u64` of the codec runtime.
variable (writeVleU64 : UInt64 → Bytes)

def tMidFragment : UInt8 := 0x06
def flagTFragmentR : UInt8 := 0x20
def flagTFragmentM : UInt8 := 0x40
def flagTZ : UInt8 := 0x80
def qosExtHeader : UInt8 := 0x31
def fragmentFirstExtHeader : UInt8 := 0x02
def fragmentDropExtHeader : UInt8 := 0x03

def writeQosExt (priority : Priority) (chained : Bool) : Bytes :=
  (if chained then qosExtHeader ||| flagTZ else qosExtHeader) ::
    writeVleU64 priority.wireByte.toUInt64

/-- Everything of a fragment before its payload. -/
def writeFragmentHead (sn : UInt64) (reliable more first dropMarker : Bool)
    (extQos : Option Priority) : Bytes :=
  let flags : UInt8 := if reliable then flagTFragmentR else 0
  let flags := if more then flags ||| flagTFragmentM else flags
  let flags := if first || extQos.isSome || dropMarker then flags ||| flagTZ else flags
  (flags ||| tMidFragment) ::
    (writeVleU64 sn ++
      (match extQos with
        | some priority => writeQosExt writeVleU64 priority (first || dropMarker)
        | none => []) ++
      (if first then [if dropMarker then fragmentFirstExtHeader ||| flagTZ
        else fragmentFirstExtHeader] else []) ++
      if dropMarker then [fragmentDropExtHeader] else [])

def buildFragmentWire (sn : UInt64) (payload : Bytes) (reliable more first dropMarker : Bool)
    (extQos : Option Priority) : Bytes :=
  writeFragmentHead writeVleU64 sn reliable more first dropMarker extQos ++ payload

/-- What the runtime says of its `u64`: seven bits a byte, so one byte below `2 ^ 7` and at most nine
below `2 ^ 63`. -/
structure WritesZint : Prop where
  one : ∀ v : UInt64, v.toNat < 2 ^ 7 → (writeVleU64 v).length = 1
  nine : ∀ v : UInt64, v.toNat < 2 ^ 63 → (writeVleU64 v).length ≤ 9

theorem wireByte_lt (priority : Priority) : priority.wireByte.toUInt64.toNat < 2 ^ 7 := by
  cases priority <;> decide

theorem length_buildFragmentWire {writeVleU64 : UInt64 → Bytes} (h : WritesZint writeVleU64)
    {sn : UInt64} (hsn : sn.toNat < 2 ^ 63) (payload : Bytes) (reliable more first : Bool)
    (extQos : Option Priority) :
    (buildFragmentWire writeVleU64 sn payload reliable more first false extQos).length ≤
      fragHeaderBudget + (if extQos.isSome then qosExtWireBytes else 0) + payload.length := by
  have hnine := h.nine sn hsn
  unfold buildFragmentWire writeFragmentHead fragHeaderBudget qosExtWireBytes
  rcases extQos with _ | priority
  · cases first <;> simp <;> omega
  · have hone := h.one _ (wireByte_lt priority)
    cases first <;> simp [writeQosExt, hone] <;> omega

end Wire

namespace FragmentPlan

theorem spans_of_done {plan : FragmentPlan} (h : plan.done = true) : plan.spans = [] := by
  rw [spans]
  split
  · rfl
  · rename_i hnext
    simp [nextSpan, h] at hnext

def advance (plan : FragmentPlan) : FragmentPlan :=
  { plan with
    off := min (plan.off + plan.chunk) plan.len
    sn := Sn.increment plan.snMask plan.sn
    done := !decide (min (plan.off + plan.chunk) plan.len < plan.len) }

def head (plan : FragmentPlan) : FragmentSpan where
  sn := plan.sn
  start := plan.off
  finish := min (plan.off + plan.chunk) plan.len
  more := decide (min (plan.off + plan.chunk) plan.len < plan.len)
  first := plan.off == 0
  dropMarker := false

theorem spans_of_not_done {plan : FragmentPlan} (h : plan.done = false) :
    plan.spans = plan.head :: plan.advance.spans := by
  rw [spans]
  split
  · rename_i hnext
    simp [nextSpan, h] at hnext
  · rename_i span next hnext
    simp only [nextSpan, h, Bool.false_eq_true, if_false, Option.some.injEq, Prod.mk.injEq] at hnext
    rw [← hnext.1, ← hnext.2]
    rfl

theorem remaining_advance {plan : FragmentPlan} (h : plan.done = false) :
    plan.advance.remaining < plan.remaining := by
  refine @remaining_lt plan plan.advance plan.head ?_
  simp [nextSpan, h, head, advance]

theorem plan_induction {motive : FragmentPlan → Prop}
    (done : ∀ plan : FragmentPlan, plan.done = true → motive plan)
    (next : ∀ plan : FragmentPlan, plan.done = false → motive plan.advance → motive plan)
    (plan : FragmentPlan) : motive plan := by
  induction hn : plan.remaining using Nat.strongRecOn generalizing plan with
  | ind n ih =>
    cases hdone : plan.done with
    | true => exact done plan hdone
    | false => exact next plan hdone (ih _ (hn ▸ remaining_advance hdone) _ rfl)

def payload (body : Bytes) (span : FragmentSpan) : Bytes :=
  (body.drop span.start).take (span.finish - span.start)

theorem payload_head {body : Bytes} {plan : FragmentPlan} (hlen : plan.len = body.length) :
    payload body plan.head ++ body.drop plan.advance.off = body.drop plan.off := by
  have hoff : plan.advance.off = plan.off + (plan.head.finish - plan.head.start) ∨
      body.drop plan.off = [] ∧ body.drop plan.advance.off = [] := by
    simp only [advance, head, List.drop_eq_nil_iff]
    omega
  rcases hoff with hoff | ⟨hnil, hnil'⟩
  · rw [payload, hoff, ← List.drop_drop]
    exact List.take_append_drop _ _
  · rw [payload, hnil', show plan.head.start = plan.off from rfl, hnil]
    simp

theorem flatMap_payload_spans {body : Bytes} (plan : FragmentPlan) (hdone : plan.done = false)
    (hlen : plan.len = body.length) :
    plan.spans.flatMap (payload body) = body.drop plan.off := by
  induction plan using plan_induction with
  | done plan h => simp [h] at hdone
  | next plan _ ih =>
    rw [spans_of_not_done hdone, List.flatMap_cons, ← payload_head hlen]
    congr 1
    cases hlast : plan.advance.done with
    | false => exact ih hlast hlen
    | true =>
      have hend : body.length ≤ plan.advance.off := by
        simpa [advance, hlen] using hlast
      rw [spans_of_done hlast, List.drop_eq_nil_of_le hend]
      rfl

theorem mem_spans {k : ℕ} (plan : FragmentPlan) (hmask : Sn.RingMask plan.snMask k)
    (hsn : plan.sn.toNat < 2 ^ k) {span : FragmentSpan} (h : span ∈ plan.spans) :
    span.finish - span.start ≤ plan.chunk ∧ span.sn.toNat < 2 ^ k ∧ span.dropMarker = false := by
  induction plan using plan_induction with
  | done plan hdone => simp [spans_of_done hdone] at h
  | next plan hdone ih =>
    rw [spans_of_not_done hdone] at h
    rcases List.mem_cons.mp h with rfl | h
    · refine ⟨?_, hsn, rfl⟩
      simp only [head]
      omega
    · have hnext : plan.advance.sn.toNat < 2 ^ k := by
        rw [show plan.advance.sn = Sn.increment plan.snMask plan.sn from rfl,
          Sn.toNat_increment hmask]
        exact Nat.mod_lt _ (Nat.two_pow_pos k)
      exact ih hmask hnext h

end FragmentPlan

theorem wire_le_mtu {writeVleU64 : UInt64 → Bytes} (h : WritesZint writeVleU64) {k mtu : ℕ}
    (hk : k ≤ 63) (hmtu : 14 ≤ mtu) {mask : UInt64} (hmask : Sn.RingMask mask k) (baseSn : UInt64)
    (body : Bytes) (reliable : Bool) (extQos : Option Priority) {span : FragmentSpan}
    (hspan : span ∈ (FragmentPlan.new body.length mtu baseSn mask extQos).spans) :
    (buildFragmentWire writeVleU64 span.sn (FragmentPlan.payload body span) reliable span.more
      span.first span.dropMarker extQos).length ≤ mtu := by
  have hbase : (FragmentPlan.new body.length mtu baseSn mask extQos).sn.toNat < 2 ^ k := by
    rw [show (FragmentPlan.new body.length mtu baseSn mask extQos).sn = baseSn &&& mask from rfl,
      Sn.toNat_and_mask hmask]
    exact Nat.mod_lt _ (Nat.two_pow_pos k)
  obtain ⟨hchunk, hsn, hdrop⟩ := FragmentPlan.mem_spans _ hmask hbase hspan
  have hsn63 : span.sn.toNat < 2 ^ 63 := lt_of_lt_of_le hsn (Nat.pow_le_pow_right (by decide) hk)
  have hwire := length_buildFragmentWire h hsn63 (FragmentPlan.payload body span) reliable
    span.more span.first extQos
  have hpayload : (FragmentPlan.payload body span).length ≤ span.finish - span.start := by
    simp [FragmentPlan.payload]
  rw [hdrop]
  rw [show (FragmentPlan.new body.length mtu baseSn mask extQos).chunk =
    fragmentChunkSize mtu extQos.isSome from rfl] at hchunk
  unfold fragmentChunkSize fragHeaderBudget qosExtWireBytes at hchunk
  unfold fragHeaderBudget qosExtWireBytes at hwire
  split_ifs at hchunk hwire <;> omega

end WatchingZenoh.FrameEncode
