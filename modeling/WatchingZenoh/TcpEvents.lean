import WatchingZenoh.TcpReassembly

/-! Segments cut from one stream below `2^31` bytes, and what an assembler that takes one of them knows
of the stream: where it starts, and which stretches of it have arrived. -/

namespace WatchingZenoh.Tcp

open Words StreamAssembler

/-- What a sender wrote: a stream below `2^31` bytes. -/
structure SentStream where
  bytes : Bytes
  short : bytes.length < 2 ^ 31

/-- A segment with the stretch `first..last` of the stream, which stands nowhere else or also in the
container. -/
structure Cut (S : SentStream) (container : Option Bytes) where
  first : ℕ
  last : ℕ
  first_le : first ≤ last
  last_le : last ≤ S.bytes.length
  fin : Bool
  rst : Bool
  packetIndex : ℕ
  atNs : Option ℕ
  located : PayloadAt
  stands : ∀ pos, located = .container pos → ∃ held, container = some held ∧
    ∀ i, i < last - first → held[pos + i]? = S.bytes[first + i]?

inductive Event (S : SentStream) (container : Option Bytes)
  | syn (fin rst : Bool) (packetIndex : ℕ)
  | cut (c : Cut S container)
  | forceOldestGap
  | trim (keep : ℕ)

section Events

variable {S : SentStream} {container : Option Bytes} (origin : UInt32)

def Cut.payload (c : Cut S container) : Bytes := (S.bytes.take c.last).drop c.first

def Cut.segment (c : Cut S container) : Segment :=
  ⟨seqAt origin c.first, false, c.fin, c.rst, c.payload, c.packetIndex⟩

/-- A SYN carries the sequence number before the stream's first byte. -/
def Event.apply (s : StreamAssembler) : Event S container → StreamAssembler
  | .syn fin rst packetIndex =>
    (s.pushLocated ⟨origin - 1, true, fin, rst, [], packetIndex⟩ none .here).1
  | .cut c => (s.pushLocated (c.segment origin) c.atNs c.located).1
  | .forceOldestGap => s.forceOldestGap.1
  | .trim keep => (s.trim keep).1

/-- The stretches of the data segments pushed. -/
def cutsOf (events : List (Event S container)) : List (ℕ × ℕ) := events.filterMap fun
  | .cut c => if c.first < c.last then some (c.first, c.last) else none
  | _ => none

/-- The position of offset 0: the stream's first byte after a SYN, else the first data byte seen. -/
def baseOf : List (Event S container) → ℕ
  | [] => 0
  | .syn _ _ _ :: _ => 0
  | .cut c :: events => if c.first < c.last then c.first else baseOf events
  | _ :: events => baseOf events

def synced : List (Event S container) → Bool
  | [] => false
  | .syn _ _ _ :: _ => true
  | .cut c :: events => decide (c.first < c.last) || synced events
  | _ :: events => synced events

theorem synced_append (past : List (Event S container)) (e : Event S container) :
    synced (past ++ [e]) = (synced past || synced [e]) := by
  induction past with
  | nil => rfl
  | cons d past ih => cases d <;> simp only [List.cons_append, synced, ih, Bool.or_assoc,
      Bool.true_or]

theorem baseOf_append (past : List (Event S container)) (e : Event S container) :
    baseOf (past ++ [e]) = if synced past then baseOf past else baseOf [e] := by
  induction past with
  | nil => rfl
  | cons d past ih =>
    cases d with
    | syn fin rst packetIndex => rfl
    | cut c =>
      by_cases hlt : c.first < c.last
      · simp [baseOf, synced, hlt]
      · simpa [baseOf, synced, hlt] using ih
    | forceOldestGap => exact ih
    | trim keep => exact ih

theorem baseOf_of_not_synced {past : List (Event S container)} (h : ¬ synced past) :
    baseOf past = 0 := by
  induction past with
  | nil => rfl
  | cons d past ih =>
    cases d with
    | syn fin rst packetIndex => exact absurd rfl h
    | cut c =>
      by_cases hlt : c.first < c.last
      · simp [synced, hlt] at h
      · rw [synced, decide_eq_false hlt, Bool.false_or] at h
        rw [baseOf, if_neg hlt, ih h]
    | forceOldestGap => exact ih h
    | trim keep => exact ih h

theorem cutsOf_append (past : List (Event S container)) (e : Event S container) :
    cutsOf (past ++ [e]) = cutsOf past ++ cutsOf [e] := by
  simp [cutsOf, List.filterMap_append]

end Events

section Spec

variable {S : SentStream} {container : Option Bytes} {origin : UInt32} {base n : ℕ}
  {cuts : List (ℕ × ℕ)} {s : StreamAssembler}

def Cut.placed (c : Cut S container) : Payload :=
  match c.located with
  | .here => .here c.payload
  | .container pos => .container pos c.payload.length

theorem Cut.length_payload (c : Cut S container) : c.payload.length = c.last - c.first := by
  have := c.last_le
  simp [Cut.payload]
  omega

theorem Cut.isCut (c : Cut S container) (hlt : c.first < c.last) :
    IsCut S.bytes container c.placed c.first c.last := by
  have hlen := c.length_payload
  have hread : ∀ i, i < c.last - c.first → c.payload[i]? = S.bytes[c.first + i]? := by
    intro i hi
    rw [Cut.payload, List.getElem?_drop, List.getElem?_take_of_lt (by omega)]
  refine ⟨hlt, c.last_le, ?_, fun i hi => ?_⟩
  · rw [Cut.placed]
    split <;> exact hlen
  · have hsome := List.getElem?_eq_getElem (by have := c.last_le; omega :
      c.first + i < S.bytes.length)
    refine ⟨_, hsome, ?_⟩
    rw [Cut.placed]
    split
    · exact (hread i hi).trans hsome
    · next pos hpos =>
      obtain ⟨held, hheld, hstands⟩ := c.stands pos hpos
      exact ⟨by omega, held, hheld, (hstands i hi).trans hsome⟩

/-- What is known of the assembler after a step: where it stands and what is held. -/
def Stands (S : SentStream) (container : Option Bytes) (origin : UInt32) (base : ℕ)
    (cuts : List (ℕ × ℕ)) (s : StreamAssembler) : Prop :=
  ∃ n, Taken S.bytes container origin base n cuts s ∧
    Waiting S.bytes container origin n cuts s.pending ∧ Settled origin n s.pending

theorem stands_drain (h : Taken S.bytes container origin base n cuts s)
    (hw : Waiting S.bytes container origin n cuts s.pending) (outcome : SegmentOutcome) :
    Stands S container origin base cuts (s.count outcome).drainPending.forceStaleGap := by
  have hcount : Taken S.bytes container origin base n cuts (s.count outcome) ∧
      (s.count outcome).pending = s.pending := by
    cases outcome <;> exact ⟨h.of_eq rfl rfl rfl rfl rfl rfl rfl rfl, rfl⟩
  obtain ⟨n₁, -, ht₁, hw₁, hset₁, -⟩ := drainPending_spec S.short hcount.1
    (by rw [hcount.2]; exact hw)
  exact forceStaleGap_spec S.short ht₁ hw₁ hset₁

theorem stands_absorb (h : Taken S.bytes container origin base n cuts s)
    (hw : Waiting S.bytes container origin n cuts s.pending) {a b : ℕ} {payload : Payload}
    (hcut : IsCut S.bytes container payload a b) (packetIndex : ℕ) (atNs : Option ℕ) :
    Stands S container origin base (cuts ++ [(a, b)])
      (((s.absorb (seqAt origin n) (seqAt origin a) payload packetIndex atNs).1.count
        (s.absorb (seqAt origin n) (seqAt origin a) payload packetIndex atNs).2
        ).drainPending.forceStaleGap) := by
  have hS := S.short
  have hlt := hcut.lt
  have hle := hcut.le
  have hcuts : cuts ⊆ cuts ++ [(a, b)] := List.subset_append_left _ _
  have hshort : ∀ c ∈ cuts ++ [(a, b)], c.1 < c.2 ∧ c.2 ≤ S.bytes.length := by
    intro c hc
    rcases List.mem_append.mp hc with hc | hc
    · exact hw.short c hc
    · cases List.mem_singleton.mp hc
      exact ⟨hlt, hle⟩
  have hpending : ∀ g ∈ s.pending, ∃ c ∈ cuts ++ [(a, b)], g.seq = seqAt origin c.1 ∧
      IsCut S.bytes container g.payload c.1 c.2 := by
    intro g hg
    obtain ⟨c, hc, hmatch⟩ := hw.pending g hg
    exact ⟨c, hcuts hc, hmatch⟩
  rcases Nat.lt_or_ge n a with hahead | hbehind
  · rw [absorb_ahead hS h.bound (by omega) hahead]
    have hheld : Taken S.bytes container origin base n (cuts ++ [(a, b)]) { s with
        pending := s.pending ++ [⟨seqAt origin a, packetIndex, payload, s.segmentsPushed, atNs⟩] } :=
      (h.mono hcuts).of_eq rfl rfl rfl rfl rfl rfl rfl rfl
    refine stands_drain hheld ⟨fun g hg => ?_, fun c hc => ?_, hshort⟩ _
    · rcases List.mem_append.mp hg with hg | hg
      · exact hpending g hg
      · cases List.mem_singleton.mp hg
        exact ⟨(a, b), by simp, rfl, hcut⟩
    · rcases List.mem_append.mp hc with hc | hc
      · refine (hw.waits c hc).imp_right ?_
        rintro ⟨g, hg, hmatch⟩
        exact ⟨g, List.mem_append_left _ hg, hmatch⟩
      · cases List.mem_singleton.mp hc
        exact .inr ⟨_, List.mem_append_right _ (List.mem_singleton_self _), rfl, hcut.len⟩
  · rcases Nat.lt_or_ge n b with hfresh | hdone
    · obtain ⟨ht, hpend, -⟩ := (h.mono hcuts).absorb hS hcut (by simp) hbehind hfresh packetIndex
        atNs
      refine stands_drain ht ⟨by rw [hpend]; exact hpending, fun c hc => ?_, hshort⟩ _
      rw [hpend]
      rcases List.mem_append.mp hc with hc | hc
      · exact (hw.waits c hc).imp_left fun hc => by omega
      · cases List.mem_singleton.mp hc
        exact .inl le_rfl
    · rw [absorb_behind hS h.bound hcut hdone]
      refine stands_drain (h.mono hcuts) ⟨hpending, fun c hc => ?_, hshort⟩ _
      rcases List.mem_append.mp hc with hc | hc
      · exact hw.waits c hc
      · cases List.mem_singleton.mp hc
        exact .inl hdone

end Spec

end WatchingZenoh.Tcp
