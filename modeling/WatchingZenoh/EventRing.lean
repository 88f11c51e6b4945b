import WatchingZenoh.EventRingPair

/-! The event ring: one producer stores records of 32-bit words under a generation word per slot, and
readers copy them word by word between two loads of that generation. Every load and every store is a
step of its own, and the steps of the producer, of the consumer and of any number of readers are
interleaved in any order. -/

namespace WatchingZenoh.EventRing

open Words

inductive FullPolicy
  | overwriteOldest
  | dropNewest
  deriving DecidableEq, Repr

/-- The sizes `EventRing::new` accepts. -/
structure Shape where
  slots : ℕ
  args : ℕ
  policy : FullPolicy
  slots_pos : 0 < slots
  slots_lt : slots < 2 ^ 30
  args_le : args ≤ 255

inductive Word (args : ℕ)
  | seqLo
  | seqHi
  | info
  | tsLo
  | tsHi
  | argsLo (i : Fin args)
  | argsHi (i : Fin args)
  deriving DecidableEq

structure Record (args : ℕ) where
  sequence : ℕ
  level : UInt8
  source : UInt16
  timestamp : UInt64
  argCount : UInt8
  args : Fin args → UInt64

/-- What `push` is given. -/
structure Input where
  level : UInt8
  source : UInt16
  timestamp : UInt64
  args : List UInt64

inductive Read (args : ℕ)
  | record (r : Record args)
  | empty
  | lost (missed : ℕ)

section Words

variable {args : ℕ}

def used (args : ℕ) (input : Input) : ℕ := min input.args.length args

def argAt (input : Input) (i : Fin args) : UInt64 :=
  ((input.args.take (used args input))[i.val]?).getD 0

/-- The words of `fill`; `info` is `level | arg_count << 8 | source << 16`. -/
def wordOf (sequence : ℕ) (input : Input) : Word args → UInt32
  | .seqLo => low sequence
  | .seqHi => high sequence
  | .info => input.level.toUInt32 ||| (UInt32.ofNat (used args input) <<< 8) |||
      (input.source.toUInt32 <<< 16)
  | .tsLo => low input.timestamp.toNat
  | .tsHi => high input.timestamp.toNat
  | .argsLo i => low (argAt input i).toNat
  | .argsHi i => high (argAt input i).toNat

/-- The order of the stores of `fill`. -/
def fillOrder (args : ℕ) : List (Word args) :=
  [.seqLo, .seqHi, .info, .tsLo, .tsHi] ++
    (List.finRange args).flatMap fun i => [.argsLo i, .argsHi i]

/-- The order of the loads of `copy`. -/
def copyOrder (args : ℕ) : List (Word args) :=
  .info :: ((List.finRange args).flatMap fun i => [.argsHi i, .argsLo i]) ++
    [.seqHi, .seqLo, .tsHi, .tsLo]

/-- The record `copy` makes of the words it loaded. -/
def copied (got : Word args → UInt32) : Record args where
  sequence := joined (got .seqHi) (got .seqLo)
  level := (got .info).toUInt8
  argCount := (got .info >>> 8).toUInt8
  source := (got .info >>> 16).toUInt16
  timestamp := .ofNat (joined (got .tsHi) (got .tsLo))
  args i := .ofNat (joined (got (.argsHi i)) (got (.argsLo i)))

/-- The record stored under a sequence number. -/
def recordOf (sequence : ℕ) (input : Input) : Record args where
  sequence := sequence
  level := input.level
  source := input.source
  timestamp := input.timestamp
  argCount := .ofNat (used args input)
  args i := argAt input i

theorem mem_fillOrder (w : Word args) : w ∈ fillOrder args := by
  cases w <;> simp [fillOrder]

theorem mem_copyOrder (w : Word args) : w ∈ copyOrder args := by
  cases w <;> simp [copyOrder]

section Info

variable (level : UInt8) (count : UInt8) (source : UInt16)

theorem info_level :
    (level.toUInt32 ||| (count.toUInt32 <<< 8) ||| (source.toUInt32 <<< 16)).toUInt8 = level := by
  apply UInt8.toBitVec_inj.mp
  ext i hi
  simp

theorem info_argCount :
    ((level.toUInt32 ||| (count.toUInt32 <<< 8) ||| (source.toUInt32 <<< 16)) >>> 8).toUInt8 =
      count := by
  apply UInt8.toBitVec_inj.mp
  ext i hi
  have h₁ : 8 + i < 32 := by omega
  have h₂ : 8 + i < 16 := by omega
  simp [h₁, h₂, BitVec.getLsbD_eq_getElem hi]

theorem info_source :
    ((level.toUInt32 ||| (count.toUInt32 <<< 8) ||| (source.toUInt32 <<< 16)) >>> 16).toUInt16 =
      source := by
  apply UInt16.toBitVec_inj.mp
  ext i hi
  have h₁ : 16 + i < 32 := by omega
  have h₂ : i < 32 := by omega
  have hlevel : level.toBitVec.getLsbD (16 + i) = false := BitVec.getLsbD_of_ge _ _ (by omega)
  have hcount : count.toBitVec.getLsbD (16 + i - 8) = false := BitVec.getLsbD_of_ge _ _ (by omega)
  simp [h₁, h₂, hlevel, hcount, BitVec.getLsbD_eq_getElem hi]

end Info

theorem copied_wordOf (hargs : args ≤ 255) {sequence : ℕ} (hseq : sequence < 2 ^ 64)
    (input : Input) : copied (wordOf sequence input : Word args → UInt32) = recordOf sequence input := by
  have hcount : UInt32.ofNat (used args input) = (UInt8.ofNat (used args input)).toUInt32 := by
    have hle : used args input ≤ 255 := (min_le_right _ _).trans hargs
    apply UInt32.toNat_inj.mp
    simp only [UInt32.toNat_ofNat', UInt8.toNat_toUInt32, UInt8.toNat_ofNat']
    omega
  simp only [copied, recordOf, wordOf, hcount, info_level, info_argCount, info_source,
    joined_high_low hseq, ofNat_joined]

end Words

structure Slot (args : ℕ) where
  gen : UInt32
  words : Word args → UInt32

/-- The ring's memory. Only the slots below the slot count are used. -/
structure Ring (args : ℕ) where
  slots : ℕ → Slot args
  nextLo : UInt32
  nextHi : UInt32
  tailLo : UInt32
  tailHi : UInt32
  dropped : UInt32

/-- Where a `push` stands. -/
inductive Producing (args : ℕ)
  | idle
  | readingTail (input : Input) (loading : Loading)
  | dropping (seen : Option UInt32)
  | opening (input : Input)
  | filling (input : Input) (rest : List (Word args))
  | publishingLow
  | publishingHigh

/-- Where a `poll` stands: before its first load, before the load of the generation, in the copy, or
before the last load of `next`. -/
inductive Polling (args : ℕ)
  | idle
  | loadingGen
  | copying (before : UInt32) (rest : List (Word args)) (got : Word args → UInt32)
  | skipping

/-- A reader, with the cursor it started from and what its polls have returned. -/
structure Reader (args : ℕ) where
  start : ℕ
  cursor : ℕ
  polling : Polling args
  returned : List (Read args)

/-- Which word of the tail the consumer stores next. -/
inductive Freeing
  | none
  | low
  | high
  deriving DecidableEq

/-- The memory and the parties. `log` holds what was given for every record stored. -/
structure State (S : Shape) where
  ring : Ring S.args
  head : ℕ
  producing : Producing S.args
  log : List Input
  consumer : Reader S.args
  freeing : Freeing
  readers : ℕ → Option (Reader S.args)

inductive Action
  | push (input : Input)
  | produce
  | start (reader cursor : ℕ)
  | poll (reader : ℕ)
  | consume

section Steps

variable (S : Shape)

def lapOf (sequence : ℕ) : UInt32 := low (sequence / S.slots)

/-- The generation of a slot while a record is written to it, and after. -/
def genOdd (sequence : ℕ) : UInt32 := lapOf S sequence * 2 + 1

def genEven (sequence : ℕ) : UInt32 := lapOf S sequence * 2 + 2

def Reader.fresh (cursor : ℕ) : Reader S.args := ⟨cursor, cursor, .idle, []⟩

def State.init : State S where
  ring := ⟨fun _ => ⟨0, fun _ => 0⟩, 0, 0, 0, 0, 0⟩
  head := 0
  producing := .idle
  log := []
  consumer := .fresh S 0
  freeing := .none
  readers _ := none

variable {S}

def Ring.slotOf (ring : Ring S.args) (sequence : ℕ) : Slot S.args := ring.slots (sequence % S.slots)

def Ring.setSlot (ring : Ring S.args) (sequence : ℕ) (slot : Slot S.args) : Ring S.args :=
  { ring with slots := Function.update ring.slots (sequence % S.slots) slot }

/-- The next load of a `poll`, or its first. -/
def Reader.step (ring : Ring S.args) (r : Reader S.args) : Reader S.args :=
  let returns := fun (cursor : ℕ) (read : Read S.args) =>
    { r with cursor := cursor, polling := .idle, returned := r.returned ++ [read] }
  match r.polling with
  | .idle =>
    if signed (ring.nextLo - low r.cursor) ≤ 0 then returns r.cursor .empty
    else { r with polling := .loadingGen }
  | .loadingGen =>
    let before := (ring.slotOf r.cursor).gen
    let distance := signed (before - genEven S r.cursor)
    if distance < 0 then returns r.cursor .empty
    else if distance = 0 then
      { r with polling := .copying before (copyOrder S.args) fun _ => 0 }
    else { r with polling := .skipping }
  | .copying before (w :: rest) got =>
    { r with polling :=
      .copying before rest (Function.update got w ((ring.slotOf r.cursor).words w)) }
  | .copying before [] got =>
    if (ring.slotOf r.cursor).gen = before ∧ (copied got).sequence = r.cursor then
      returns (r.cursor + 1) (.record (copied got))
    else { r with polling := .skipping }
  | .skipping =>
    let ahead := signed (ring.nextLo - low r.cursor)
    let skip := (max (ahead - S.slots) 1).toNat
    returns (r.cursor + skip) (.lost skip)

/-- The next load or store of a `push`. The generation that completes a record and the producer's own
head change in one step: nobody else reads the head. -/
def State.produce (s : State S) : State S :=
  match s.producing with
  | .idle => s
  | .readingTail input loading =>
    match loading.step s.ring.tailLo s.ring.tailHi with
    | .done tail =>
      { s with producing := if refuses S.slots s.head tail then .dropping none else .opening input }
    | loading => { s with producing := .readingTail input loading }
  | .dropping none => { s with producing := .dropping (some s.ring.dropped) }
  | .dropping (some seen) =>
    { s with
      producing := .idle
      ring := { s.ring with dropped := .ofNat (min (seen.toNat + 1) (2 ^ 32 - 1)) } }
  | .opening input =>
    { s with
      producing := .filling input (fillOrder S.args)
      ring := s.ring.setSlot s.head ⟨genOdd S s.head, (s.ring.slotOf s.head).words⟩ }
  | .filling input (w :: rest) =>
    { s with
      producing := .filling input rest
      ring := s.ring.setSlot s.head ⟨(s.ring.slotOf s.head).gen,
        Function.update (s.ring.slotOf s.head).words w (wordOf s.head input w)⟩ }
  | .filling input [] =>
    { s with
      producing := .publishingLow
      ring := s.ring.setSlot s.head ⟨genEven S s.head, (s.ring.slotOf s.head).words⟩
      head := s.head + 1
      log := s.log ++ [input] }
  | .publishingLow =>
    { s with producing := .publishingHigh, ring := { s.ring with nextLo := low s.head } }
  | .publishingHigh =>
    { s with producing := .idle, ring := { s.ring with nextHi := high s.head } }

/-- The next step of the consumer: of its `poll`, and then of the store of the tail. -/
def State.consume (s : State S) : State S :=
  match s.freeing with
  | .none =>
    let r := s.consumer.step s.ring
    { s with
      consumer := r
      freeing := match r.polling with | .idle => .low | _ => .none }
  | .low =>
    { s with freeing := .high, ring := { s.ring with tailLo := low s.consumer.cursor } }
  | .high =>
    { s with freeing := .none, ring := { s.ring with tailHi := high s.consumer.cursor } }

/-- One step of one party; a step that is not possible changes nothing. A push needs a next sequence
number below `2^64`, and a reader starts at a cursor that is not ahead of the stored count. -/
def State.step (s : State S) : Action → State S
  | .push input =>
    match s.producing with
    | .idle =>
      if s.head + 1 < 2 ^ 64 then
        { s with producing :=
          if S.policy = .dropNewest then .readingTail input .start else .opening input }
      else s
    | _ => s
  | .produce => s.produce
  | .start i cursor =>
    if s.readers i = none ∧ cursor ≤ s.head then
      { s with readers := Function.update s.readers i (some (.fresh S cursor)) }
    else s
  | .poll i =>
    match s.readers i with
    | some r => { s with readers := Function.update s.readers i (some (r.step s.ring)) }
    | none => s
  | .consume => s.consume

def State.run (s : State S) (actions : List Action) : State S := actions.foldl State.step s

end Steps

end WatchingZenoh.EventRing
