import Mathlib

/-! The hybrid logical clock: one atomic word that concurrent calls advance by compare-and-swap. A call
goes through its loop step by step, with the steps of other calls in between, and an exchange may fail
for no reason. The low bits of the word are a counter, which a reading of the clock comes without. -/

namespace WatchingZenoh.Hlc

def counterBits : UInt64 := 4

def counterMask : UInt64 := ((1 : UInt64) <<< counterBits) - 1

def timeMask : UInt64 := ~~~counterMask

def maxWord : UInt64 := 0xFFFFFFFFFFFFFFFF

def saturatingSucc (word : UInt64) : UInt64 := if word = maxWord then word else word + 1

/-- The stamp for a reading after the last one. -/
def nextStamp (now last : UInt64) : UInt64 :=
  let now := now &&& timeMask
  if last &&& timeMask < now then now else saturatingSucc last

/-- Whether a remote time is too far ahead of a reading. -/
def forwardStepRefused (now remote maxDelta : UInt64) : Bool :=
  let now := now &&& timeMask
  now < remote && maxDelta < remote - now

/-- The word after a remote time has been taken in. -/
def absorb (now remote last : UInt64) : UInt64 :=
  let now := now &&& timeMask
  let largest := max (max now remote) last
  if largest = now then now
  else if largest = remote then saturatingSucc remote
  else saturatingSucc last

inductive Op
  | newTimestamp (now : UInt64)
  | updateWithTimestamp (now remote maxDelta : UInt64)

inductive Outcome
  | stamp (word : UInt64)
  | absorbed
  | refused
  deriving DecidableEq

namespace Op

def refuses : Op → Bool
  | .newTimestamp _ => false
  | .updateWithTimestamp now remote maxDelta => forwardStepRefused now remote maxDelta

def next : Op → UInt64 → UInt64
  | .newTimestamp now, last => nextStamp now last
  | .updateWithTimestamp now remote _, last => absorb now remote last

def outcome : Op → UInt64 → Outcome
  | .newTimestamp now, last => .stamp (nextStamp now last)
  | .updateWithTimestamp .., _ => .absorbed

/-- The reading, or the reading and the delta of an update. -/
def reach : Op → ℕ
  | .newTimestamp now => now.toNat
  | .updateWithTimestamp now _ maxDelta => now.toNat + maxDelta.toNat

end Op

/-- Where a call stands: before it reads the word, in its loop with the word it saw last, through with
it, or returned. -/
inductive Phase
  | begun
  | looping (seen : UInt64)
  | settled (outcome : Outcome)
  | returned (outcome : Outcome)

def Phase.outcome? : Phase → Option Outcome
  | .settled outcome => some outcome
  | .returned outcome => some outcome
  | _ => none

structure Call where
  op : Op
  phase : Phase

/-- The word, and the calls so far in the order they began. -/
structure HlcCore where
  last : UInt64 := 0
  calls : List Call := []

inductive Move
  | invoke (op : Op)
  | advance (i : ℕ) (fails : Bool)

namespace HlcCore

def setPhase (c : HlcCore) (i : ℕ) (op : Op) (phase : Phase) : HlcCore :=
  { c with calls := c.calls.set i ⟨op, phase⟩ }

def step (c : HlcCore) : Move → Option HlcCore
  | .invoke op => some { c with calls := c.calls ++ [⟨op, .begun⟩] }
  | .advance i fails =>
    match c.calls[i]? with
    | some ⟨op, .begun⟩ =>
      if op.refuses then some (c.setPhase i op (.settled .refused))
      else some (c.setPhase i op (.looping c.last))
    | some ⟨op, .looping seen⟩ =>
      if seen = c.last && !fails then
        some { c.setPhase i op (.settled (op.outcome seen)) with last := op.next seen }
      else some (c.setPhase i op (.looping c.last))
    | some ⟨op, .settled outcome⟩ => some (c.setPhase i op (.returned outcome))
    | _ => none

def run (c : HlcCore) (moves : List Move) : Option HlcCore := moves.foldlM step c

def outcome? (c : HlcCore) (i : ℕ) : Option Outcome := c.calls[i]?.bind fun call => call.phase.outcome?

def op? (c : HlcCore) (i : ℕ) : Option Op := c.calls[i]?.map Call.op

def settledCalls (c : HlcCore) : ℕ := c.calls.countP fun call => call.phase.outcome?.isSome

/-- The largest reading, or reading and delta, of the calls so far. -/
def peak (c : HlcCore) : ℕ := ((c.calls.map Call.op).map Op.reach).foldr max 0

end HlcCore

theorem toNat_and_timeMask (word : UInt64) : (word &&& timeMask).toNat = word.toNat / 16 * 16 := by
  rw [UInt64.toNat_and, show timeMask.toNat = 2 ^ 64 - (15 + 1) by decide +kernel]
  refine Nat.eq_of_testBit_eq fun i => ?_
  have hlow : Nat.testBit 15 i = decide (i < 4) := Nat.testBit_two_pow_sub_one 4 i
  have hdiv : word.toNat / 16 = word.toNat >>> 4 := by rw [Nat.shiftRight_eq_div_pow]
  rw [Nat.testBit_and, Nat.testBit_two_pow_sub_succ (by decide), hlow, hdiv,
    show (16 : ℕ) = 2 ^ 4 by decide, Nat.testBit_mul_two_pow, Nat.testBit_shiftRight]
  by_cases hi : i < 4
  · simp [hi]
  rw [show 4 + (i - 4) = i by omega]
  by_cases h64 : i < 64
  · simp [hi, h64, Nat.not_lt.mp hi]
  · have hpow : word.toNat < 2 ^ i :=
      word.toNat_lt.trans_le (Nat.pow_le_pow_right (by decide) (by omega))
    simp [Nat.testBit_lt_two_pow hpow]

theorem toNat_saturatingSucc (word : UInt64) :
    (saturatingSucc word).toNat = min (word.toNat + 1) (2 ^ 64 - 1) := by
  have hlt := word.toNat_lt
  rw [saturatingSucc]
  split_ifs with hmax
  · rw [hmax]
    decide
  · have hne : word.toNat ≠ 2 ^ 64 - 1 := fun h => hmax (UInt64.toNat_inj.mp h)
    rw [UInt64.toNat_add, UInt64.toNat_one, Nat.mod_eq_of_lt (by omega)]
    omega

theorem ne_maxWord {word : UInt64} (h : word ≠ maxWord) : word.toNat < 2 ^ 64 - 1 := by
  have hlt := word.toNat_lt
  have hne : word.toNat ≠ 2 ^ 64 - 1 := fun heq => h (UInt64.toNat_inj.mp heq)
  omega

/-- A stamp is above the last one, unless that was the greatest word; it is the reading or one more
than the last. -/
theorem nextStamp_spec (now last : UInt64) :
    (last ≠ maxWord → last.toNat < (nextStamp now last).toNat) ∧
      last.toNat ≤ (nextStamp now last).toNat ∧
      (nextStamp now last).toNat ≤ max now.toNat last.toNat + 1 := by
  have hsucc := toNat_saturatingSucc last
  have hnow := toNat_and_timeMask now
  have hlast := toNat_and_timeMask last
  have hlt := last.toNat_lt
  rw [nextStamp]
  split_ifs with habove
  · rw [UInt64.lt_iff_toNat_lt] at habove
    omega
  · refine ⟨fun hne => ?_, by omega, by omega⟩
    have := ne_maxWord hne
    omega

/-- The word does not fall, is not below the remote time that was taken in, and is at most one more
than the largest of the word, the reading and the reading and the delta. -/
theorem absorb_spec {now remote maxDelta : UInt64} (last : UInt64)
    (haccepted : forwardStepRefused now remote maxDelta = false) :
    last.toNat ≤ (absorb now remote last).toNat ∧ remote.toNat ≤ (absorb now remote last).toNat ∧
      (absorb now remote last).toNat ≤ max (now.toNat + maxDelta.toNat) last.toNat + 1 := by
  have hnow := toNat_and_timeMask now
  have hremote := toNat_saturatingSucc remote
  have hlast := toNat_saturatingSucc last
  have hlt := last.toNat_lt
  have hlt' := remote.toNat_lt
  have hnear : remote.toNat ≤ (now &&& timeMask).toNat ∨
      remote.toNat ≤ (now &&& timeMask).toNat + maxDelta.toNat := by
    by_contra hcon
    have hfar : (now &&& timeMask).toNat < remote.toNat := by omega
    have hsub : (remote - (now &&& timeMask)).toNat = remote.toNat - (now &&& timeMask).toNat :=
      UInt64.toNat_sub_of_le _ _ (UInt64.le_iff_toNat_le.mpr hfar.le)
    have hrefused : forwardStepRefused now remote maxDelta = true := by
      rw [forwardStepRefused, Bool.and_eq_true, decide_eq_true_eq, decide_eq_true_eq,
        UInt64.lt_iff_toNat_lt, UInt64.lt_iff_toNat_lt, hsub]
      omega
    rw [haccepted] at hrefused
    cases hrefused
  have hmax : (max (max (now &&& timeMask) remote) last).toNat =
      max (max (now &&& timeMask).toNat remote.toNat) last.toNat := by
    have hcast : ∀ a b : UInt64, (max a b).toNat = max a.toNat b.toNat := by
      intro a b
      rw [UInt64.max_def]
      split_ifs with hle <;> rw [UInt64.le_iff_toNat_le] at hle <;> omega
    rw [hcast, hcast]
  rw [absorb]
  split_ifs with hisNow hisRemote
  · rw [← UInt64.toNat_inj, hmax] at hisNow
    omega
  · rw [← UInt64.toNat_inj, hmax] at hisRemote
    omega
  · rw [← UInt64.toNat_inj, hmax] at hisNow hisRemote
    omega

namespace HlcCore

variable {c c' : HlcCore}

inductive Stepped (c : HlcCore) : HlcCore → Prop
  | invoke (op : Op) : Stepped c { c with calls := c.calls ++ [⟨op, .begun⟩] }
  | refuse {i : ℕ} {op : Op} (hcall : c.calls[i]? = some ⟨op, .begun⟩) (hrefuses : op.refuses = true) :
    Stepped c (c.setPhase i op (.settled .refused))
  | load {i : ℕ} {op : Op} {phase : Phase} (hcall : c.calls[i]? = some ⟨op, phase⟩)
    (hpending : phase.outcome? = none) (haccepted : phase = .begun → op.refuses = false) :
    Stepped c (c.setPhase i op (.looping c.last))
  | exchange {i : ℕ} {op : Op} (hcall : c.calls[i]? = some ⟨op, .looping c.last⟩) :
    Stepped c { c.setPhase i op (.settled (op.outcome c.last)) with last := op.next c.last }
  | finish {i : ℕ} {op : Op} {outcome : Outcome} (hcall : c.calls[i]? = some ⟨op, .settled outcome⟩) :
    Stepped c (c.setPhase i op (.returned outcome))

theorem stepped_of_step {move : Move} (h : c.step move = some c') : Stepped c c' := by
  cases move with
  | invoke op =>
    cases h
    exact .invoke op
  | advance i fails =>
    simp only [step] at h
    split at h
    · next op hcall =>
      split_ifs at h with hrefuses
      · cases h
        exact .refuse hcall hrefuses
      · cases h
        exact .load hcall rfl fun _ => Bool.eq_false_iff.mpr hrefuses
    · next op seen hcall =>
      split_ifs at h with hseen
      · obtain rfl : seen = c.last := of_decide_eq_true (Bool.and_eq_true _ _ ▸ hseen).1
        cases h
        exact .exchange hcall
      · cases h
        exact .load hcall rfl fun hphase => by cases hphase
    · next op outcome hcall =>
      cases h
      exact .finish hcall
    · cases h

theorem outcome?_setPhase {i : ℕ} {op : Op} {phase phase' : Phase}
    (hcall : c.calls[i]? = some ⟨op, phase⟩) (j : ℕ) :
    (c.setPhase i op phase').outcome? j = if j = i then phase'.outcome? else c.outcome? j := by
  have hlt : i < c.calls.length := (List.getElem?_eq_some_iff.mp hcall).1
  rw [outcome?, setPhase, List.getElem?_set]
  by_cases hj : i = j
  · subst hj
    simp [hlt]
  · simp [hj, Ne.symm hj, outcome?]

theorem ops_setPhase {i : ℕ} {op : Op} {phase phase' : Phase}
    (hcall : c.calls[i]? = some ⟨op, phase⟩) :
    (c.setPhase i op phase').calls.map Call.op = c.calls.map Call.op := by
  refine List.ext_getElem? fun j => ?_
  rw [setPhase, List.map_set, List.getElem?_set]
  split_ifs with hj hlt
  · subst hj
    rw [List.getElem?_map, hcall, Option.map_some]
  · subst hj
    exact absurd (by simpa using (List.getElem?_eq_some_iff.mp hcall).1) hlt
  · rfl

theorem op?_setPhase {i : ℕ} {op : Op} {phase phase' : Phase}
    (hcall : c.calls[i]? = some ⟨op, phase⟩) (j : ℕ) :
    (c.setPhase i op phase').op? j = c.op? j := by
  rw [op?, op?, ← List.getElem?_map, ← List.getElem?_map, ops_setPhase hcall]

theorem settledCalls_setPhase {i : ℕ} {op : Op} {phase : Phase} (phase' : Phase)
    (hcall : c.calls[i]? = some ⟨op, phase⟩) :
    (c.setPhase i op phase').settledCalls + (if phase.outcome?.isSome then 1 else 0) =
      c.settledCalls + (if phase'.outcome?.isSome then 1 else 0) := by
  obtain ⟨hlt, heq⟩ := List.getElem?_eq_some_iff.mp hcall
  have hpos : phase.outcome?.isSome → 0 < c.calls.countP fun call => call.phase.outcome?.isSome := by
    intro hsome
    exact List.countP_pos_iff.mpr ⟨⟨op, phase⟩, List.mem_of_getElem? hcall, hsome⟩
  rw [settledCalls, setPhase, List.countP_set hlt, heq, settledCalls]
  split_ifs with hold hnew <;> simp_all

theorem reach_le_peak {i : ℕ} {op : Op} {phase : Phase} (hcall : c.calls[i]? = some ⟨op, phase⟩) :
    op.reach ≤ c.peak := by
  have hmem : op.reach ∈ (c.calls.map Call.op).map Op.reach :=
    List.mem_map_of_mem (List.mem_map_of_mem (f := Call.op) (List.mem_of_getElem? hcall))
  rw [peak]
  generalize (c.calls.map Call.op).map Op.reach = reaches at hmem
  induction reaches with
  | nil => cases hmem
  | cons r reaches ih =>
    rcases List.mem_cons.mp hmem with h | h
    · rw [h]
      exact le_max_left _ _
    · exact (ih h).trans (le_max_right _ _)

structure Sound (c : HlcCore) : Prop where
  accepted : ∀ (i : ℕ) (op : Op) (seen : UInt64), c.calls[i]? = some ⟨op, .looping seen⟩ →
    op.refuses = false
  stamped : ∀ i t, c.outcome? i = some (.stamp t) → t.toNat ≤ c.last.toNat
  distinct : c.last ≠ maxWord → ∀ i j t, c.outcome? i = some (.stamp t) →
    c.outcome? j = some (.stamp t) → i = j
  absorbed : ∀ i now remote maxDelta, c.op? i = some (.updateWithTimestamp now remote maxDelta) →
    c.outcome? i = some .absorbed → remote.toNat ≤ c.last.toNat
  bounded : c.last.toNat ≤ c.peak + c.settledCalls

theorem sound_new : Sound {} where
  accepted := by simp
  stamped := by simp [outcome?]
  distinct := by simp [outcome?]
  absorbed := by simp [outcome?]
  bounded := by simp

/-- The word only rises, what a call came to stays, and a stamp made since is above the word before. -/
structure Later (c c' : HlcCore) : Prop where
  last_le : c.last.toNat ≤ c'.last.toNat
  op?_eq : ∀ i op, c.op? i = some op → c'.op? i = some op
  outcome?_eq : ∀ i outcome, c.outcome? i = some outcome → c'.outcome? i = some outcome
  above : c'.last ≠ maxWord → ∀ i t, c.outcome? i = none → c'.outcome? i = some (.stamp t) →
    c.last.toNat < t.toNat

theorem Sound.idle (h : Sound c) (hlast : c'.last = c.last)
    (haccepted : ∀ (i : ℕ) (op : Op) (seen : UInt64),
      c'.calls[i]? = some ⟨op, .looping seen⟩ → op.refuses = false)
    (hops : ∀ i op, c.op? i = some op → c'.op? i = some op)
    (houtcome : ∀ i outcome, c'.outcome? i = some outcome →
      outcome = .refused ∨ (c.outcome? i = some outcome ∧ c'.op? i = c.op? i))
    (hkept : ∀ i outcome, c.outcome? i = some outcome → c'.outcome? i = some outcome)
    (hpeak : c.peak ≤ c'.peak) (hsettled : c.settledCalls ≤ c'.settledCalls) :
    Sound c' ∧ Later c c' := by
  have hstamp : ∀ i t, c'.outcome? i = some (.stamp t) → c.outcome? i = some (.stamp t) := by
    intro i t ht
    rcases houtcome i _ ht with hrefused | hsame
    · cases hrefused
    · exact hsame.1
  refine ⟨⟨haccepted, fun i t ht => ?_, fun hmax i j t hi hj => ?_, fun i now remote maxDelta hop ho => ?_,
    ?_⟩, ⟨hlast ▸ le_rfl, hops, hkept, fun _ i t hnone ht => ?_⟩⟩
  · rw [hlast]
    exact h.stamped i t (hstamp i t ht)
  · exact h.distinct (hlast ▸ hmax) i j t (hstamp i t hi) (hstamp j t hj)
  · rcases houtcome i _ ho with hrefused | ⟨hsame, hsameOp⟩
    · cases hrefused
    · rw [hlast]
      exact h.absorbed i now remote maxDelta (hsameOp ▸ hop) hsame
  · have := h.bounded
    rw [hlast]
    omega
  · rw [hstamp i t ht] at hnone
    cases hnone

theorem looping_setPhase {i j : ℕ} {op op' : Op} {phase' : Phase} {seen : UInt64}
    (h : (c.setPhase i op phase').calls[j]? = some ⟨op', .looping seen⟩) :
    c.calls[j]? = some ⟨op', .looping seen⟩ ∨ (op' = op ∧ phase' = .looping seen) := by
  rw [setPhase, List.getElem?_set] at h
  split_ifs at h with hj
  · cases h
    exact .inr ⟨rfl, rfl⟩
  · exact .inl h

theorem Sound.setPhase (h : Sound c) {i : ℕ} {op : Op} {phase phase' : Phase}
    (hcall : c.calls[i]? = some ⟨op, phase⟩)
    (hphase : phase'.outcome? = phase.outcome? ∨
      (phase.outcome? = none ∧ phase'.outcome? = some .refused))
    (hlooping : ∀ seen, phase' = .looping seen → op.refuses = false) :
    Sound (c.setPhase i op phase') ∧ Later c (c.setPhase i op phase') := by
  have hcurrent : c.outcome? i = phase.outcome? := by rw [outcome?, hcall, Option.bind_some]
  have hcount := settledCalls_setPhase phase' hcall
  refine h.idle rfl (fun j op' seen hj => ?_) (fun j op' hop => ?_) (fun j outcome hj => ?_)
    (fun j outcome hj => ?_) (by rw [peak, peak, ops_setPhase hcall]) ?_
  · rcases looping_setPhase hj with hj | ⟨rfl, hseen⟩
    · exact h.accepted j op' seen hj
    · exact hlooping seen hseen
  · rw [op?_setPhase hcall, hop]
  · rw [outcome?_setPhase hcall] at hj
    rw [op?_setPhase hcall]
    split_ifs at hj with heq
    · subst heq
      rcases hphase with hsame | ⟨-, hrefused⟩
      · exact .inr ⟨by rw [hcurrent, ← hsame, hj], rfl⟩
      · exact .inl (Option.some_inj.mp (hj.symm.trans hrefused))
    · exact .inr ⟨hj, rfl⟩
  · rw [outcome?_setPhase hcall]
    split_ifs with heq
    · subst heq
      rw [hcurrent] at hj
      rcases hphase with hsame | ⟨hnone, -⟩
      · rw [hsame, hj]
      · rw [hnone] at hj
        cases hj
    · exact hj
  · rcases hphase with hsame | ⟨hnone, hrefused⟩
    · rw [hsame] at hcount
      omega
    · rw [hnone, hrefused] at hcount
      simp only [Option.isSome_none, Option.isSome_some, Bool.false_eq_true, ↓reduceIte] at hcount
      omega

/-- The word does not fall where a call exchanges it, and it rises by at most one above what the call
may reach. -/
theorem next_spec {op : Op} (haccepted : op.refuses = false) (last : UInt64) :
    last.toNat ≤ (op.next last).toNat ∧ (op.next last).toNat ≤ max op.reach last.toNat + 1 := by
  cases op with
  | newTimestamp now => exact (nextStamp_spec now last).2
  | updateWithTimestamp now remote maxDelta =>
    obtain ⟨hlast, -, hbound⟩ := absorb_spec last haccepted
    exact ⟨hlast, hbound⟩

theorem Sound.exchange (h : Sound c) {i : ℕ} {op : Op}
    (hcall : c.calls[i]? = some ⟨op, .looping c.last⟩) :
    let c' := { c.setPhase i op (.settled (op.outcome c.last)) with last := op.next c.last }
    Sound c' ∧ Later c c' := by
  intro c'
  have haccepted := h.accepted i op c.last hcall
  obtain ⟨hrise, hbound⟩ := next_spec haccepted c.last
  have hpending : c.outcome? i = none := by rw [outcome?, hcall]; rfl
  have hop : c.op? i = some op := by rw [op?, hcall]; rfl
  have hops : ∀ j, c'.op? j = c.op? j := op?_setPhase hcall
  have houtcome : ∀ j, c'.outcome? j = if j = i then some (op.outcome c.last) else c.outcome? j :=
    outcome?_setPhase hcall
  -- below the greatest word a stamp is above everything before
  have hstamp : c'.last ≠ maxWord → ∀ t, op.outcome c.last = .stamp t → c.last.toNat < t.toNat := by
    intro hmax t ht
    cases op with
    | newTimestamp now =>
      cases ht
      refine (nextStamp_spec now c.last).1 fun hlast => hmax (UInt64.toNat_inj.mp ?_)
      have := (c'.last).toNat_lt
      change (nextStamp now c.last).toNat < 2 ^ 64 at this
      change (nextStamp now c.last).toNat = 2 ^ 64 - 1
      have hlower : 2 ^ 64 - 1 ≤ (nextStamp now c.last).toNat := by
        have hle := (nextStamp_spec now c.last).2.1
        rwa [show c.last.toNat = 2 ^ 64 - 1 by rw [hlast]; decide +kernel] at hle
      omega
    | updateWithTimestamp => cases ht
  have hlastMax : c'.last ≠ maxWord → c.last ≠ maxWord := by
    intro hmax hlast
    refine hmax (UInt64.toNat_inj.mp (le_antisymm (Nat.le_sub_one_of_lt (c'.last).toNat_lt) ?_))
    rw [← hlast]
    exact hrise
  refine ⟨⟨fun j op' seen hj => ?_, fun j t hj => ?_, fun hmax j k t hj hk => ?_,
    fun j now remote maxDelta hop' hj => ?_, ?_⟩, ⟨hrise, fun j op' hop' => by rw [hops, hop'],
    fun j outcome hj => ?_, fun hmax j t hnone hj => ?_⟩⟩
  · rcases looping_setPhase hj with hj | ⟨-, hphase⟩
    · exact h.accepted j op' seen hj
    · cases hphase
  · rw [houtcome] at hj
    split_ifs at hj with heq
    · cases op with
      | newTimestamp now =>
        cases hj
        exact le_rfl
      | updateWithTimestamp => cases hj
    · exact (h.stamped j t hj).trans hrise
  · rw [houtcome] at hj hk
    split_ifs at hj hk with hji hki hki
    · rw [hji, hki]
    · have := h.stamped k t hk
      have := hstamp hmax t (Option.some_inj.mp hj)
      omega
    · have := h.stamped j t hj
      have := hstamp hmax t (Option.some_inj.mp hk)
      omega
    · exact h.distinct (hlastMax hmax) j k t hj hk
  · rw [hops] at hop'
    rw [houtcome] at hj
    split_ifs at hj with heq
    · rw [heq, hop] at hop'
      cases hop'
      exact (absorb_spec c.last haccepted).2.1
    · exact (h.absorbed j now remote maxDelta hop' hj).trans hrise
  · have hpeak : c'.peak = c.peak := by
      change (((c.setPhase i op _).calls.map Call.op).map Op.reach).foldr max 0 = _
      rw [ops_setPhase hcall]
      rfl
    have hcount : c'.settledCalls = c.settledCalls + 1 :=
      settledCalls_setPhase (.settled (op.outcome c.last)) hcall
    have hreach := reach_le_peak hcall
    have hold := h.bounded
    rw [hpeak, hcount]
    change (op.next c.last).toNat ≤ _
    omega
  · rw [houtcome, if_neg, hj]
    rintro rfl
    rw [hpending] at hj
    cases hj
  · rw [houtcome] at hj
    split_ifs at hj with heq
    · exact hstamp hmax t (Option.some_inj.mp hj)
    · rw [hnone] at hj
      cases hj

theorem Sound.invoke (h : Sound c) (op : Op) :
    let c' := { c with calls := c.calls ++ [⟨op, .begun⟩] }
    Sound c' ∧ Later c c' := by
  intro c'
  have hcalls : ∀ j : ℕ, c'.calls[j]? = if j = c.calls.length then some ⟨op, .begun⟩ else c.calls[j]? := by
    intro j
    rcases Nat.lt_trichotomy j c.calls.length with hj | hj | hj
    · rw [if_neg hj.ne, List.getElem?_append_left hj]
    · rw [if_pos hj, hj, List.getElem?_concat_length]
    · rw [if_neg hj.ne', List.getElem?_eq_none (by simpa [c'] using hj), List.getElem?_eq_none hj.le]
  have habsent : c.calls[c.calls.length]? = none := List.getElem?_eq_none le_rfl
  have houtcome : ∀ j, c'.outcome? j = c.outcome? j := by
    intro j
    rw [outcome?, hcalls, outcome?]
    split_ifs with hj
    · rw [hj, habsent]
      rfl
    · rfl
  refine h.idle rfl (fun j op' seen hj => ?_) (fun j op' hop => ?_) (fun j outcome hj => ?_)
    (fun j outcome hj => by rw [houtcome, hj]) ?_ ?_
  · rw [hcalls] at hj
    split_ifs at hj with heq
    · cases hj
    · exact h.accepted j op' seen hj
  · rw [op?, hcalls, if_neg, ← op?, hop]
    rintro rfl
    rw [op?, habsent] at hop
    cases hop
  · rw [houtcome] at hj
    refine .inr ⟨hj, ?_⟩
    rw [op?, hcalls, if_neg, ← op?]
    rintro rfl
    rw [outcome?, habsent] at hj
    cases hj
  · change _ ≤ (((c.calls ++ [Call.mk op .begun]).map Call.op).map Op.reach).foldr max 0
    rw [peak, List.map_append, List.map_append, List.foldr_append]
    generalize (c.calls.map Call.op).map Op.reach = reaches
    induction reaches with
    | nil => exact Nat.zero_le _
    | cons r reaches ih => exact max_le_max le_rfl ih
  · change _ ≤ (c.calls ++ [Call.mk op .begun]).countP _
    rw [List.countP_append, settledCalls]
    exact Nat.le_add_right _ _

theorem Sound.step (h : Sound c) {move : Move} (hstep : c.step move = some c') :
    Sound c' ∧ Later c c' := by
  cases stepped_of_step hstep with
  | invoke op => exact h.invoke op
  | refuse hcall => exact h.setPhase hcall (.inr ⟨rfl, rfl⟩) (fun _ hseen => by cases hseen)
  | @load i op phase hcall hpending haccepted =>
    refine h.setPhase hcall (.inl hpending.symm) fun seen hseen => ?_
    cases phase with
    | begun => exact haccepted rfl
    | looping seen => exact h.accepted i op seen hcall
    | settled => cases hpending
    | returned => cases hpending
  | exchange hcall => exact h.exchange hcall
  | finish hcall => exact h.setPhase hcall (.inl rfl) (fun _ hseen => by cases hseen)

theorem Later.trans {c'' : HlcCore} (h : Later c c') (h' : Later c' c'') : Later c c'' where
  last_le := h.last_le.trans h'.last_le
  op?_eq i op hop := h'.op?_eq i op (h.op?_eq i op hop)
  outcome?_eq i outcome ho := h'.outcome?_eq i outcome (h.outcome?_eq i outcome ho)
  above hmax i t hnone ht := by
    rcases hmid : c'.outcome? i with _ | outcome
    · exact h.last_le.trans_lt (h'.above hmax i t hmid ht)
    · have hsame := h'.outcome?_eq i outcome hmid
      rw [ht] at hsame
      cases hsame
      refine h.above (fun hlast => hmax (UInt64.toNat_inj.mp ?_)) i t hnone hmid
      have hle := h'.last_le
      have hlt := c''.last.toNat_lt
      rw [hlast, show maxWord.toNat = 2 ^ 64 - 1 by decide +kernel] at hle
      rw [show maxWord.toNat = 2 ^ 64 - 1 by decide +kernel]
      omega

theorem Sound.run (h : Sound c) (moves : List Move) (hrun : c.run moves = some c') :
    Sound c' ∧ Later c c' := by
  induction moves generalizing c with
  | nil =>
    cases hrun
    exact ⟨h, le_rfl, fun _ _ => id, fun _ _ => id, fun _ i t hnone ht => by simp [hnone] at ht⟩
  | cons move moves ih =>
    simp only [HlcCore.run, List.foldlM_cons, Option.bind_eq_bind, Option.bind_eq_some_iff] at hrun
    obtain ⟨mid, hmid, hrest⟩ := hrun
    obtain ⟨hsound, hlater⟩ := h.step hmid
    obtain ⟨hsound', hlater'⟩ := ih hsound hrest
    exact ⟨hsound', hlater.trans hlater'⟩

theorem refused_step {i : ℕ} {op : Op} (h : Sound c) (hop : c.op? i = some op)
    (hrefuses : op.refuses = true) {fails : Bool} (hstep : c.step (.advance i fails) = some c') :
    c'.last = c.last ∧ ∀ j : ℕ, j ≠ i → c'.calls[j]? = c.calls[j]? := by
  obtain ⟨⟨op', phase⟩, hcall, rfl⟩ := Option.map_eq_some_iff.mp hop
  have hframe : ∀ phase' : Phase, ∀ j : ℕ, j ≠ i →
      (c.setPhase i op' phase').calls[j]? = c.calls[j]? := by
    intro phase' j hj
    rw [setPhase, List.getElem?_set_ne (Ne.symm hj)]
  cases phase with
  | begun =>
    simp only [step, hcall, hrefuses, ↓reduceIte] at hstep
    cases hstep
    exact ⟨rfl, hframe _⟩
  | looping seen =>
    have haccepted := h.accepted i op' seen hcall
    rw [hrefuses] at haccepted
    cases haccepted
  | settled outcome =>
    simp only [step, hcall] at hstep
    cases hstep
    exact ⟨rfl, hframe _⟩
  | returned outcome =>
    simp only [step, hcall] at hstep
    cases hstep

end HlcCore

open HlcCore

/-- In every interleaving of calls, below the greatest word: a stamp made since some moment is above
every stamp made before it and above every remote time absorbed before it, no two calls get the same
stamp, a refused call changes nothing, and the word is above the largest reading, with the delta of
the update that used it, by no more than the number of calls. -/
theorem monotonic_run {before after : List Move} {c₁ c₂ : HlcCore}
    (hbefore : HlcCore.run {} before = some c₁) (hafter : c₁.run after = some c₂) :
    (c₂.last ≠ maxWord → ∀ i t, c₁.outcome? i = none → c₂.outcome? i = some (.stamp t) →
      (∀ j s, c₁.outcome? j = some (.stamp s) → s < t) ∧
      ∀ j now remote maxDelta, c₁.op? j = some (.updateWithTimestamp now remote maxDelta) →
        c₁.outcome? j = some .absorbed → remote < t) ∧
    (c₂.last ≠ maxWord → ∀ i j t, c₂.outcome? i = some (.stamp t) →
      c₂.outcome? j = some (.stamp t) → i = j) ∧
    (∀ i op, c₂.op? i = some op → op.refuses = true → ∀ fails c₃,
      c₂.step (.advance i fails) = some c₃ →
        c₃.last = c₂.last ∧ ∀ j : ℕ, j ≠ i → c₃.calls[j]? = c₂.calls[j]?) ∧
    c₂.last.toNat ≤ c₂.peak + c₂.calls.length := by
  obtain ⟨hsound₁, -⟩ := sound_new.run before hbefore
  obtain ⟨hsound₂, hlater⟩ := hsound₁.run after hafter
  refine ⟨fun hmax i t hnone ht => ⟨fun j s hs => ?_, fun j now remote maxDelta hop ho => ?_⟩,
    hsound₂.distinct, fun i op hop hrefuses fails c₃ hstep => refused_step hsound₂ hop hrefuses hstep,
    hsound₂.bounded.trans (Nat.add_le_add_left List.countP_le_length _)⟩
  · exact UInt64.lt_iff_toNat_lt.mpr ((hsound₁.stamped j s hs).trans_lt (hlater.above hmax i t hnone ht))
  · exact UInt64.lt_iff_toNat_lt.mpr
      ((hsound₁.absorbed j now remote maxDelta hop ho).trans_lt (hlater.above hmax i t hnone ht))

/-- Two stamps race for a frozen reading, and the slower one has to try again; then a remote time is
absorbed and the clock has stepped back. -/
theorem monotonic_run_race :
    let race : List Move := [.invoke (.newTimestamp 0x40), .invoke (.newTimestamp 0x40),
      .advance 0 false, .advance 1 false, .advance 1 false, .advance 0 false, .advance 0 false]
    let later : List Move := [.invoke (.updateWithTimestamp 0x50 0x58 0x10), .advance 2 false,
      .advance 2 false, .invoke (.newTimestamp 0x20), .advance 3 false, .advance 3 false]
    ∃ c₁ c₂, HlcCore.run {} race = some c₁ ∧ c₁.run later = some c₂ ∧
      c₂.outcome? 0 = some (.stamp 0x41) ∧ c₂.outcome? 1 = some (.stamp 0x40) ∧
      c₂.outcome? 3 = some (.stamp 0x5A) ∧ (∀ j s, c₁.outcome? j = some (.stamp s) → s < 0x5A) ∧
      c₂.last.toNat ≤ c₂.peak + c₂.calls.length := by
  intro race later
  have hrun : (HlcCore.run {} race).any (fun c₁ => decide (c₁.outcome? 3 = none) &&
      ((c₁.run later).any fun c₂ =>
        c₂.outcome? 0 = some (.stamp 0x41) && c₂.outcome? 1 = some (.stamp 0x40) &&
        c₂.outcome? 3 = some (.stamp 0x5A) && c₂.last ≠ maxWord)) = true := by
    decide +kernel
  obtain ⟨c₁, hbefore, hfacts⟩ := (Option.any_eq_true _ _).mp hrun
  rw [Bool.and_eq_true, decide_eq_true_eq] at hfacts
  obtain ⟨c₂, hafter, hend⟩ := (Option.any_eq_true _ _).mp hfacts.2
  simp only [Bool.and_eq_true, decide_eq_true_eq] at hend
  obtain ⟨⟨⟨hzero, hone⟩, hthree⟩, hmax⟩ := hend
  obtain ⟨habove, -, -, hbound⟩ := monotonic_run hbefore hafter
  exact ⟨c₁, c₂, hbefore, hafter, hzero, hone, hthree, (habove hmax 3 _ hfacts.1 hthree).1, hbound⟩

end WatchingZenoh.Hlc
