import Mathlib
import WatchingZenoh.FrameEncode

/-! The gate for received sequence numbers: one number kept for each priority and reliability, the last
that was admitted. What arrives stands for an unbounded number, of which the wire has the residue. -/

namespace WatchingZenoh.Sn

open FrameEncode (Priority)

def half (mask : UInt64) : UInt64 := mask >>> 1

/-- Does `right` follow `left`, by at most half the ring? -/
def precedes (mask left right : UInt64) : Bool :=
  let distance := (right - left) &&& mask
  distance != 0 && distance ≤ half mask

def decrement (mask sn : UInt64) : UInt64 := (sn - 1) &&& mask

structure RxSn where
  reliable : Option UInt64 := none
  bestEffort : Option UInt64 := none

namespace RxSn

def seed (mask initialSn : UInt64) (_ : RxSn) : RxSn :=
  let baseline := decrement mask initialSn
  { reliable := some baseline, bestEffort := some baseline }

def slot (rx : RxSn) (reliable : Bool) : Option UInt64 :=
  if reliable then rx.reliable else rx.bestEffort

def setSlot (rx : RxSn) (reliable : Bool) (sn : UInt64) : RxSn :=
  if reliable then { rx with reliable := some sn } else { rx with bestEffort := some sn }

def admitFrame (rx : RxSn) (mask : UInt64) (reliable : Bool) (sn : UInt64) : RxSn × Bool :=
  if (rx.slot reliable).any fun last => !precedes mask last sn then (rx, false)
  else (rx.setSlot reliable sn, true)

end RxSn

structure RxConduits where
  conduits : Priority → RxSn := fun _ => {}

namespace RxConduits

def seed (mask initialSn : UInt64) (rx : RxConduits) : RxConduits :=
  ⟨fun priority => (rx.conduits priority).seed mask initialSn⟩

def admitFrame (rx : RxConduits) (priority : Priority) (mask : UInt64) (reliable : Bool) (sn : UInt64) :
    RxConduits × Bool :=
  let (conduit, admitted) := (rx.conduits priority).admitFrame mask reliable sn
  (⟨Function.update rx.conduits priority conduit⟩, admitted)

def last (rx : RxConduits) (c : Priority × Bool) : Option UInt64 := (rx.conduits c.1).slot c.2

end RxConduits

/-- A frame as it arrives, with the number it stands for. -/
structure Delivery where
  priority : Priority
  reliable : Bool
  number : ℤ
  sn : UInt64

def Delivery.conduit (d : Delivery) : Priority × Bool := (d.priority, d.reliable)

/-- The gate, and the last number that was admitted on each conduit. -/
structure Gate where
  rx : RxConduits
  last : Priority × Bool → ℤ

/-- One frame at the gate: the last number before it, and whether it was admitted. -/
structure Passage where
  delivery : Delivery
  last : ℤ
  admitted : Bool

def receive (mask : UInt64) (gate : Gate) (d : Delivery) : Gate × Passage :=
  let (rx, admitted) := gate.rx.admitFrame d.priority mask d.reliable d.sn
  ({ rx, last := if admitted then Function.update gate.last d.conduit d.number else gate.last },
    { delivery := d, last := gate.last d.conduit, admitted })

def passages (mask : UInt64) : Gate → List Delivery → List Passage
  | _, [] => []
  | gate, d :: deliveries =>
    let (gate, passage) := receive mask gate d
    passage :: passages mask gate deliveries

def seeded (mask initialSn : UInt64) (origin : ℤ) : Gate :=
  { rx := ({} : RxConduits).seed mask initialSn, last := fun _ => origin - 1 }

def Projects (k : ℕ) (sn : UInt64) (number : ℤ) : Prop := (sn.toNat : ℤ) ≡ number [ZMOD 2 ^ k]

instance (k : ℕ) (sn : UInt64) (number : ℤ) : Decidable (Projects k sn number) :=
  inferInstanceAs (Decidable (_ ≡ _ [ZMOD _]))

def InWindow (k : ℕ) (last number : ℤ) : Prop :=
  last - 2 ^ (k - 1) ≤ number ∧ number ≤ last + (2 ^ (k - 1) - 1)

instance (k : ℕ) (last number : ℤ) : Decidable (InWindow k last number) :=
  inferInstanceAs (Decidable (_ ∧ _))

variable {mask : UInt64} {k : ℕ}

theorem toNat_half (h : RingMask mask k) : (half mask).toNat = 2 ^ (k - 1) - 1 := by
  have hsplit : 2 ^ k = 2 * 2 ^ (k - 1) := by
    rw [← Nat.pow_succ', Nat.succ_eq_add_one, Nat.sub_add_cancel h.wide]
  rw [half, UInt64.toNat_shiftRight, h.bits, hsplit]
  have hpos : 0 < 2 ^ (k - 1) := Nat.two_pow_pos _
  change (2 * 2 ^ (k - 1) - 1) / 2 = _
  omega

theorem toNat_distance (h : RingMask mask k) {left right : UInt64} {a b : ℤ}
    (ha : Projects k left a) (hb : Projects k right b) :
    (((right - left) &&& mask).toNat : ℤ) = (b - a) % 2 ^ k := by
  have hdvd : ((2 : ℤ) ^ k) ∣ 2 ^ 64 := pow_dvd_pow 2 h.le_word
  have hsub : (((right - left).toNat : ℕ) : ℤ) ≡ (right.toNat : ℤ) - left.toNat [ZMOD 2 ^ k] := by
    have hle : left.toNat ≤ 2 ^ 64 := left.toNat_lt.le
    rw [UInt64.toNat_sub, Int.natCast_mod, Nat.cast_add, Nat.cast_sub hle, Nat.cast_pow, Nat.cast_ofNat]
    refine (Int.ModEq.of_dvd hdvd (Int.mod_modEq _ _)).trans (Int.modEq_iff_dvd.mpr ?_)
    rw [show (right.toNat : ℤ) - left.toNat - (2 ^ 64 - left.toNat + right.toNat) = -(2 ^ 64) by ring]
    exact hdvd.neg_right
  rw [toNat_and_mask h, Int.natCast_mod]
  push_cast
  exact hsub.trans (hb.sub ha)

theorem precedes_iff (h : RingMask mask k) {left right : UInt64} {a b : ℤ} (ha : Projects k left a)
    (hb : Projects k right b) (hwindow : InWindow k a b) : precedes mask left right = true ↔ a < b := by
  have hdistance := toNat_distance h ha hb
  have hhalf := toNat_half h
  have hpos : 0 < 2 ^ (k - 1) := Nat.two_pow_pos _
  have hsplit : (2 : ℤ) ^ k = 2 * 2 ^ (k - 1) := by
    rw [← pow_succ', Nat.sub_add_cancel h.wide]
  have hzero : (right - left) &&& mask ≠ 0 ↔ ((right - left) &&& mask).toNat ≠ 0 := by
    rw [ne_eq, ne_eq, ← UInt64.toNat_inj]
    rfl
  obtain ⟨hback, hforward⟩ := hwindow
  rw [precedes, Bool.and_eq_true, bne_iff_ne, hzero, decide_eq_true_eq, UInt64.le_iff_toNat_le, hhalf]
  zify [Nat.one_le_two_pow (n := k - 1)] at hpos ⊢
  rw [hdistance, hsplit]
  by_cases hab : a ≤ b
  · rw [Int.emod_eq_of_lt (by omega) (by omega)]
    omega
  · rw [← Int.add_emod_right, Int.emod_eq_of_lt (by omega) (by omega)]
    omega

/-- The number kept for every conduit stands for the last one admitted on it. -/
def Faithful (k : ℕ) (gate : Gate) : Prop :=
  ∀ c, ∃ sn, gate.rx.last c = some sn ∧ Projects k sn (gate.last c)

theorem faithful_seeded (h : RingMask mask k) {initialSn : UInt64} {origin : ℤ}
    (horigin : Projects k initialSn origin) : Faithful k (seeded mask initialSn origin) := by
  intro c
  refine ⟨decrement mask initialSn, ?_, ?_⟩
  · cases hc : c.2 <;> simp [seeded, RxConduits.last, RxConduits.seed, RxSn.seed, RxSn.slot, hc]
  · have hone : Projects k 1 1 := Int.ModEq.refl 1
    rw [Projects, decrement, toNat_distance h hone horigin]
    exact Int.mod_modEq _ _

theorem slot_setSlot (rx : RxSn) (reliable : Bool) (sn : UInt64) (r : Bool) :
    (rx.setSlot reliable sn).slot r = if r = reliable then some sn else rx.slot r := by
  cases r <;> cases reliable <;> rfl

/-- A frame is refused if it does not follow the number kept for its conduit, and its own number is
kept otherwise. -/
theorem admitFrame_eq (rx : RxConduits) (priority : Priority) (reliable : Bool) (sn : UInt64) :
    rx.admitFrame priority mask reliable sn =
      if (rx.last (priority, reliable)).any fun last => !precedes mask last sn then (rx, false)
      else (⟨Function.update rx.conduits priority ((rx.conduits priority).setSlot reliable sn)⟩,
        true) := by
  by_cases hstale : (rx.last (priority, reliable)).any fun last => !precedes mask last sn
  · have hconduit : (rx.conduits priority).admitFrame mask reliable sn = (rx.conduits priority, false) :=
      if_pos hstale
    rw [if_pos hstale, RxConduits.admitFrame, hconduit]
    exact Prod.ext (congrArg RxConduits.mk (Function.update_eq_self _ _)) rfl
  · have hconduit : (rx.conduits priority).admitFrame mask reliable sn =
        ((rx.conduits priority).setSlot reliable sn, true) := if_neg hstale
    rw [if_neg hstale, RxConduits.admitFrame, hconduit]

theorem last_admitFrame (rx : RxConduits) (priority : Priority) (reliable : Bool) (sn : UInt64)
    (c : Priority × Bool) :
    (rx.admitFrame priority mask reliable sn).1.last c =
      if (rx.admitFrame priority mask reliable sn).2 = true ∧ c = (priority, reliable) then some sn
      else rx.last c := by
  obtain ⟨p, r⟩ := c
  rw [admitFrame_eq]
  split_ifs with hstale hc hc
  · exact hc.1.elim
  · rfl
  · obtain ⟨rfl, rfl⟩ := Prod.mk.inj hc.2
    simp [RxConduits.last, slot_setSlot]
  · by_cases hp : p = priority
    · subst hp
      have hr : r ≠ reliable := fun hr => hc ⟨rfl, by rw [hr]⟩
      simp [RxConduits.last, slot_setSlot, hr]
    · simp [RxConduits.last, hp]

/-- A frame in the window is admitted exactly if its number is greater than the last one of its
conduit, and the gate stays faithful. -/
theorem faithful_receive (h : RingMask mask k) {gate : Gate} (hgate : Faithful k gate) {d : Delivery}
    (hd : Projects k d.sn d.number) (hwindow : InWindow k (gate.last d.conduit) d.number) :
    Faithful k (receive mask gate d).1 ∧
      ((receive mask gate d).2.admitted = true ↔ gate.last d.conduit < d.number) := by
  obtain ⟨last, hlast, hprojects⟩ := hgate d.conduit
  have hadmitted : (gate.rx.admitFrame d.priority mask d.reliable d.sn).2 = precedes mask last d.sn := by
    rw [admitFrame_eq, show gate.rx.last (d.priority, d.reliable) = some last from hlast, Option.any_some]
    cases precedes mask last d.sn <;> rfl
  refine ⟨fun c => ?_, ?_⟩
  · change ∃ sn, (gate.rx.admitFrame d.priority mask d.reliable d.sn).1.last c = some sn ∧ Projects k sn
      ((if (gate.rx.admitFrame d.priority mask d.reliable d.sn).2 then
        Function.update gate.last d.conduit d.number else gate.last) c)
    rw [last_admitFrame]
    by_cases hc : c = d.conduit
    · subst hc
      by_cases hpass : (gate.rx.admitFrame d.priority mask d.reliable d.sn).2 = true
      · exact ⟨d.sn, by simp [hpass, Delivery.conduit], by simpa [hpass] using hd⟩
      · exact ⟨last, by simp [hpass, hlast], by simpa [hpass] using hprojects⟩
    · obtain ⟨sn, hsn, hproj⟩ := hgate c
      refine ⟨sn, by rw [if_neg fun hand => hc hand.2, hsn], ?_⟩
      split_ifs
      · rwa [Function.update_of_ne hc]
      · exact hproj
  · change (gate.rx.admitFrame d.priority mask d.reliable d.sn).2 = true ↔ _
    rw [hadmitted, precedes_iff h hprojects hd hwindow]

theorem last_receive (gate : Gate) (d : Delivery) (c : Priority × Bool) :
    (receive mask gate d).1.last c =
      if (receive mask gate d).2.admitted = true ∧ c = d.conduit then d.number else gate.last c := by
  change (if (gate.rx.admitFrame d.priority mask d.reliable d.sn).2 then
    Function.update gate.last d.conduit d.number else gate.last) c =
      if (gate.rx.admitFrame d.priority mask d.reliable d.sn).2 = true ∧ c = d.conduit then d.number
      else gate.last c
  by_cases hpass : (gate.rx.admitFrame d.priority mask d.reliable d.sn).2 = true
  · simp [hpass, Function.update_apply]
  · simp [hpass]

/-- The numbers that were admitted on a conduit, in order. -/
def admittedOn (c : Priority × Bool) (run : List Passage) : List ℤ :=
  (run.filter fun passage => passage.delivery.conduit = c ∧ passage.admitted).map
    fun passage => passage.delivery.number

theorem admittedOn_cons (c : Priority × Bool) (passage : Passage) (run : List Passage) :
    admittedOn c (passage :: run) =
      if passage.admitted = true ∧ c = passage.delivery.conduit then
        passage.delivery.number :: admittedOn c run
      else admittedOn c run := by
  by_cases h : passage.admitted = true ∧ c = passage.delivery.conduit
  · simp [admittedOn, h.1, h.2]
  · rw [if_neg h, admittedOn, List.filter_cons_of_neg]
    · rfl
    · simp only [decide_eq_true_eq]
      exact fun hand => h ⟨hand.2, hand.1.symm⟩

theorem passages_cons (gate : Gate) (d : Delivery) (deliveries : List Delivery) :
    passages mask gate (d :: deliveries) =
      (receive mask gate d).2 :: passages mask (receive mask gate d).1 deliveries := rfl

@[simp] theorem delivery_receive (gate : Gate) (d : Delivery) :
    (receive mask gate d).2.delivery = d := rfl

/-- Frames in the window, one after another: each is admitted exactly if its number is greater than
the last, and on every conduit the admitted numbers rise from there. -/
theorem passages_exact (h : RingMask mask k) (deliveries : List Delivery) {gate : Gate}
    (hgate : Faithful k gate) (hprojects : ∀ d ∈ deliveries, Projects k d.sn d.number)
    (hwindow : ∀ passage ∈ passages mask gate deliveries,
      InWindow k passage.last passage.delivery.number) :
    (∀ passage ∈ passages mask gate deliveries,
      passage.admitted = true ↔ passage.last < passage.delivery.number) ∧
    ∀ c, (gate.last c :: admittedOn c (passages mask gate deliveries)).Pairwise (· < ·) := by
  induction deliveries generalizing gate with
  | nil => exact ⟨by simp [passages], by simp [passages, admittedOn]⟩
  | cons d deliveries ih =>
    rw [passages_cons] at hwindow ⊢
    obtain ⟨hfaithful, hexact⟩ := faithful_receive h hgate (hprojects d (by simp))
      (hwindow (receive mask gate d).2 (by simp))
    obtain ⟨hrest, hrise⟩ := ih hfaithful (fun d hd => hprojects d (by simp [hd]))
      fun passage hp => hwindow passage (by simp [hp])
    refine ⟨fun passage hp => ?_, fun c => ?_⟩
    · rcases List.mem_cons.mp hp with rfl | hp
      · exact hexact
      · exact hrest passage hp
    · have hrise := hrise c
      rw [last_receive] at hrise
      rw [admittedOn_cons, delivery_receive]
      split_ifs at hrise ⊢ with hpass
      · obtain ⟨hpassed, rfl⟩ := hpass
        have hlt := hexact.mp hpassed
        refine List.pairwise_cons.mpr ⟨fun n hn => ?_, hrise⟩
        rcases List.mem_cons.mp hn with rfl | hn
        · exact hlt
        · exact hlt.trans ((List.pairwise_cons.mp hrise).1 n hn)
      · exact hrise

theorem receive_congr (mask : UInt64) {gate gate' : Gate} {d : Delivery}
    (hrx : gate.rx.last d.conduit = gate'.rx.last d.conduit)
    (hlast : gate.last d.conduit = gate'.last d.conduit) :
    (receive mask gate d).2 = (receive mask gate' d).2 := by
  have hadmitted : (gate.rx.admitFrame d.priority mask d.reliable d.sn).2 =
      (gate'.rx.admitFrame d.priority mask d.reliable d.sn).2 := by
    rw [admitFrame_eq, admitFrame_eq, show gate.rx.last (d.priority, d.reliable) =
      gate'.rx.last (d.priority, d.reliable) from hrx]
    split_ifs <;> rfl
  change Passage.mk d (gate.last d.conduit) (gate.rx.admitFrame d.priority mask d.reliable d.sn).2 =
    Passage.mk d (gate'.last d.conduit) (gate'.rx.admitFrame d.priority mask d.reliable d.sn).2
  rw [hadmitted, hlast]

theorem passages_filter (c : Priority × Bool) (deliveries : List Delivery) {gate gate' : Gate}
    (hrx : gate.rx.last c = gate'.rx.last c) (hlast : gate.last c = gate'.last c) :
    (passages mask gate deliveries).filter (fun passage => passage.delivery.conduit = c) =
      passages mask gate' (deliveries.filter fun d => d.conduit = c) := by
  induction deliveries generalizing gate gate' with
  | nil => rfl
  | cons d deliveries ih =>
    rw [passages_cons]
    have hkeptRx : ∀ gate : Gate, (receive mask gate d).1.rx.last c =
        if (receive mask gate d).2.admitted = true ∧ c = d.conduit then some d.sn
        else gate.rx.last c := fun gate => last_admitFrame gate.rx d.priority d.reliable d.sn c
    by_cases hc : d.conduit = c
    · subst hc
      have hsame := receive_congr mask hrx hlast
      have hrest := @ih (receive mask gate d).1 (receive mask gate' d).1
        (by rw [hkeptRx, hkeptRx, hsame, hrx]) (by rw [last_receive, last_receive, hsame, hlast])
      rw [List.filter_cons_of_pos (by simp), List.filter_cons_of_pos (by simp), passages_cons,
        hsame, hrest]
    · have hother : ¬((receive mask gate d).2.admitted = true ∧ c = d.conduit) :=
        fun hand => hc hand.2.symm
      rw [List.filter_cons_of_neg (by simp [hc]), List.filter_cons_of_neg (by simp [hc])]
      exact ih (by rw [hkeptRx, if_neg hother, hrx]) (by rw [last_receive, if_neg hother, hlast])

/-- From a gate seeded with the common origin, however the frames arrive as long as none is more than
half the ring away from the last one admitted on its conduit: a frame is admitted exactly if its number
is greater than that, the numbers admitted on a conduit rise, and a conduit answers as if there were
no other. -/
theorem admit_exact (h : RingMask mask k) {initialSn : UInt64} {origin : ℤ}
    (horigin : Projects k initialSn origin) (deliveries : List Delivery)
    (hprojects : ∀ d ∈ deliveries, Projects k d.sn d.number)
    (hwindow : ∀ passage ∈ passages mask (seeded mask initialSn origin) deliveries,
      InWindow k passage.last passage.delivery.number) :
    (∀ passage ∈ passages mask (seeded mask initialSn origin) deliveries,
      passage.admitted = true ↔ passage.last < passage.delivery.number) ∧
    (∀ c, (admittedOn c (passages mask (seeded mask initialSn origin) deliveries)).Pairwise (· < ·)) ∧
    ∀ c, (passages mask (seeded mask initialSn origin) deliveries).filter
        (fun passage => passage.delivery.conduit = c) =
      passages mask (seeded mask initialSn origin) (deliveries.filter fun d => d.conduit = c) := by
  obtain ⟨hexact, hrise⟩ := passages_exact h deliveries (faithful_seeded h horigin) hprojects hwindow
  exact ⟨hexact, fun c => (List.pairwise_cons.mp (hrise c)).2, fun c => passages_filter c deliveries rfl rfl⟩

/-- On a ring of eight, frames 6, 8 and 9 wrap round; the second 8 and a 7 that comes late are
refused. -/
theorem admit_exact_wrap :
    let data (number : ℤ) (sn : UInt64) : Delivery := ⟨.data, true, number, sn⟩
    let deliveries := [data 6 6, data 8 0, ⟨.control, true, 7, 7⟩, data 8 8, data 7 7, data 9 1]
    ((passages 7 (seeded 7 6 6) deliveries).map fun passage => passage.admitted) =
        [true, true, true, false, false, true] ∧
      ∀ passage ∈ passages 7 (seeded 7 6 6) deliveries,
        passage.admitted = true ↔ passage.last < passage.delivery.number := by
  intro data deliveries
  exact ⟨by decide +kernel, (admit_exact (k := 3) ⟨by decide, by decide⟩ (by decide +kernel) deliveries
    (by decide +kernel) (by decide +kernel)).1⟩

end WatchingZenoh.Sn
