import WatchingZenoh.EventRing

/-! What the memory of the event ring holds between the producer's steps. A record is overwritten
from the moment the slot is marked for its successor; until then its slot has its generation and its
words. The count of records, the words of `next` and the overwritten records only grow. -/

namespace WatchingZenoh.EventRing

open Words

variable {S : Shape}

section Generations

theorem genEven_eq (n : ℕ) : genEven S n = low (2 * (n / S.slots) + 2) := by
  apply UInt32.toNat_inj.mp
  simp only [genEven, lapOf, UInt32.toNat_add, UInt32.toNat_mul, toNat_low, UInt32.reduceToNat]
  omega

theorem genOdd_eq (n : ℕ) : genOdd S n = low (2 * (n / S.slots) + 1) := by
  apply UInt32.toNat_inj.mp
  simp only [genOdd, lapOf, UInt32.toNat_add, UInt32.toNat_mul, toNat_low, UInt32.reduceToNat]
  omega

theorem lap_of_later {c m : ℕ} (hlt : c < m) (hmod : m % S.slots = c % S.slots) :
    c + S.slots ≤ m ∧ c / S.slots < m / S.slots ∧ m / S.slots - c / S.slots ≤ m - c := by
  have hpos := S.slots_pos
  have hm := Nat.div_add_mod m S.slots
  have hc := Nat.div_add_mod c S.slots
  have hdiv : c / S.slots < m / S.slots := by
    by_contra hle
    have := Nat.mul_le_mul_left S.slots (not_lt.mp hle)
    omega
  obtain ⟨k, hk⟩ := Nat.exists_eq_add_of_lt hdiv
  have hmul : S.slots * (m / S.slots) = S.slots * (c / S.slots) + S.slots * (k + 1) := by
    rw [hk, ← Nat.mul_add, add_assoc]
  have hk1 : k + 1 ≤ S.slots * (k + 1) := Nat.le_mul_of_pos_left _ hpos
  have hks : S.slots ≤ S.slots * (k + 1) := Nat.le_mul_of_pos_right _ (by omega)
  omega

theorem distance_of_later {c m : ℕ} (hlt : c < m) (hmod : m % S.slots = c % S.slots)
    (hwindow : m < c + 2 ^ 30) :
    0 < signed (genEven S m - genEven S c) ∧ 0 < signed (genOdd S m - genEven S c) := by
  obtain ⟨-, hdiv, hle⟩ := lap_of_later hlt hmod
  rw [genEven_eq, genEven_eq, genOdd_eq, signed_low_sub (by omega) (by omega),
    signed_low_sub (by omega) (by omega)]
  omega

theorem distance_self (c : ℕ) : signed (genEven S c - genEven S c) = 0 := by
  rw [genEven_eq, signed_low_sub (by omega) (by omega)]
  omega

end Generations

namespace State

variable (s : State S)

def Opened : Prop := ∃ input rest, s.producing = .filling input rest

/-- The count readers see: one behind the head until its low word is stored. -/
def published : ℕ :=
  match s.producing with
  | .publishingLow => s.head - 1
  | _ => s.head

def Overwritten (m : ℕ) : Prop := m + S.slots < s.head ∨ m + S.slots = s.head ∧ s.Opened

def Intact (m : ℕ) (input : Input) : Prop :=
  (s.ring.slotOf m).gen = genEven S m ∧ (s.ring.slotOf m).words = wordOf m input

structure Kept : Prop where
  head : s.head = s.log.length
  fits : s.head < 2 ^ 64
  room : s.producing ≠ .idle → s.producing ≠ .publishingLow → s.producing ≠ .publishingHigh →
    s.head + 1 < 2 ^ 64
  nextLo : s.ring.nextLo = low s.published
  intact : ∀ m input, s.log[m]? = some input → ¬ s.Overwritten m → s.Intact m input
  marked : s.Opened → (s.ring.slotOf s.head).gen = genOdd S s.head
  filled : ∀ input rest, s.producing = .filling input rest → ∀ w, w ∉ rest →
    (s.ring.slotOf s.head).words w = wordOf s.head input w

structure Later (s s' : State S) : Prop where
  head : s.head ≤ s'.head
  published : s.published ≤ s'.published
  log : s.log <+: s'.log
  overwritten : ∀ m, s.Overwritten m → s'.Overwritten m

variable {s}

theorem Later.refl (s : State S) : Later s s := ⟨le_rfl, le_rfl, List.prefix_rfl, fun _ h => h⟩

theorem later_of_producer {s s' : State S} (hhead : s'.head = s.head)
    (hprod : s'.producing = s.producing) (hlog : s'.log = s.log) : Later s s' := by
  refine ⟨hhead.ge, ?_, hlog ▸ List.prefix_rfl, fun m hm => ?_⟩
  · simp only [State.published, hprod, hhead, le_rfl]
  · simpa only [Overwritten, Opened, hprod, hhead] using hm

@[simp] theorem slotOf_setSlot (ring : Ring S.args) (n : ℕ) (slot : Slot S.args) :
    (ring.setSlot n slot).slotOf n = slot := by
  simp [Ring.setSlot, Ring.slotOf]

theorem slotOf_setSlot_of_ne (ring : Ring S.args) {n m : ℕ} (h : m % S.slots ≠ n % S.slots)
    (slot : Slot S.args) : (ring.setSlot n slot).slotOf m = ring.slotOf m := by
  simp [Ring.setSlot, Ring.slotOf, h]

theorem published_le (s : State S) : s.published ≤ s.head ∧ s.head ≤ s.published + 1 := by
  simp only [State.published]
  split <;> omega

theorem published_of_opened (h : s.Opened) : s.published = s.head := by
  obtain ⟨input, rest, h⟩ := h
  simp [State.published, h]

theorem published_of_overwritten {m : ℕ} (hm : s.Overwritten m) :
    m + S.slots ≤ s.published := by
  have := s.published_le
  rcases hm with hm | ⟨hm, hopen⟩
  · omega
  · rw [published_of_opened hopen, hm]

theorem Kept.occupant (h : s.Kept) (c : ℕ) (hc : c < s.head) :
    ¬ s.Overwritten c ∨ ∃ m, c < m ∧ m ≤ s.head ∧ m % S.slots = c % S.slots ∧
      ((s.ring.slotOf c).gen = genEven S m ∨ (s.ring.slotOf c).gen = genOdd S m) := by
  have hpos := S.slots_pos
  induction hgap : s.head - c using Nat.strong_induction_on generalizing c with
  | _ gap ih =>
    by_cases hover : s.Overwritten c
    · refine .inr ?_
      have hslot : s.ring.slotOf (c + S.slots) = s.ring.slotOf c := by simp [Ring.slotOf]
      rcases hover with hlt | ⟨heq, hopen⟩
      · rcases ih _ (by omega) (c + S.slots) hlt rfl with hkept | ⟨m, hcm, hm, hmod, hgen⟩
        · obtain ⟨input, hinput⟩ : ∃ input, s.log[c + S.slots]? = some input :=
            ⟨_, List.getElem?_eq_getElem (h.head ▸ hlt)⟩
          have hgen := (h.intact _ input hinput hkept).1
          rw [hslot] at hgen
          exact ⟨c + S.slots, by omega, hlt.le, by simp, .inl hgen⟩
        · rw [hslot] at hgen
          exact ⟨m, by omega, hm, by simpa using hmod, hgen⟩
      · have hgen := h.marked hopen
        rw [← heq, hslot] at hgen
        exact ⟨c + S.slots, by omega, heq.le, by simp, .inr hgen⟩
    · exact .inl hover

/-- A push that has not yet marked a slot and has nothing to publish but the high word. -/
def Quiet (p : Producing S.args) : Prop := (∀ input rest, p ≠ .filling input rest) ∧ p ≠ .publishingLow

theorem not_opened_of_quiet (h : Quiet s.producing) : ¬ s.Opened := by
  rintro ⟨input, rest, hp⟩
  exact h.1 input rest hp

theorem published_of_quiet (h : Quiet s.producing) : s.published = s.head := by
  simp only [State.published]
  split
  · next hp => exact absurd hp h.2
  · rfl

theorem overwritten_of_quiet (h : Quiet s.producing) {m : ℕ} :
    s.Overwritten m ↔ m + S.slots < s.head := by
  simp [Overwritten, not_opened_of_quiet h]

theorem Kept.quiet {s' : State S} (h : s.Kept) (hq : Quiet s.producing) (hq' : Quiet s'.producing)
    (hhead : s'.head = s.head) (hlog : s'.log = s.log) (hslots : s'.ring.slots = s.ring.slots)
    (hnext : s'.ring.nextLo = s.ring.nextLo)
    (hroom : s'.producing ≠ .idle → s'.producing ≠ .publishingHigh → s.head + 1 < 2 ^ 64) :
    s'.Kept ∧ Later s s' := by
  have hslot : ∀ m, s'.ring.slotOf m = s.ring.slotOf m := fun m => by
    simp only [Ring.slotOf, hslots]
  have hpub : s'.published = s.published := by
    rw [published_of_quiet hq', published_of_quiet hq, hhead]
  have hover : ∀ m, s'.Overwritten m ↔ s.Overwritten m := fun m => by
    rw [overwritten_of_quiet hq', overwritten_of_quiet hq, hhead]
  refine ⟨⟨by rw [hhead, hlog, h.head], hhead ▸ h.fits, fun h₁ _ h₃ => hhead ▸ hroom h₁ h₃,
    by rw [hnext, hpub, h.nextLo], fun m input hm hno => ?_,
    fun hopen => absurd hopen (not_opened_of_quiet hq'),
    fun input rest hp => absurd hp (hq'.1 input rest)⟩,
    ⟨hhead.ge, hpub.ge, hlog ▸ List.prefix_rfl, fun m hm => (hover m).mpr hm⟩⟩
  simp only [Intact, hslot]
  exact h.intact m input (hlog ▸ hm) fun hm' => hno ((hover m).mpr hm')

theorem Kept.other {s' : State S} (h : s.Kept) (hprod : s'.producing = s.producing)
    (hhead : s'.head = s.head) (hlog : s'.log = s.log) (hslots : s'.ring.slots = s.ring.slots)
    (hnext : s'.ring.nextLo = s.ring.nextLo) : s'.Kept ∧ Later s s' := by
  have hslot : ∀ m, s'.ring.slotOf m = s.ring.slotOf m := fun m => by
    simp only [Ring.slotOf, hslots]
  have hopen : s'.Opened ↔ s.Opened := by simp only [Opened, hprod]
  have hover : ∀ m, s'.Overwritten m ↔ s.Overwritten m := fun m => by
    simp only [Overwritten, hhead, hopen]
  refine ⟨⟨by rw [hhead, hlog, h.head], hhead ▸ h.fits, ?_, ?_, fun m input hm hno => ?_,
    fun ho => ?_, fun input rest hp w hw => ?_⟩, later_of_producer hhead hprod hlog⟩
  · rw [hprod, hhead]
    exact h.room
  · rw [hnext, h.nextLo]
    simp only [State.published, hprod, hhead]
  · simp only [Intact, hslot]
    exact h.intact m input (hlog ▸ hm) fun hm' => hno ((hover m).mpr hm')
  · rw [hslot, hhead]
    exact h.marked (hopen.mp ho)
  · rw [hslot, hhead]
    exact h.filled input rest (hprod ▸ hp) w hw

theorem slots_le_of_mod {m n : ℕ} (hlt : m < n) (hmod : m % S.slots = n % S.slots) :
    m + S.slots ≤ n :=
  (lap_of_later hlt hmod.symm).1

theorem Kept.lt_head (h : s.Kept) {m : ℕ} {input : Input} (hm : s.log[m]? = some input) :
    m < s.head := by
  rw [h.head]
  exact (List.getElem?_eq_some_iff.mp hm).1

theorem Kept.open (h : s.Kept) {input : Input} (hp : s.producing = .opening input) :
    s.produce.Kept ∧ Later s s.produce := by
  have hq : Quiet s.producing := by simp [Quiet, hp]
  have hprod : s.produce = { s with
      producing := .filling input (fillOrder S.args)
      ring := s.ring.setSlot s.head ⟨genOdd S s.head, (s.ring.slotOf s.head).words⟩ } := by
    simp only [produce, hp]
  rw [hprod]
  refine ⟨⟨h.head, h.fits, fun _ _ _ => h.room (by simp [hp]) (by simp [hp]) (by simp [hp]),
    ?_, fun m record hm hno => ?_, fun _ => by simp,
    fun input' rest hf w hw => ?_⟩, ⟨le_rfl, ?_, List.prefix_rfl, fun m hm => ?_⟩⟩
  · have := h.nextLo
    rwa [published_of_quiet hq] at this
  · have hlt := h.lt_head hm
    have hne : m % S.slots ≠ s.head % S.slots := by
      intro hmod
      have := slots_le_of_mod hlt hmod
      refine hno ?_
      rcases Nat.eq_or_lt_of_le this with heq | hlt
      · exact .inr ⟨heq, input, _, rfl⟩
      · exact .inl hlt
    simp only [Intact, slotOf_setSlot_of_ne _ hne]
    exact h.intact m record hm fun hover => hno (.inl ((overwritten_of_quiet hq).mp hover))
  · cases hf
    exact absurd (mem_fillOrder w) hw
  · exact (published_of_quiet hq).le
  · exact .inl ((overwritten_of_quiet hq).mp hm)

theorem Kept.fill (h : s.Kept) {input : Input} {w : Word S.args} {rest : List (Word S.args)}
    (hp : s.producing = .filling input (w :: rest)) : s.produce.Kept ∧ Later s s.produce := by
  have hopen : s.Opened := ⟨input, _, hp⟩
  have hprod : s.produce = { s with
      producing := .filling input rest
      ring := s.ring.setSlot s.head ⟨(s.ring.slotOf s.head).gen,
        Function.update (s.ring.slotOf s.head).words w (wordOf s.head input w)⟩ } := by
    simp only [produce, hp]
  rw [hprod]
  have hover : ∀ m, m + S.slots < s.head ∨ m + S.slots = s.head ↔ s.Overwritten m := fun m => by
    simp [Overwritten, hopen]
  refine ⟨⟨h.head, h.fits, fun _ _ _ => h.room (by simp [hp]) (by simp [hp]) (by simp [hp]),
    ?_, fun m record hm hno => ?_, fun _ => ?_,
    fun input' rest' hf v hv => ?_⟩, ⟨le_rfl, ?_, List.prefix_rfl, fun m hm => ?_⟩⟩
  · have := h.nextLo
    rwa [published_of_opened hopen] at this
  · have hno' : ¬ s.Overwritten m := fun hm' => hno
      (((hover m).mpr hm').imp_right fun heq => ⟨heq, input, rest, rfl⟩)
    have hne : m % S.slots ≠ s.head % S.slots := fun hmod =>
      hno' ((hover m).mp (Nat.lt_or_eq_of_le (slots_le_of_mod (h.lt_head hm) hmod)))
    simp only [Intact, slotOf_setSlot_of_ne _ hne]
    exact h.intact m record hm hno'
  · simpa using h.marked hopen
  · cases hf
    by_cases hvw : v = w
    · simp [hvw]
    · simpa [hvw] using h.filled input _ hp v (by simp [hvw, hv])
  · exact (published_of_opened hopen).le
  · exact ((hover m).mpr hm).imp_right fun heq => ⟨heq, input, rest, rfl⟩

theorem Kept.close (h : s.Kept) {input : Input} (hp : s.producing = .filling input []) :
    s.produce.Kept ∧ Later s s.produce := by
  have hopen : s.Opened := ⟨input, _, hp⟩
  have hprod : s.produce = { s with
      producing := .publishingLow
      ring := s.ring.setSlot s.head ⟨genEven S s.head, (s.ring.slotOf s.head).words⟩
      head := s.head + 1
      log := s.log ++ [input] } := by
    simp only [produce, hp]
  rw [hprod]
  have hroom := h.room (by simp [hp]) (by simp [hp]) (by simp [hp])
  refine ⟨⟨by simp [h.head], hroom, fun _ h₂ => absurd rfl h₂, ?_,
    fun m record hm hno => ?_, fun hopen' => ?_, fun input' rest' hf => by simp at hf⟩,
    ⟨Nat.le_succ _, ?_, List.prefix_append _ _, fun m hm => ?_⟩⟩
  · have := h.nextLo
    rwa [published_of_opened hopen] at this
  · have hlt : s.head < m + S.slots := by
      by_contra hle
      exact hno (.inl (by simp only; omega))
    rcases Nat.lt_or_ge m s.head with hm' | hm'
    · have hne : m % S.slots ≠ s.head % S.slots := fun hmod => by
        have := slots_le_of_mod hm' hmod
        omega
      simp only [Intact, slotOf_setSlot_of_ne _ hne]
      rw [List.getElem?_append_left (h.head ▸ hm')] at hm
      refine h.intact m record hm fun hover => ?_
      rcases hover with hover | ⟨hover, -⟩ <;> omega
    · obtain rfl : m = s.head := by
        have := (List.getElem?_eq_some_iff.mp hm).1
        simp only [List.length_append, List.length_singleton] at this
        have := h.head
        omega
      obtain rfl : input = record := by simpa [h.head] using hm
      simp only [Intact, slotOf_setSlot, true_and]
      funext w
      exact h.filled input [] hp w (by simp)
  · obtain ⟨input', rest', hf⟩ := hopen'
    simp at hf
  · exact (published_of_opened hopen).le
  · rcases hm with hm | ⟨hm, -⟩ <;> exact .inl (by simp only; omega)

theorem Kept.publish (h : s.Kept) (hp : s.producing = .publishingLow) :
    s.produce.Kept ∧ Later s s.produce := by
  have hno : ¬ s.Opened := by
    rintro ⟨input, rest, hf⟩
    simp [hp] at hf
  have hprod : s.produce =
      { s with producing := .publishingHigh, ring := { s.ring with nextLo := low s.head } } := by
    simp only [produce, hp]
  rw [hprod]
  have hover : ∀ m, s.Overwritten m ↔ m + S.slots < s.head := fun m => by simp [Overwritten, hno]
  refine ⟨⟨h.head, h.fits, fun _ _ h₃ => absurd rfl h₃, rfl,
    fun m record hm hkept => ?_, fun hopen => ?_, fun input rest hf => by simp at hf⟩,
    ⟨le_rfl, s.published_le.1, List.prefix_rfl, fun m hm => .inl ((hover m).mp hm)⟩⟩
  · exact h.intact m record hm fun hm' => hkept (.inl ((hover m).mp hm'))
  · obtain ⟨input, rest, hf⟩ := hopen
    simp at hf

theorem Kept.produce (h : s.Kept) : s.produce.Kept ∧ Later s s.produce := by
  cases hp : s.producing with
  | idle =>
    have : s.produce = s := by simp only [State.produce, hp]
    rw [this]
    exact ⟨h, .refl s⟩
  | readingTail input loading =>
    have hroom := h.room (by simp [hp]) (by simp [hp]) (by simp [hp])
    simp only [State.produce, hp]
    split
    · refine h.quiet (by simp [Quiet, hp]) ?_ rfl rfl rfl rfl fun _ _ => hroom
      simp only
      split <;> simp [Quiet]
    · exact h.quiet (by simp [Quiet, hp]) (by simp [Quiet]) rfl rfl rfl rfl fun _ _ => hroom
  | dropping seen =>
    have hroom := h.room (by simp [hp]) (by simp [hp]) (by simp [hp])
    cases seen with
    | none =>
      simp only [State.produce, hp]
      exact h.quiet (by simp [Quiet, hp]) (by simp [Quiet]) rfl rfl rfl rfl fun _ _ => hroom
    | some seen =>
      simp only [State.produce, hp]
      exact h.quiet (by simp [Quiet, hp]) (by simp [Quiet]) rfl rfl rfl rfl fun _ _ => hroom
  | opening input => exact h.open hp
  | filling input rest =>
    cases rest with
    | nil => exact h.close hp
    | cons w rest => exact h.fill hp
  | publishingLow => exact h.publish hp
  | publishingHigh =>
    simp only [State.produce, hp]
    exact h.quiet (by simp [Quiet, hp]) (by simp [Quiet]) rfl rfl rfl rfl (by simp)

theorem kept_init : (init S).Kept where
  head := rfl
  fits := by simp [init]
  room hp := absurd rfl hp
  nextLo := rfl
  intact m input hm := by simp [init] at hm
  marked hopen := by
    obtain ⟨input, rest, hf⟩ := hopen
    simp [init] at hf
  filled input rest hf := by simp [init] at hf

theorem Kept.step (h : s.Kept) (a : Action) : (s.step a).Kept ∧ Later s (s.step a) := by
  cases a with
  | push input =>
    simp only [State.step]
    split
    · next hp =>
      split
      · next hroom =>
        refine h.quiet (by simp [Quiet, hp]) ?_ rfl rfl rfl rfl fun _ _ => hroom
        simp only
        split <;> simp [Quiet]
      · exact ⟨h, .refl s⟩
    · exact ⟨h, .refl s⟩
  | produce => exact h.produce
  | start i cursor =>
    simp only [State.step]
    split
    · exact h.other rfl rfl rfl rfl rfl
    · exact ⟨h, .refl s⟩
  | poll i =>
    simp only [State.step]
    split
    · exact h.other rfl rfl rfl rfl rfl
    · exact ⟨h, .refl s⟩
  | consume =>
    simp only [State.step, consume]
    split <;> exact h.other rfl rfl rfl rfl rfl

theorem kept_run (actions : List Action) : ((init S).run actions).Kept := by
  induction actions using List.reverseRecOn with
  | nil => exact kept_init
  | append_singleton actions a ih =>
    rw [State.run, List.foldl_append]
    exact (ih.step a).1

end State

end WatchingZenoh.EventRing
