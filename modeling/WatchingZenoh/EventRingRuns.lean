import WatchingZenoh.EventRingReads

/-! Runs of the event ring. Every reader that stays in its window returns records and losses that
cover the sequence numbers from its start. Under `DropNewest` the words of the tail, read in any
order between the consumer's stores, are never ahead of the consumer's cursor, so that a push only
opens a slot the consumer has passed and the consumer reports no loss. -/

namespace WatchingZenoh.EventRing

open Words

variable {S : Shape}

namespace Reader

variable {r : Reader S.args}

theorem step_returned (ring : Ring S.args) (r : Reader S.args) :
    ((r.step ring).returned = r.returned ∨
      ∃ read, (r.step ring).returned = r.returned ++ [read]) ∧ r.cursor ≤ (r.step ring).cursor := by
  unfold Reader.step
  cases r.polling with
  | idle => simp only; split <;> simp
  | loadingGen => simp only; split <;> [skip; split] <;> simp
  | copying before rest got =>
    cases rest with
    | cons w rest => simp
    | nil => simp only; split <;> simp
  | skipping => simp

end Reader

namespace State

/-- The consumer, or the reader of a number. -/
def reader (s : State S) : Option ℕ → Option (Reader S.args)
  | none => some s.consumer
  | some i => s.readers i

theorem reader_step (s : State S) (a : Action) (who : Option ℕ) :
    (s.step a).reader who = s.reader who ∨
      (∃ r, s.reader who = some r ∧ (s.step a).reader who = some (r.step s.ring)) ∨
      ∃ cursor, cursor ≤ s.head ∧ (s.step a).reader who = some (.fresh S cursor) := by
  have hproduce : s.produce.reader who = s.reader who := by
    cases who <;> simp only [reader, produce] <;> split <;> first | rfl | (split <;> rfl)
  cases a with
  | push input =>
    refine .inl ?_
    cases who <;> simp only [reader, step] <;> split <;> first | rfl | (split <;> rfl)
  | produce => exact .inl hproduce
  | start i cursor =>
    cases who with
    | none =>
      refine .inl ?_
      simp only [reader, step]
      split <;> rfl
    | some j =>
      simp only [reader, step]
      split
      · next hstart =>
        by_cases hij : j = i
        · subst hij
          exact .inr (.inr ⟨cursor, hstart.2, by simp⟩)
        · exact .inl (by simp [hij])
      · exact .inl rfl
  | poll i =>
    cases who with
    | none =>
      refine .inl ?_
      simp only [reader, step]
      split <;> rfl
    | some j =>
      simp only [reader, step]
      split
      · next r hr =>
        by_cases hij : j = i
        · subst hij
          exact .inr (.inl ⟨r, hr, by simp⟩)
        · exact .inl (by simp [hij])
      · exact .inl rfl
  | consume =>
    cases who with
    | none =>
      simp only [reader, step, consume]
      split
      · exact .inr (.inl ⟨s.consumer, rfl, rfl⟩)
      · exact .inl rfl
      · exact .inl rfl
    | some j =>
      refine .inl ?_
      simp only [reader, step, consume]
      split <;> rfl

theorem run_snoc (s : State S) (actions : List Action) (a : Action) :
    s.run (actions ++ [a]) = (s.run actions).step a := by
  simp [run]

/-- A reader that has never been `2^30` records behind. -/
def StaysInWindow (actions : List Action) (who : Option ℕ) : Prop :=
  ∀ past, past <+: actions → ∀ r, ((init S).run past).reader who = some r →
    r.InWindow ((init S).run past)

theorem reads_of_inWindow {actions : List Action} {who : Option ℕ}
    (hw : StaysInWindow (S := S) actions who) {r : Reader S.args}
    (hr : ((init S).run actions).reader who = some r) : r.Reads ((init S).run actions) := by
  induction actions using List.reverseRecOn generalizing r with
  | nil =>
    cases who with
    | none =>
      cases hr
      exact Reader.reads_fresh le_rfl
    | some i => simp [run, init, reader] at hr
  | append_singleton actions a ih =>
    have hw' : StaysInWindow (S := S) actions who := fun past hpast =>
      hw past (hpast.trans (List.prefix_append _ _))
    have hkept := kept_run (S := S) actions
    have hlater := (hkept.step a).2
    rw [run_snoc] at hr ⊢
    rcases reader_step ((init S).run actions) a who with heq | ⟨r₀, hr₀, heq⟩ | ⟨cursor, hc, heq⟩
    · exact (ih hw' (heq ▸ hr)).later hlater
    · rw [heq] at hr
      cases hr
      exact ((ih hw' hr₀).step hkept (hw' actions List.prefix_rfl r₀ hr₀)).1.later hlater
    · rw [heq] at hr
      cases hr
      exact (Reader.reads_fresh hc).later hlater

theorem lost_overwritten {actions : List Action} {who : Option ℕ}
    (hw : StaysInWindow (S := S) actions who) {a : Action} {r r' : Reader S.args} {missed : ℕ}
    (hr : ((init S).run actions).reader who = some r)
    (hr' : ((init S).run (actions ++ [a])).reader who = some r')
    (hret : r'.returned = r.returned ++ [.lost missed]) {j : ℕ} (hj : r.cursor ≤ j)
    (hlt : j < r.cursor + missed) : ((init S).run (actions ++ [a])).Overwritten j := by
  have hkept := kept_run (S := S) actions
  rw [run_snoc] at hr' ⊢
  rcases reader_step ((init S).run actions) a who with heq | ⟨r₀, hr₀, heq⟩ | ⟨cursor, hc, heq⟩
  · rw [heq, hr] at hr'
    cases hr'
    simp at hret
  · rw [hr] at hr₀
    cases hr₀
    rw [heq] at hr'
    cases hr'
    have hstep := ((reads_of_inWindow hw hr).step hkept (hw actions List.prefix_rfl r hr)).2
    exact (hkept.step a).2.overwritten j ((hstep missed hret).2.2 j hj hlt)
  · rw [heq] at hr'
    cases hr'
    simp [Reader.fresh] at hret

section DropNewest

/-- What a push knows of the tail while it reads it: equal high words enclose a tail that was not
ahead of the consumer. -/
def TailKnows (s : State S) : Loading → Prop
  | .start => True
  | .gotHigh h => h.toNat ≤ s.ring.tailHi.toNat
  | .gotLow h l => h.toNat < s.ring.tailHi.toNat ∨
      h.toNat ≤ s.ring.tailHi.toNat ∧ joined h l ≤ s.consumer.cursor
  | .done tail => tail ≤ s.consumer.cursor

structure Guarded (s : State S) : Prop where
  reads : s.consumer.Reads s
  tailHi : s.ring.tailHi.toNat ≤ (high s.consumer.cursor).toNat
  tail : joined s.ring.tailHi s.ring.tailLo ≤ s.consumer.cursor
  tailLo : s.freeing = .high → s.ring.tailLo = low s.consumer.cursor
  knows : ∀ input loading, s.producing = .readingTail input loading → s.TailKnows loading
  room : s.head ≤ s.consumer.cursor + S.slots
  opens : (∃ input, s.producing = .opening input) ∨ s.Opened →
    s.head < s.consumer.cursor + S.slots
  never : ∀ missed, .lost missed ∉ s.consumer.returned

variable {s : State S}

theorem Guarded.not_overwritten (h : s.Guarded) : ¬ s.Overwritten s.consumer.cursor := by
  have hroom := h.room
  rintro (hlt | ⟨heq, hopen⟩)
  · omega
  · have := h.opens (.inr hopen)
    omega

theorem Guarded.inWindow (h : s.Guarded) : s.consumer.InWindow s := by
  have := h.room
  have := S.slots_lt
  simp only [Reader.InWindow]
  omega

theorem Guarded.producer {s' : State S} (h : s.Guarded) (hl : s.Later s')
    (hconsumer : s'.consumer = s.consumer) (hfreeing : s'.freeing = s.freeing)
    (htail : s'.ring.tailLo = s.ring.tailLo ∧ s'.ring.tailHi = s.ring.tailHi)
    (hknows : ∀ input loading, s'.producing = .readingTail input loading → s.TailKnows loading)
    (hroom : s'.head ≤ s.consumer.cursor + S.slots)
    (hopens : (∃ input, s'.producing = .opening input) ∨ s'.Opened →
      s'.head < s.consumer.cursor + S.slots) : s'.Guarded := by
  refine ⟨hconsumer ▸ h.reads.later hl, ?_, ?_, ?_, fun input loading hp => ?_, ?_, ?_, ?_⟩
  · rw [htail.2, hconsumer]
    exact h.tailHi
  · rw [htail.1, htail.2, hconsumer]
    exact h.tail
  · rw [hfreeing, htail.1, hconsumer]
    exact h.tailLo
  · have := hknows input loading hp
    cases loading <;> simp only [TailKnows, htail.2, hconsumer] at this ⊢ <;> exact this
  · rwa [hconsumer]
  · rwa [hconsumer]
  · rw [hconsumer]
    exact h.never

theorem Guarded.load (h : s.Guarded) {loading : Loading} (hk : s.TailKnows loading) :
    s.TailKnows (loading.step s.ring.tailLo s.ring.tailHi) := by
  cases loading with
  | start => exact le_rfl
  | gotHigh hi =>
    rcases Nat.eq_or_lt_of_le hk with heq | hlt
    · obtain rfl := UInt32.toNat_inj.mp heq
      exact .inr ⟨le_rfl, h.tail⟩
    · exact .inl hlt
  | gotLow hi lo =>
    simp only [Loading.step]
    split
    · next heq =>
      subst heq
      exact (hk.resolve_left (lt_irrefl _)).2
    · trivial
  | done tail => exact hk

theorem Guarded.produce (h : s.Guarded) (hs : s.Kept) : s.produce.Guarded := by
  have hl := hs.produce.2
  have hroom := h.room
  cases hp : s.producing with
  | idle =>
    have : s.produce = s := by simp only [State.produce, hp]
    rwa [this]
  | readingTail input loading =>
    have hload := h.load (h.knows input loading hp)
    simp only [State.produce, hp] at hl ⊢
    split at hl
    · next tail hdone =>
      rw [hdone] at hload
      refine h.producer hl rfl rfl ⟨rfl, rfl⟩ (fun input' loading' => ?_) hroom fun hopen => ?_
      · simp only
        split <;> simp
      · -- The push goes on only when it found the tail near enough.
        simp only [Opened] at hopen ⊢
        split at hopen
        · simp at hopen
        · next hnear =>
          have hnear : s.head - tail < S.slots := by simpa [refuses] using hnear
          have htail : tail ≤ s.consumer.cursor := hload
          omega
    · next hother =>
      refine h.producer hl rfl rfl ⟨rfl, rfl⟩ (fun input' loading' heq => ?_) hroom fun hopen => ?_
      · cases heq
        exact hload
      · simp [Opened] at hopen
  | dropping seen =>
    cases seen with
    | none =>
      simp only [State.produce, hp] at hl ⊢
      exact h.producer hl rfl rfl ⟨rfl, rfl⟩ (by simp) hroom (by simp [Opened])
    | some seen =>
      simp only [State.produce, hp] at hl ⊢
      exact h.producer hl rfl rfl ⟨rfl, rfl⟩ (by simp) hroom (by simp [Opened])
  | opening input =>
    have hopen := h.opens (.inl ⟨input, hp⟩)
    simp only [State.produce, hp] at hl ⊢
    exact h.producer hl rfl rfl ⟨rfl, rfl⟩ (by simp) hroom fun _ => hopen
  | filling input rest =>
    have hopen := h.opens (.inr ⟨input, rest, hp⟩)
    cases rest with
    | nil =>
      simp only [State.produce, hp] at hl ⊢
      exact h.producer hl rfl rfl ⟨rfl, rfl⟩ (by simp) hopen (by simp [Opened])
    | cons w rest =>
      simp only [State.produce, hp] at hl ⊢
      exact h.producer hl rfl rfl ⟨rfl, rfl⟩ (by simp) hroom fun _ => hopen
  | publishingLow =>
    simp only [State.produce, hp] at hl ⊢
    exact h.producer hl rfl rfl ⟨rfl, rfl⟩ (by simp) hroom (by simp [Opened])
  | publishingHigh =>
    simp only [State.produce, hp] at hl ⊢
    exact h.producer hl rfl rfl ⟨rfl, rfl⟩ (by simp) hroom (by simp [Opened])

theorem Guarded.consume (h : s.Guarded) (hs : s.Kept) : s.consume.Guarded := by
  have hl : s.Later s.consume := (hs.step .consume).2
  have hfits : s.consumer.cursor < 2 ^ 64 := lt_of_le_of_lt h.reads.cursor hs.fits
  simp only [State.consume] at hl ⊢
  split at hl
  · -- A load of the poll.
    next hfree =>
    obtain ⟨hreads, hlost⟩ := h.reads.step hs h.inWindow
    obtain ⟨hreturned, hcursor⟩ := Reader.step_returned s.ring s.consumer
    have hfits' : (s.consumer.step s.ring).cursor < 2 ^ 64 :=
      lt_of_le_of_lt hreads.cursor hs.fits
    refine ⟨hreads.later hl, h.tailHi.trans (high_mono hcursor hfits'), h.tail.trans hcursor,
      fun hhigh => ?_, fun input loading hp => ?_, h.room.trans (Nat.add_le_add_right hcursor _),
      fun hopen => lt_of_lt_of_le (h.opens hopen) (Nat.add_le_add_right hcursor _),
      fun missed hmem => ?_⟩
    · simp only at hhigh
      split at hhigh <;> cases hhigh
    · have hk := h.knows input loading hp
      cases loading with
      | start => trivial
      | gotHigh hi => exact hk
      | gotLow hi lo => exact hk.imp_right fun hk => ⟨hk.1, hk.2.trans hcursor⟩
      | done tail => exact le_trans hk hcursor
    · rcases hreturned with hsame | ⟨read, hread⟩
      · exact h.never missed (hsame ▸ hmem)
      · simp only [hread, List.mem_append, List.mem_singleton] at hmem
        rcases hmem with hmem | rfl
        · exact h.never missed hmem
        · exact h.not_overwritten (hlost missed hread).1
  · -- The low word of the tail.
    refine ⟨h.reads.later hl, h.tailHi, ?_, fun _ => rfl, fun input loading hp => ?_, h.room,
      h.opens, h.never⟩
    · have hhi := h.tailHi
      rw [toNat_high hfits] at hhi
      simp only [joined_eq, toNat_low]
      omega
    · have hk := h.knows input loading hp
      cases loading <;> exact hk
  · -- The high word of the tail.
    next hfree =>
    refine ⟨h.reads.later hl, le_rfl, ?_, by simp, fun input loading hp => ?_, h.room, h.opens,
      h.never⟩
    · simp only [h.tailLo hfree, joined_high_low hfits, le_rfl]
    · have hk := h.knows input loading hp
      have hhi := h.tailHi
      cases loading with
      | start => trivial
      | gotHigh hi => exact le_trans hk hhi
      | gotLow hi lo =>
        exact hk.imp (fun hk => lt_of_lt_of_le hk hhi) fun hk => ⟨hk.1.trans hhi, hk.2⟩
      | done tail => exact hk

theorem Guarded.step (h : s.Guarded) (hs : s.Kept) (hpolicy : S.policy = .dropNewest)
    (a : Action) : (s.step a).Guarded := by
  have hl := (hs.step a).2
  cases a with
  | produce => exact h.produce hs
  | consume => exact h.consume hs
  | push input =>
    simp only [State.step, hpolicy, if_true] at hl ⊢
    revert hl
    split
    · split
      · intro hl
        refine h.producer hl rfl rfl ⟨rfl, rfl⟩ (fun input' loading heq => ?_) h.room ?_
        · cases heq
          trivial
        · simp [Opened]
      · exact fun _ => h
    · exact fun _ => h
  | start i cursor =>
    simp only [State.step] at hl ⊢
    revert hl
    split
    · exact fun hl => h.producer hl rfl rfl ⟨rfl, rfl⟩ h.knows h.room h.opens
    · exact fun _ => h
  | poll i =>
    simp only [State.step] at hl ⊢
    revert hl
    split
    · exact fun hl => h.producer hl rfl rfl ⟨rfl, rfl⟩ h.knows h.room h.opens
    · exact fun _ => h

theorem guarded_init : (init S).Guarded where
  reads := Reader.reads_fresh le_rfl
  tailHi := by simp [init]
  tail := by simp [init, joined]
  tailLo hfree := by simp [init] at hfree
  knows input loading hp := by simp [init] at hp
  room := by simp [init]
  opens hopen := by simp [init, Opened] at hopen
  never missed := by simp [init, Reader.fresh]

theorem guarded_run (hpolicy : S.policy = .dropNewest) (actions : List Action) :
    ((init S).run actions).Guarded := by
  induction actions using List.reverseRecOn with
  | nil => exact guarded_init
  | append_singleton actions a ih =>
    rw [run_snoc]
    exact ih.step (kept_run actions) hpolicy a

end DropNewest

/-- In every run, what a reader returns that stays in its window covers the sequence numbers from its
start, a record being the one stored under its number; a loss is returned of records that are
overwritten or being overwritten; and under `DropNewest` the consumer returns none. -/
theorem reads_run (S : Shape) (actions : List Action) :
    (∀ who, StaysInWindow (S := S) actions who →
      (∀ r, ((init S).run actions).reader who = some r →
        Covers ((init S).run actions).log r.start r.returned r.cursor) ∧
      ∀ a r r' missed, ((init S).run actions).reader who = some r →
        ((init S).run (actions ++ [a])).reader who = some r' →
        r'.returned = r.returned ++ [.lost missed] →
        ∀ j, r.cursor ≤ j → j < r.cursor + missed →
          ((init S).run (actions ++ [a])).Overwritten j) ∧
    (S.policy = .dropNewest →
      ∀ missed, .lost missed ∉ ((init S).run actions).consumer.returned) := by
  refine ⟨fun who hw => ⟨fun r hr => (reads_of_inWindow hw hr).covers, ?_⟩, fun hpolicy => ?_⟩
  · intro a r r' missed hr hr' hret j hj hlt
    exact lost_overwritten hw hr hr' hret hj hlt
  · exact (guarded_run hpolicy actions).never

/-- Three places, which are reused when they are full. -/
def threePlaces : Shape := ⟨3, 1, .overwriteOldest, by decide, by decide, by decide⟩

def Read.missed? {args : ℕ} : Read args → Option ℕ
  | .lost missed => some missed
  | .record _ | .empty => none

/-- A record is pushed, and stored word by word. -/
def pushed : List Action := .push ⟨0, 0, 0, []⟩ :: List.replicate 11 .produce

/-- A reader starts, four records are stored, and the reader finds that its place is reused. -/
def overtaken : List Action :=
  .start 0 0 :: ((List.replicate 4 pushed).flatten ++ [.poll 0, .poll 0])

/-- The record that is overwritten is returned as lost. -/
theorem reads_run_lost :
    ∃ r, ((init threePlaces).run (overtaken ++ [.poll 0])).reader (some 0) = some r ∧
      r.returned = [.lost 1] ∧
      Covers ((init threePlaces).run (overtaken ++ [.poll 0])).log 0 r.returned 1 ∧
      ((init threePlaces).run (overtaken ++ [.poll 0])).Overwritten 0 := by
  have hwindow : ∀ past ∈ (overtaken ++ [Action.poll 0]).inits, (((init threePlaces).run past).readers 0).all
      (fun r => decide (((init threePlaces).run past).head < r.cursor + 2 ^ 30)) = true := by
    decide +kernel
  have hstays : ∀ {acts : List Action}, acts <+: overtaken ++ [.poll 0] →
      StaysInWindow (S := threePlaces) acts (some 0) := by
    intro acts hacts past hpast r hr
    have h := hwindow past ((List.mem_inits _ _).mpr (hpast.trans hacts))
    rw [show ((init threePlaces).run past).readers 0 = some r from hr, Option.all_some,
      decide_eq_true_eq] at h
    exact h
  have hbefore : (((init threePlaces).run overtaken).readers 0).any
      (fun r => r.cursor = 0 && r.returned.isEmpty) = true := by decide +kernel
  have hafter : (((init threePlaces).run (overtaken ++ [.poll 0])).readers 0).any (fun r =>
      r.start = 0 && r.cursor = 1 && r.returned.map Read.missed? = [some 1]) = true := by
    decide +kernel
  obtain ⟨r, hr, hfacts⟩ := (Option.any_eq_true _ _).mp hbefore
  obtain ⟨r', hr', hfacts'⟩ := (Option.any_eq_true _ _).mp hafter
  simp only [Bool.and_eq_true, decide_eq_true_eq, List.isEmpty_iff] at hfacts hfacts'
  obtain ⟨hcursor, hreturned⟩ := hfacts
  obtain ⟨⟨hstart', hcursor'⟩, hmissed⟩ := hfacts'
  have hlost : r'.returned = [.lost 1] := by
    obtain ⟨read, hread, hone⟩ := List.map_eq_singleton_iff.mp hmissed
    cases read with
    | lost missed =>
      cases hone
      exact hread
    | record => cases hone
    | empty => cases hone
  obtain ⟨hcovers, hlosses⟩ :=
    (reads_run threePlaces (overtaken ++ [.poll 0])).1 (some 0) (hstays (List.prefix_refl _))
  have hover := ((reads_run threePlaces overtaken).1 (some 0) (hstays (List.prefix_append _ _))).2
    (.poll 0) r r' 1 hr hr' (by rw [hlost, hreturned, List.nil_append])
  refine ⟨r', hr', hlost, ?_, hover 0 (by rw [hcursor]) (by rw [hcursor]; decide)⟩
  have h := hcovers r' hr'
  rwa [hstart', hcursor'] at h

end State

end WatchingZenoh.EventRing
