import WatchingZenoh.Library.SuperWild

/-! Two pattern sequences side by side: whether they share a target sequence (`Meet`) and whether
one stands for everything the other does (`Includes`). Both are walks over the two sequences
that never look at a target; a pattern item that can only meet a closed target item is
`reserved`, and no wide item of the other side may take it. -/

namespace WatchingZenoh.SuperWild

structure Pairing {P T : Type*} (A : Alphabet P T) where
  reserved : P → Prop
  compat : P → P → Prop
  includes : P → P → Prop
  wide_not_reserved : ∀ {p}, A.wide p → ¬ reserved p
  closed_iff_reserved : ∀ {p t}, A.meets p t → (A.closed t ↔ reserved p)

variable {P T : Type*} {A : Alphabet P T} {B : Pairing A}

/-- The left side is asked first: a wide item on the right has its turn only when the left side
does not stand at one. -/
inductive Meet (B : Pairing A) : List P → List P → Prop
  | nil : Meet B [] []
  | stopLeft {p ps qs} : A.wide p → Meet B ps qs → Meet B (p :: ps) qs
  | takeLeft {p ps q qs} : A.wide p → ¬ B.reserved q → Meet B (p :: ps) qs →
      Meet B (p :: ps) (q :: qs)
  | stopRight {ps q qs} : (∀ p ∈ ps.head?, ¬ A.wide p) → A.wide q → Meet B ps qs →
      Meet B ps (q :: qs)
  | takeRight {p ps q qs} : ¬ A.wide p → A.wide q → ¬ B.reserved p → Meet B ps (q :: qs) →
      Meet B (p :: ps) (q :: qs)
  | item {p ps q qs} : ¬ A.wide p → ¬ A.wide q → B.compat p q → Meet B ps qs →
      Meet B (p :: ps) (q :: qs)

theorem meet_wide_left {p : P} (hp : A.wide p) {ps qs : List P} :
    Meet B (p :: ps) qs ↔
      Meet B ps qs ∨ ∃ q rest, qs = q :: rest ∧ ¬ B.reserved q ∧ Meet B (p :: ps) rest := by
  constructor
  · intro h
    cases h with
    | stopLeft _ h => exact .inl h
    | takeLeft _ hq h => exact .inr ⟨_, _, rfl, hq, h⟩
    | stopRight hn _ _ => exact absurd hp (hn p rfl)
    | takeRight hn _ _ _ => exact absurd hp hn
    | item hn _ _ _ => exact absurd hp hn
  · rintro (h | ⟨q, rest, rfl, hq, h⟩)
    · exact .stopLeft hp h
    · exact .takeLeft hp hq h

theorem meet_wide_right {ps : List P} (hps : ∀ p ∈ ps.head?, ¬ A.wide p) {q : P} (hq : A.wide q)
    {qs : List P} :
    Meet B ps (q :: qs) ↔
      Meet B ps qs ∨ ∃ p rest, ps = p :: rest ∧ ¬ B.reserved p ∧ Meet B rest (q :: qs) := by
  constructor
  · intro h
    cases h with
    | stopLeft hp _ => exact absurd hp (hps _ rfl)
    | takeLeft hp _ _ => exact absurd hp (hps _ rfl)
    | stopRight _ _ h => exact .inl h
    | takeRight _ _ hp h => exact .inr ⟨_, _, rfl, hp, h⟩
    | item _ hn _ _ => exact absurd hq hn
  · rintro (h | ⟨p, rest, rfl, hp, h⟩)
    · exact .stopRight hps hq h
    · exact .takeRight (hps p rfl) hq hp h

theorem meet_item {p q : P} (hp : ¬ A.wide p) (hq : ¬ A.wide q) {ps qs : List P} :
    Meet B (p :: ps) (q :: qs) ↔ B.compat p q ∧ Meet B ps qs := by
  constructor
  · intro h
    cases h with
    | stopLeft hw _ => exact absurd hw hp
    | takeLeft hw _ _ => exact absurd hw hp
    | stopRight _ hw _ => exact absurd hw hq
    | takeRight _ hw _ _ => exact absurd hw hq
    | item _ _ hc h => exact ⟨hc, h⟩
  · rintro ⟨hc, h⟩
    exact .item hp hq hc h

theorem not_meet_nil_cons {q : P} (hq : ¬ A.wide q) {qs : List P} : ¬ Meet B [] (q :: qs) := by
  intro h
  cases h with
  | stopRight _ hw _ => exact hq hw

theorem not_meet_cons_nil {p : P} (hp : ¬ A.wide p) {ps : List P} : ¬ Meet B (p :: ps) [] := by
  intro h
  cases h with
  | stopLeft hw _ => exact hp hw

/-- A shared target, item by item: where one side takes an item of the other, any target item
that the taken one meets will do. -/
theorem Meet.exists_common {good : T → Prop} {ps qs : List P} (h : Meet B ps qs)
    (pick : ∀ p, p ∈ ps ∨ p ∈ qs → ¬ A.wide p → ¬ B.reserved p → ∃ t, good t ∧ A.meets p t)
    (common : ∀ p ∈ ps, ∀ q ∈ qs, ¬ A.wide p → ¬ A.wide q → B.compat p q →
      ∃ t, good t ∧ A.meets p t ∧ A.meets q t) :
    ∃ ts, (∀ t ∈ ts, good t) ∧ Covers A ps ts ∧ Covers A qs ts := by
  induction h with
  | nil => exact ⟨[], by simp, .nil, .nil⟩
  | stopLeft hp _ ih =>
    obtain ⟨ts, hg, hl, hr⟩ := ih (fun p hm => pick p (by simp; tauto))
      (fun p hm => common p (by simp [hm]))
    exact ⟨ts, hg, .stop hp hl, hr⟩
  | stopRight _ hq _ ih =>
    obtain ⟨ts, hg, hl, hr⟩ := ih (fun p hm => pick p (by simp; tauto))
      (fun p hm q hm' => common p hm q (by simp [hm']))
    exact ⟨ts, hg, hl, .stop hq hr⟩
  | @takeLeft p _ q _ hp hq _ ih =>
    obtain ⟨ts, hg, hl, hr⟩ := ih (fun p hm => pick p (by simp at hm ⊢; tauto))
      (fun p hm q hm' => common p hm q (by simp [hm']))
    by_cases hw : A.wide q
    · exact ⟨ts, hg, hl, .stop hw hr⟩
    · obtain ⟨t, ht, hm⟩ := pick q (by simp) hw hq
      exact ⟨t :: ts, by simpa using ⟨ht, hg⟩,
        .take hp (fun hc => hq ((B.closed_iff_reserved hm).mp hc)) hl, .item hw hm hr⟩
  | @takeRight p _ q _ hw hq hp _ ih =>
    obtain ⟨ts, hg, hl, hr⟩ := ih (fun p hm => pick p (by simp at hm ⊢; tauto))
      (fun p hm q hm' => common p (by simp [hm]) q hm')
    obtain ⟨t, ht, hm⟩ := pick p (by simp) hw hp
    exact ⟨t :: ts, by simpa using ⟨ht, hg⟩, .item hw hm hl,
      .take hq (fun hc => hp ((B.closed_iff_reserved hm).mp hc)) hr⟩
  | @item p _ q _ hp hq hc _ ih =>
    obtain ⟨ts, hg, hl, hr⟩ := ih (fun p hm => pick p (by simp; tauto))
      (fun p hm q hm' => common p (by simp [hm]) q (by simp [hm']))
    obtain ⟨t, ht, hm, hm'⟩ := common p (by simp) q (by simp) hp hq hc
    exact ⟨t :: ts, by simpa using ⟨ht, hg⟩, .item hp hm hl, .item hq hm' hr⟩

theorem meet_of_common
    (compat_of_common : ∀ {p q t}, ¬ A.wide p → ¬ A.wide q → A.meets p t → A.meets q t →
      B.compat p q) :
    ∀ {ts : List T} {ps qs : List P}, Covers A ps ts → Covers A qs ts → Meet B ps qs := by
  -- the walk moves on in one of the three sequences at every step
  suffices h : ∀ (n : ℕ) (ts : List T) (ps qs : List P),
      ps.length + qs.length + ts.length < n → Covers A ps ts → Covers A qs ts → Meet B ps qs by
    intro ts ps qs
    exact h _ ts ps qs (Nat.lt_succ_self _)
  intro n
  induction n with
  | zero => simp
  | succ n ih =>
    intro ts ps qs hn hl hr
    rcases ps with _ | ⟨p, ps⟩
    · obtain rfl := covers_nil_left.mp hl
      rcases qs with _ | ⟨q, qs⟩
      · exact .nil
      · have hall := covers_nil_right.mp hr
        have hrest : Covers A qs ([] : List T) :=
          covers_nil_right.mpr fun q' hq' => hall q' (by simp [hq'])
        exact .stopRight (by simp) (hall q (by simp)) (ih [] [] qs (by simp at hn ⊢; omega) hl hrest)
    by_cases hp : A.wide p
    · rcases (covers_wide_cons hp).mp hl with hl' | ⟨t, ts, rfl, ht, hl'⟩
      · exact .stopLeft hp (ih ts ps qs (by simp at hn ⊢; omega) hl' hr)
      rcases qs with _ | ⟨q, qs⟩
      · simp [covers_nil_left] at hr
      by_cases hq : A.wide q
      · rcases (covers_wide_cons hq).mp hr with hr' | ⟨_, _, h, _, hr'⟩
        · exact .takeLeft hp (B.wide_not_reserved hq)
            (ih _ (p :: ps) qs (by simp at hn ⊢; omega) hl hr')
        · obtain ⟨rfl, rfl⟩ := List.cons.inj h
          exact ih _ (p :: ps) (q :: qs) (by simp at hn ⊢; omega) hl' hr'
      · obtain ⟨_, _, h, hm, hr'⟩ := (covers_item_cons hq).mp hr
        obtain ⟨rfl, rfl⟩ := List.cons.inj h
        exact .takeLeft hp (fun hres => ht ((B.closed_iff_reserved hm).mpr hres))
          (ih _ (p :: ps) qs (by simp at hn ⊢; omega) hl' hr')
    · obtain ⟨t, ts, rfl, hm, hl'⟩ := (covers_item_cons hp).mp hl
      rcases qs with _ | ⟨q, qs⟩
      · simp [covers_nil_left] at hr
      by_cases hq : A.wide q
      · rcases (covers_wide_cons hq).mp hr with hr' | ⟨_, _, h, ht, hr'⟩
        · exact .stopRight (by simpa using hp) hq (ih _ (p :: ps) qs (by simp at hn ⊢; omega) hl hr')
        · obtain ⟨rfl, rfl⟩ := List.cons.inj h
          exact .takeRight hp hq (fun hres => ht ((B.closed_iff_reserved hm).mpr hres))
            (ih _ ps (q :: qs) (by simp at hn ⊢; omega) hl' hr')
      · obtain ⟨_, _, h, hm', hr'⟩ := (covers_item_cons hq).mp hr
        obtain ⟨rfl, rfl⟩ := List.cons.inj h
        exact .item hp hq (compat_of_common hp hq hm hm')
          (ih _ ps qs (by simp at hn ⊢; omega) hl' hr')

/-- A wide item of the left side covers a run of the right side; a wide item of the right side is
covered by nothing else. -/
inductive Includes (B : Pairing A) : List P → List P → Prop
  | nil : Includes B [] []
  | stop {p ps qs} : A.wide p → Includes B ps qs → Includes B (p :: ps) qs
  | take {p ps q qs} : A.wide p → ¬ B.reserved q → Includes B (p :: ps) qs →
      Includes B (p :: ps) (q :: qs)
  | item {p ps q qs} : ¬ A.wide p → ¬ A.wide q → B.includes p q → Includes B ps qs →
      Includes B (p :: ps) (q :: qs)

theorem includes_wide {p : P} (hp : A.wide p) {ps qs : List P} :
    Includes B (p :: ps) qs ↔
      Includes B ps qs ∨ ∃ q rest, qs = q :: rest ∧ ¬ B.reserved q ∧ Includes B (p :: ps) rest := by
  constructor
  · intro h
    cases h with
    | stop _ h => exact .inl h
    | take _ hq h => exact .inr ⟨_, _, rfl, hq, h⟩
    | item hn _ _ _ => exact absurd hp hn
  · rintro (h | ⟨q, rest, rfl, hq, h⟩)
    · exact .stop hp h
    · exact .take hp hq h

theorem includes_item {p q : P} (hp : ¬ A.wide p) {ps qs : List P} :
    Includes B (p :: ps) (q :: qs) ↔ ¬ A.wide q ∧ B.includes p q ∧ Includes B ps qs := by
  constructor
  · intro h
    cases h with
    | stop hw _ => exact absurd hw hp
    | take hw _ _ => exact absurd hw hp
    | item _ hq hi h => exact ⟨hq, hi, h⟩
  · rintro ⟨hq, hi, h⟩
    exact .item hp hq hi h

theorem not_includes_nil_cons {q : P} {qs : List P} : ¬ Includes B [] (q :: qs) := by
  intro h
  cases h

theorem not_includes_cons_nil {p : P} (hp : ¬ A.wide p) {ps : List P} :
    ¬ Includes B (p :: ps) [] := by
  intro h
  cases h with
  | stop hw _ => exact hp hw

theorem Includes.covers {ps qs : List P} (h : Includes B ps qs)
    (sound : ∀ p ∈ ps, ∀ q ∈ qs, B.includes p q → ∀ t, A.meets q t → A.meets p t)
    {ts : List T} (hc : Covers A qs ts) : Covers A ps ts := by
  induction h generalizing ts with
  | nil => exact hc
  | stop hp _ ih => exact .stop hp (ih (fun p hm => sound p (by simp [hm])) hc)
  | @take p ps q qs hp hq _ ih =>
    have ih := @ih (fun p hm q hm' => sound p hm q (by simp [hm']))
    by_cases hw : A.wide q
    · obtain ⟨run, rest, rfl, hrun, hc⟩ := (covers_wide_split hw).mp hc
      obtain ⟨more, tail, rfl, hmore, hc⟩ := (covers_wide_split hp).mp (ih hc)
      refine (covers_wide_split hp).mpr ⟨run ++ more, tail, by simp, ?_, hc⟩
      intro t ht
      rcases List.mem_append.mp ht with ht | ht
      · exact hrun t ht
      · exact hmore t ht
    · obtain ⟨t, rest, rfl, hm, hc⟩ := (covers_item_cons hw).mp hc
      exact .take hp (fun hcl => hq ((B.closed_iff_reserved hm).mp hcl)) (ih hc)
  | @item p ps q qs hp hq hi _ ih =>
    obtain ⟨t, rest, rfl, hm, hc⟩ := (covers_item_cons hq).mp hc
    exact .item hp (sound p (by simp) q (by simp) hi t hm)
      (ih (fun p hm q hm' => sound p (by simp [hm]) q (by simp [hm'])) hc)

theorem Includes.refl (hrefl : ∀ p, B.includes p p) (ps : List P) : Includes B ps ps := by
  induction ps with
  | nil => exact .nil
  | cons p ps ih =>
    by_cases hp : A.wide p
    · exact .take hp (B.wide_not_reserved hp) (.stop hp ih)
    · exact .item hp hp (hrefl p) ih

theorem Includes.trans
    (keep : ∀ {q r}, ¬ B.reserved q → B.includes q r → ¬ B.reserved r)
    {ps qs : List P} (h : Includes B ps qs) {rs : List P} (h' : Includes B qs rs)
    (htrans : ∀ p ∈ ps, ∀ q ∈ qs, ∀ r ∈ rs, B.includes p q → B.includes q r → B.includes p r) :
    Includes B ps rs := by
  induction h generalizing rs with
  | nil => exact h'
  | stop hp _ ih => exact .stop hp (ih h' (fun p hm => htrans p (by simp [hm])))
  | @take p ps q qs hp hq _ ih =>
    have ih := fun {rs} h' ht => @ih rs h' ht
    by_cases hw : A.wide q
    · -- what the wide item of the middle covers is covered by the wide item above it
      generalize hmid : q :: qs = mid at h'
      induction h' with
      | nil => cases hmid
      | stop hw' h' _ =>
        obtain ⟨rfl, rfl⟩ := List.cons.inj hmid
        exact ih h' (fun p hm q hm' => htrans p hm q (by simp [hm']))
      | @take _ _ r rs _ hr _ ih' =>
        exact .take hp hr (ih' (fun p hm q hm' r hmr => htrans p hm q hm' r (by simp [hmr])) hmid)
      | item hn _ _ _ =>
        obtain ⟨rfl, rfl⟩ := List.cons.inj hmid
        exact absurd hw hn
    · rcases rs with _ | ⟨r, rs⟩
      · exact absurd h' (not_includes_cons_nil hw)
      obtain ⟨_, hi, h'⟩ := (includes_item hw).mp h'
      exact .take hp (keep hq hi)
        (ih h' (fun p hm q hm' r hmr => htrans p hm q (by simp [hm']) r (by simp [hmr])))
  | @item p ps q qs hp hq hi _ ih =>
    rcases rs with _ | ⟨r, rs⟩
    · exact absurd h' (not_includes_cons_nil hq)
    obtain ⟨hr, hi', h'⟩ := (includes_item hq).mp h'
    exact .item hp hr (htrans p (by simp) q (by simp) r (by simp) hi hi')
      (ih h' (fun p hm q hm' r hmr =>
        htrans p (by simp [hm]) q (by simp [hm']) r (by simp [hmr])))

end WatchingZenoh.SuperWild
