import WatchingZenoh.EventRingMemory

/-! What the readers of the event ring return. A poll copies a record only while its slot is intact,
and reports a loss only of records that are overwritten; what it returns covers the sequence numbers
from its start without a gap. Under `DropNewest` the producer reads a tail that is never ahead of the
consumer, so that the consumer's record is never overwritten. -/

namespace WatchingZenoh.EventRing

open Words

variable {S : Shape}

/-- The reads of a reader take it from one sequence number to another: a record is the one stored
under the number it is read at, and a loss skips as many numbers as it counts. -/
def Covers (log : List Input) : ℕ → List (Read S.args) → ℕ → Prop
  | c, [], c' => c = c'
  | c, .record r :: reads, c' =>
    (∃ input, log[c]? = some input ∧ r = recordOf c input) ∧ Covers log (c + 1) reads c'
  | c, .empty :: reads, c' => Covers log c reads c'
  | c, .lost missed :: reads, c' => 0 < missed ∧ Covers log (c + missed) reads c'

theorem getElem?_of_prefix {log log' : List Input} (h : log <+: log') {c : ℕ} {input : Input}
    (hc : log[c]? = some input) : log'[c]? = some input := by
  obtain ⟨more, rfl⟩ := h
  rwa [List.getElem?_append_left (List.getElem?_eq_some_iff.mp hc).1]

theorem Covers.later {log log' : List Input} (hlog : log <+: log') {c c' : ℕ}
    {reads : List (Read S.args)} (h : Covers log c reads c') : Covers log' c reads c' := by
  induction reads generalizing c with
  | nil => exact h
  | cons read reads ih =>
    cases read with
    | record r =>
      obtain ⟨⟨input, hinput, rfl⟩, hrest⟩ := h
      exact ⟨⟨input, getElem?_of_prefix hlog hinput, rfl⟩, ih hrest⟩
    | empty => exact ih h
    | lost missed => exact ⟨h.1, ih h.2⟩

theorem Covers.append {log : List Input} {c c' c'' : ℕ} {reads more : List (Read S.args)}
    (h : Covers log c reads c') (hmore : Covers log c' more c'') :
    Covers log c (reads ++ more) c'' := by
  induction reads generalizing c with
  | nil =>
    obtain rfl : c = c' := h
    exact hmore
  | cons read reads ih =>
    cases read with
    | record r => exact ⟨h.1, ih h.2⟩
    | empty => exact ih h
    | lost missed => exact ⟨h.1, ih h.2⟩

namespace Reader

/-- What a poll knows of the record under its cursor. -/
def Knows (s : State S) (cursor : ℕ) : Polling S.args → Prop
  | .idle => True
  | .loadingGen => cursor < s.published
  | .copying before rest got => cursor < s.published ∧ before = genEven S cursor ∧
      (s.Overwritten cursor ∨
        ∃ input, s.log[cursor]? = some input ∧ ∀ w, w ∉ rest → got w = wordOf cursor input w)
  | .skipping => s.Overwritten cursor

structure Reads (s : State S) (r : Reader S.args) : Prop where
  cursor : r.cursor ≤ s.head
  covers : Covers s.log r.start r.returned r.cursor
  knows : Knows s r.cursor r.polling

/-- The reader is fewer than `2^30` records behind. -/
def InWindow (s : State S) (r : Reader S.args) : Prop := s.head < r.cursor + 2 ^ 30

variable {s s' : State S} {r : Reader S.args}

theorem reads_fresh {cursor : ℕ} (h : cursor ≤ s.head) : (fresh S cursor).Reads s :=
  ⟨h, rfl, trivial⟩

theorem Reads.later (h : r.Reads s) (hl : s.Later s') : r.Reads s' := by
  refine ⟨h.cursor.trans hl.head, h.covers.later hl.log, ?_⟩
  have hk := h.knows
  cases hp : r.polling with
  | idle => trivial
  | loadingGen =>
    rw [hp] at hk
    exact lt_of_lt_of_le hk hl.published
  | copying before rest got =>
    rw [hp] at hk
    obtain ⟨hlt, hbefore, hgot⟩ := hk
    refine ⟨lt_of_lt_of_le hlt hl.published, hbefore, hgot.imp (hl.overwritten _) ?_⟩
    rintro ⟨input, hinput, hgot⟩
    exact ⟨input, getElem?_of_prefix hl.log hinput, hgot⟩
  | skipping =>
    rw [hp] at hk
    exact hl.overwritten _ hk

/-- The distance a poll computes in its window: zero while the record is intact, positive once it is
overwritten. -/
theorem generation (hs : s.Kept) (hw : r.InWindow s) (hlt : r.cursor < s.published) :
    ¬ s.Overwritten r.cursor ∧ (s.ring.slotOf r.cursor).gen = genEven S r.cursor ∨
      s.Overwritten r.cursor ∧
        0 < signed ((s.ring.slotOf r.cursor).gen - genEven S r.cursor) := by
  have hhead : r.cursor < s.head := lt_of_lt_of_le hlt s.published_le.1
  by_cases hover : s.Overwritten r.cursor
  · refine .inr ⟨hover, ?_⟩
    obtain ⟨m, hcm, hm, hmod, hgen⟩ := (hs.occupant r.cursor hhead).resolve_left (not_not.mpr hover)
    have hwin : m < r.cursor + 2 ^ 30 := lt_of_le_of_lt hm hw
    obtain ⟨heven, hodd⟩ := distance_of_later hcm hmod hwin
    rcases hgen with hgen | hgen
    · rwa [hgen]
    · rwa [hgen]
  · refine .inl ⟨hover, ?_⟩
    have hinput := List.getElem?_eq_getElem (hs.head ▸ hhead : r.cursor < s.log.length)
    exact (hs.intact _ _ hinput hover).1

theorem ahead_eq (hs : s.Kept) (hc : r.cursor ≤ s.head) (hw : r.InWindow s) :
    signed (s.ring.nextLo - low r.cursor) = (s.published : ℤ) - r.cursor := by
  have hpub := s.published_le
  have hwin : s.head < r.cursor + 2 ^ 30 := hw
  rw [hs.nextLo, signed_low_sub (by omega) (by omega)]

theorem skip_eq (hs : s.Kept) (hc : r.cursor ≤ s.head) (hw : r.InWindow s) :
    (max (signed (s.ring.nextLo - low r.cursor) - S.slots) 1).toNat =
      max (s.published - r.cursor - S.slots) 1 := by
  rw [ahead_eq hs hc hw]
  omega

theorem skipped (hover : s.Overwritten r.cursor) {j : ℕ} (hj : r.cursor ≤ j)
    (hlt : j < r.cursor + max (s.published - r.cursor - S.slots) 1) : s.Overwritten j := by
  have hpub := s.published_le
  have hfar := State.published_of_overwritten hover
  rcases Nat.eq_or_lt_of_le hj with rfl | hgt
  · exact hover
  · exact .inl (by omega)

theorem copied_eq (hs : s.Kept) (hw : r.InWindow s) {before : UInt32} {got : Word S.args → UInt32}
    (hk : Knows s r.cursor (.copying before [] got))
    (hgen : (s.ring.slotOf r.cursor).gen = before) :
    ∃ input, s.log[r.cursor]? = some input ∧ copied got = recordOf r.cursor input := by
  obtain ⟨hlt, rfl, hgot⟩ := hk
  rcases generation hs hw hlt with ⟨hno, -⟩ | ⟨-, hpos⟩
  · obtain ⟨input, hinput, hgot⟩ := hgot.resolve_left hno
    have hwords : got = wordOf r.cursor input := funext fun w => hgot w (by simp)
    have hfits : r.cursor < 2 ^ 64 := (hs.lt_head hinput).trans hs.fits
    exact ⟨input, hinput, by rw [hwords, copied_wordOf S.args_le hfits]⟩
  · rw [hgen, distance_self] at hpos
    exact absurd hpos (lt_irrefl _)

theorem Reads.step (h : r.Reads s) (hs : s.Kept) (hw : r.InWindow s) :
    (r.step s.ring).Reads s ∧
      ∀ missed, (r.step s.ring).returned = r.returned ++ [.lost missed] →
        s.Overwritten r.cursor ∧ (r.step s.ring).cursor = r.cursor + missed ∧
          ∀ j, r.cursor ≤ j → j < r.cursor + missed → s.Overwritten j := by
  have hahead := ahead_eq hs h.cursor hw
  have hknows := h.knows
  have hpub := s.published_le
  have hcover : ∀ {c read}, Covers s.log r.cursor [read] c →
      Covers s.log r.start (r.returned ++ [read]) c := fun hread => h.covers.append hread
  cases hp : r.polling with
  | idle =>
    simp only [Reader.step, hp, hahead]
    split
    · exact ⟨⟨h.cursor, hcover rfl, trivial⟩, by simp⟩
    · next hgt => exact ⟨⟨h.cursor, h.covers, by simp only [Knows]; omega⟩, by simp⟩
  | loadingGen =>
    rw [hp] at hknows
    simp only [Reader.step, hp]
    rcases generation hs hw hknows with ⟨hno, hgen⟩ | ⟨hover, hpos⟩
    · have hinput := List.getElem?_eq_getElem
        (hs.head ▸ lt_of_lt_of_le hknows hpub.1 : r.cursor < s.log.length)
      rw [hgen, distance_self, if_neg (lt_irrefl _), if_pos rfl]
      exact ⟨⟨h.cursor, h.covers, hknows, rfl,
        .inr ⟨_, hinput, fun w hwn => absurd (mem_copyOrder w) hwn⟩⟩, by simp⟩
    · rw [if_neg (by omega), if_neg (by omega)]
      exact ⟨⟨h.cursor, h.covers, hover⟩, by simp⟩
  | copying before rest got =>
    rw [hp] at hknows
    cases rest with
    | cons w rest =>
      simp only [Reader.step, hp]
      obtain ⟨hlt, hbefore, hgot⟩ := hknows
      refine ⟨⟨h.cursor, h.covers, hlt, hbefore, ?_⟩, by simp⟩
      rcases hgot with hover | ⟨input, hinput, hgot⟩
      · exact .inl hover
      · by_cases hover : s.Overwritten r.cursor
        · exact .inl hover
        · refine .inr ⟨input, hinput, fun v hv => ?_⟩
          by_cases hvw : v = w
          · subst hvw
            rw [Function.update_self, (hs.intact _ input hinput hover).2]
          · rw [Function.update_of_ne hvw]
            exact hgot v (by simp [hvw, hv])
    | nil =>
      simp only [Reader.step, hp]
      split
      · next hsame =>
        obtain ⟨input, hinput, heq⟩ := copied_eq hs hw hknows hsame.1
        have hlt := hs.lt_head hinput
        exact ⟨⟨hlt, hcover ⟨⟨input, hinput, heq⟩, rfl⟩, trivial⟩, by simp⟩
      · next hdiff =>
        refine ⟨⟨h.cursor, h.covers, ?_⟩, by simp⟩
        obtain ⟨hlt, rfl, hgot⟩ := hknows
        rcases generation hs hw hlt with ⟨hno, hgen⟩ | ⟨hover, -⟩
        · obtain ⟨input, hinput, heq⟩ := copied_eq hs hw ⟨hlt, rfl, hgot⟩ hgen
          exact absurd ⟨hgen, by rw [heq]; rfl⟩ hdiff
        · exact hover
  | skipping =>
    rw [hp] at hknows
    have hfar := State.published_of_overwritten hknows
    have hpos := S.slots_pos
    simp only [Reader.step, hp, skip_eq hs h.cursor hw]
    refine ⟨⟨by simp only; omega, hcover ⟨by omega, rfl⟩, trivial⟩, fun missed hret => ?_⟩
    obtain rfl : max (s.published - r.cursor - S.slots) 1 = missed := by simpa using hret
    exact ⟨hknows, rfl, fun j hj hlt => skipped hknows hj hlt⟩

end Reader

end WatchingZenoh.EventRing
