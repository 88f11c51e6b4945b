import WatchingZenoh.FragmentRuns
import WatchingZenoh.Library.TreeMaps

/-! A refused piece and the table. Room is made and the datagram is opened before a piece can be
refused, and the total a last piece declares is recorded before it is found to end past the ceiling:
a refusal leaves the table as it was exactly where neither comes to pass. -/

namespace WatchingZenoh.Fragments

open MergedRuns
open Std (ExtTreeMap)

namespace Pending

variable {accepted : List IpFragment} {p : Pending} {piece : IpFragment}

def content (p : Pending) : List UInt8 × List Stretch × Option ℕ := (p.bytes, p.runs, p.total)

/-- The refusal of a piece leaves the datagram unless it is a last piece past the ceiling and no total
is known. -/
theorem Tracks.content_refused_iff (h : p.Tracks accepted)
    (hrefuse : p.Refuses piece.info piece.payload) :
    (p.offer piece.info piece.payload).1.content = p.content ↔
      piece.info.more = true ∨ p.total ≠ none ∨ piece.stop ≤ maxDatagram := by
  rw [offer_of_refuses hrefuse]
  by_cases hdecl : piece.info.more = false ∧
      p.contradicts (piece.info.offset + piece.payload.length) = false
  · have hpast : maxDatagram < piece.stop := by
      simpa [Refuses, hdecl.1, hdecl.2, IpFragment.stop] using hrefuse
    have htotal := (h.contradicts_eq_false.mp hdecl.2).1
    rw [if_pos hdecl]
    simp only [content, declaring, hdecl.1, Bool.false_eq_true, if_false, Prod.mk.injEq, true_and,
      false_or, Nat.not_le.mpr hpast, or_false]
    constructor
    · intro heq hnone
      simp [hnone] at heq
    · intro hsome
      obtain ⟨t, ht⟩ := Option.ne_none_iff_exists'.mp hsome
      rw [ht, htotal t ht]
  · rw [if_neg hdecl]
    simp only [true_iff]
    by_contra hnot
    simp only [not_or, not_not, Bool.not_eq_true, Nat.not_le] at hnot
    obtain ⟨hlast, hnone, hpast⟩ := hnot
    refine hdecl ⟨hlast, h.contradicts_eq_false.mpr ⟨by simp [hnone], ?_⟩⟩
    exact h.ceiling.trans (le_of_lt hpast)

end Pending

namespace FragmentTable

inductive Op
  | push (piece : IpFragment) (now : Option ℕ)
  | expire (now : Option ℕ)

def Op.step (t : FragmentTable) : Op → FragmentTable
  | push piece now => (t.push piece now).1
  | expire now => t.expire now

def perform (t : FragmentTable) (ops : List Op) : FragmentTable := ops.foldl Op.step t

def Sound (t : FragmentTable) : Prop :=
  ∀ (k : FragmentKey) (p : Pending), t.pending[k]? = some p → ∃ pieces, p.Tracks pieces

def Within (t t' : FragmentTable) : Prop :=
  ∀ (k : FragmentKey) (p : Pending), t.pending[k]? = some p → t'.pending[k]? = some p

theorem within_sweep (t : FragmentTable) (window now : ℕ) : Within (t.sweep window now) t := by
  intro k p hp
  rw [sweep, ExtTreeMap.getElem?_filter', Option.filter_eq_some_iff] at hp
  exact hp.1

theorem within_expire (t : FragmentTable) (now : Option ℕ) : Within (t.expire now) t := by
  rw [expire.eq_def]
  split
  · exact within_sweep t _ _
  · exact fun _ _ hp => hp

theorem within_evict (t : FragmentTable) (key : FragmentKey) : Within (t.evict key) t := by
  intro k p hp
  rw [evict, TreeMaps.getElem?_erase_eq] at hp
  split_ifs at hp
  exact hp

theorem within_evictWhile (cap fuel : ℕ) (t : FragmentTable) : Within (evictWhile cap fuel t) t := by
  induction fuel generalizing t with
  | zero => exact fun _ _ hp => hp
  | succ fuel ih =>
    rw [evictWhile]
    split_ifs with hfull
    · rcases t.victim with _ | key
      · exact fun _ _ hp => hp
      · exact fun k p hp => within_evict t key k p (ih _ k p hp)
    · exact fun _ _ hp => hp

theorem within_makeRoom (t : FragmentTable) : Within t.makeRoom t := by
  rw [makeRoom]
  rcases t.maxPending with _ | cap
  · exact fun _ _ hp => hp
  · dsimp only
    split_ifs
    · exact fun _ _ hp => hp
    · exact within_evictWhile _ _ _

theorem Sound.of_within {t t' : FragmentTable} (h : Sound t') (hwithin : Within t t') : Sound t :=
  fun k p hp => h k p (hwithin k p hp)

theorem Sound.ready {t : FragmentTable} (h : Sound t) (key : FragmentKey) (now : Option ℕ)
    (tunnel : Tunnel) : Sound (t.ready key now tunnel) := by
  have hexpire := h.of_within (within_expire t now)
  rcases ready_cases t key now tunnel with ⟨-, -, hready⟩ | ⟨-, hready⟩
  · rw [hready]
    exact hexpire
  · rw [hready]
    intro k p hp
    rw [openChain, ExtTreeMap.getElem?_insert] at hp
    split_ifs at hp
    · cases hp
      exact ⟨[], Pending.tracks_fresh _ _ _⟩
    · exact hexpire.of_within (within_makeRoom _) k p hp

theorem Sound.push {t : FragmentTable} (h : Sound t) (piece : IpFragment) (now : Option ℕ) :
    Sound (t.push piece now).1 := by
  obtain ⟨entry, hentry, heq⟩ := push_eq_settle t piece now
  have hready := h.ready piece.key now piece.tunnel
  obtain ⟨pieces, htracks⟩ := hready piece.key entry hentry
  rw [heq]
  intro k p hp
  by_cases hk : piece.key = k
  · subst hk
    rw [settle_pending_self] at hp
    split_ifs at hp
    cases hp
    exact ⟨_, tracks_offered htracks piece⟩
  · rw [settle_pending_other _ _ _ hk] at hp
    exact hready k p hp

theorem sound_bounded (maxPending windowMs : Option ℕ) : Sound (bounded maxPending windowMs) := by
  intro k p hp
  simp [bounded] at hp

theorem sound_perform {t : FragmentTable} (h : Sound t) (ops : List Op) : Sound (t.perform ops) := by
  refine Steps.foldl_keeps (P := fun _ t => Sound t) (fun _ t op ht => ?_) ops [] h
  cases op with
  | push piece now => exact ht.push piece now
  | expire now => exact ht.of_within (within_expire t now)

def refuses (t : FragmentTable) (piece : IpFragment) (now : Option ℕ) : Prop :=
  (t.push piece now).1.stats.malformed ≠ t.stats.malformed

instance instDecidableRefuses (t : FragmentTable) (piece : IpFragment) (now : Option ℕ) :
    Decidable (t.refuses piece now) :=
  inferInstanceAs (Decidable (_ ≠ _))

/-- The same datagrams are pending, each with the same bytes, runs and total. -/
def Unchanged (t t' : FragmentTable) : Prop :=
  ∀ k : FragmentKey, (t'.pending[k]?).map Pending.content = (t.pending[k]?).map Pending.content

/-- The datagram of a piece is pending once the others expired, and the piece is not a last one past
the ceiling while no total is known. -/
def Harmless (t : FragmentTable) (piece : IpFragment) (now : Option ℕ) : Prop :=
  ∃ p, (t.expire now).pending[piece.key]? = some p ∧
    (piece.info.more = true ∨ p.total ≠ none ∨ piece.stop ≤ maxDatagram)

/-- The counts of what became of pieces and datagrams that were not dropped. -/
def verdicts (t : FragmentTable) : ℕ × ℕ × ℕ × ℕ :=
  (t.stats.pieces, t.stats.completed, t.stats.malformed, t.stats.overlapping)

theorem verdicts_expire (t : FragmentTable) (now : Option ℕ) :
    (t.expire now).verdicts = t.verdicts := by
  rw [expire.eq_def]
  split <;> rfl

theorem verdicts_evictWhile (cap fuel : ℕ) (t : FragmentTable) :
    (evictWhile cap fuel t).verdicts = t.verdicts := by
  induction fuel generalizing t with
  | zero => rfl
  | succ fuel ih =>
    rw [evictWhile]
    split_ifs with hfull
    · rcases t.victim with _ | key
      · rfl
      · exact ih (t.evict key)
    · rfl

theorem verdicts_makeRoom (t : FragmentTable) : t.makeRoom.verdicts = t.verdicts := by
  rw [makeRoom]
  rcases t.maxPending with _ | cap
  · rfl
  · dsimp only
    split_ifs
    · rfl
    · exact verdicts_evictWhile _ _ _

theorem verdicts_ready (t : FragmentTable) (key : FragmentKey) (now : Option ℕ) (tunnel : Tunnel) :
    (t.ready key now tunnel).verdicts = t.verdicts := by
  rcases ready_cases t key now tunnel with ⟨-, -, hready⟩ | ⟨-, hready⟩
  · rw [hready, verdicts_expire]
  · rw [hready, openChain]
    exact (verdicts_makeRoom _).trans (verdicts_expire t now)

theorem refuses_iff {t : FragmentTable} {piece : IpFragment} {now : Option ℕ} {entry : Pending}
    (heq : t.push piece now = (t.ready piece.key now piece.tunnel).settle piece entry) :
    t.refuses piece now ↔ (offered piece entry).2 = false := by
  have hcount : (t.ready piece.key now piece.tunnel).stats.malformed = t.stats.malformed :=
    congrArg (·.2.2.1) (verdicts_ready t piece.key now piece.tunnel)
  rw [refuses, heq, settle_malformed, hcount]
  cases (offered piece entry).2 <;> simp

theorem offered_snd_eq_false_iff {p : Pending} {pieces : List IpFragment} (h : p.Tracks pieces)
    {piece : IpFragment} : (offered piece p).2 = false ↔ p.Refuses piece.info piece.payload := by
  by_cases hrefuse : p.Refuses piece.info piece.payload
  · simp [offered, Pending.offer_of_refuses hrefuse, hrefuse]
  · obtain ⟨p', hoffer, -⟩ := h.offer_accepted hrefuse
    simp [offered, hoffer, hrefuse]

/-- A refused piece leaves the pending datagrams as expiry alone would exactly where it is
harmless. -/
theorem Sound.unchanged_iff {t : FragmentTable} (h : Sound t) {piece : IpFragment} {now : Option ℕ}
    (hrefuse : t.refuses piece now) :
    Unchanged (t.expire now) (t.push piece now).1 ↔ t.Harmless piece now := by
  obtain ⟨entry, hentry, heq⟩ := push_eq_settle t piece now
  obtain ⟨pieces, htracks⟩ := h.ready piece.key now piece.tunnel piece.key entry hentry
  have hrefused := (refuses_iff heq).mp hrefuse
  have hself : (t.push piece now).1.pending[piece.key]? = some (offered piece entry).1 := by
    rw [heq, settle_pending_self, if_neg]
    simp [completes, hrefused]
  rcases ready_cases t piece.key now piece.tunnel with ⟨old, hold, hready⟩ | ⟨hnone, hready⟩
  · rw [hready] at hentry
    cases hold.symm.trans hentry
    have hcontent := htracks.content_refused_iff ((offered_snd_eq_false_iff htracks).mp hrefused)
    have hother : ∀ k, piece.key ≠ k →
        (t.push piece now).1.pending[k]? = (t.expire now).pending[k]? := fun k hk => by
      rw [heq, settle_pending_other _ _ _ hk, hready]
    constructor
    · intro hsame
      have hkey := hsame piece.key
      rw [hself, hold, Option.map_some, Option.map_some] at hkey
      exact ⟨entry, hold, hcontent.mp (Option.some.inj hkey)⟩
    · rintro ⟨p, hp, hharmless⟩ k
      cases hold.symm.trans hp
      by_cases hk : piece.key = k
      · subst hk
        rw [hself, hold, Option.map_some, Option.map_some]
        exact congrArg some (hcontent.mpr hharmless)
      · rw [hother k hk]
  · constructor
    · intro hsame
      have hkey := hsame piece.key
      rw [hself, hnone] at hkey
      simp at hkey
    · rintro ⟨p, hp, -⟩
      rw [hnone] at hp
      simp at hp

end FragmentTable

end WatchingZenoh.Fragments
