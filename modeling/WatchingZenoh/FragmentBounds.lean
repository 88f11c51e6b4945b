import WatchingZenoh.FragmentBooks

/-! The bounds of the table. Room is made before a chain is opened, so a cap holds in every run; a cap
of zero makes no room, and the chain it was to refuse stays. -/

namespace WatchingZenoh.Fragments.FragmentTable

open Std (ExtTreeMap)

def WithinCap (maxPending : Option ℕ) (t : FragmentTable) : Prop :=
  ∀ cap, maxPending = some cap → t.pendingCount ≤ cap

variable {t : FragmentTable}

theorem size_evictWhile {cap fuel : ℕ} (hcap : 0 < cap) (hfuel : t.pending.size ≤ fuel) :
    (evictWhile cap fuel t).pending.size < cap := by
  induction fuel generalizing t with
  | zero =>
    rw [evictWhile]
    omega
  | succ fuel ih =>
    rw [evictWhile]
    split_ifs with hfull
    · rcases hvictim : t.victim with _ | key
      · have := victim_eq_none_iff.mp hvictim
        omega
      · obtain ⟨p, hp⟩ := getElem?_victim hvictim
        have hsize := (erase_of_getElem? hp).2
        have hfuel' : (t.pending.erase key).size ≤ fuel := by omega
        exact ih hfuel'
    · omega

theorem maxPending_evictWhile (cap fuel : ℕ) (t : FragmentTable) :
    (evictWhile cap fuel t).maxPending = t.maxPending := by
  induction fuel generalizing t with
  | zero => rfl
  | succ fuel ih =>
    rw [evictWhile]
    split_ifs with hfull
    · rcases t.victim with _ | key
      · rfl
      · exact ih (t.evict key)
    · rfl

theorem maxPending_makeRoom (t : FragmentTable) : t.makeRoom.maxPending = t.maxPending := by
  rw [makeRoom]
  split
  · rfl
  · split_ifs
    · rfl
    · exact maxPending_evictWhile _ _ _

structure Capped (cap : ℕ) (t : FragmentTable) : Prop where
  limit : t.maxPending = some cap
  within : t.pendingCount ≤ cap

variable {cap : ℕ}

theorem Capped.expire (h : Capped cap t) (now : Option ℕ) : Capped cap (t.expire now) := by
  rw [expire.eq_def]
  split
  · exact ⟨h.limit, (ExtTreeMap.size_filter_le_size).trans h.within⟩
  · exact h

theorem Capped.ready (h : Capped cap t) (hcap : 0 < cap) (key : FragmentKey) (now : Option ℕ)
    (tunnel : Tunnel) : Capped cap (t.ready key now tunnel) := by
  have hexpire := h.expire now
  rcases ready_cases t key now tunnel with ⟨-, -, hready⟩ | ⟨hnone, hready⟩
  · rw [hready]
    exact hexpire
  · have hroom : (t.expire now).makeRoom.pending.size < cap := by
      rw [makeRoom, hexpire.limit]
      dsimp only
      rw [if_neg hcap.ne']
      exact size_evictWhile hcap le_rfl
    have hsize : ∀ p, ((t.expire now).makeRoom.pending.insert key p).size ≤ cap := fun p =>
      ExtTreeMap.size_insert_le.trans hroom
    rw [hready, openChain]
    exact ⟨(maxPending_makeRoom _).trans hexpire.limit, hsize _⟩

theorem Capped.step (h : Capped cap t) (hcap : 0 < cap) (op : Op) : Capped cap (op.step t) := by
  cases op with
  | expire now => exact h.expire now
  | push piece now =>
    obtain ⟨entry, hentry, heq⟩ := push_eq_settle t piece now
    have hready := h.ready hcap piece.key now piece.tunnel
    obtain ⟨hlimit, -⟩ := settle_limits (t.ready piece.key now piece.tunnel) piece entry
    have hsize := (erase_of_getElem? hentry).2
    have hinsert := fun p =>
      (insert_erase (t.ready piece.key now piece.tunnel).pending piece.key p).2
    have hwithin := hready.within
    rw [Op.step, heq]
    refine ⟨hlimit.trans hready.limit, ?_⟩
    rw [pendingCount] at hwithin ⊢
    rcases settle_cases (t.ready piece.key now piece.tunnel) piece entry with
      ⟨-, hs⟩ | ⟨-, -, hs⟩ | ⟨-, -, hs⟩
    · rw [hs, refuse, hinsert]
      omega
    · rw [hs, keep, hinsert]
      omega
    · rw [hs, release]
      dsimp only
      omega

theorem capped_record (hcap : 0 < cap) (windowMs : Option ℕ) (ops : List Op) :
    Capped cap (record (some cap) windowMs ops).1 :=
  Steps.foldl_keeps (P := fun _ (s : FragmentTable × Books) => Capped cap s.1)
    (fun _ _ op hs => hs.step hcap op) ops [] ⟨rfl, Nat.zero_le _⟩

/-- A datagram of one piece of three that is never completed. -/
def strayPiece : IpFragment where
  src := ⟨⟨#[10, 0, 0, 1, 0, 0, 0, 0, 0, 0, 0, 0, 0, 0, 0, 0], rfl⟩, 4, 0⟩
  dst := ⟨⟨#[10, 0, 0, 2, 0, 0, 0, 0, 0, 0, 0, 0, 0, 0, 0, 0], rfl⟩, 4, 0⟩
  proto := 17
  info := ⟨9, 0, true⟩
  payload := [1]
  packetIndex := 0
  tunnel := ⟨[]⟩

theorem record_strayPiece (windowMs : Option ℕ) :
    0 < (record (some 0) windowMs [.push strayPiece none]).1.pendingCount := by
  obtain ⟨entry, hentry, heq⟩ := push_eq_settle (bounded (some 0) windowMs) strayPiece none
  have hfresh : fresh 0 none strayPiece.tunnel = entry := by
    simpa [ready, FragmentTable.expire, bounded, openChain, makeRoom] using hentry
  have hself := settle_pending_self
    ((bounded (some 0) windowMs).ready strayPiece.key none strayPiece.tunnel) strayPiece entry
  rw [← hfresh, if_neg (by decide +kernel)] at hself
  have hsize := (erase_of_getElem? hself).2
  have hrecord : (record (some 0) windowMs [.push strayPiece none]).1 =
      ((bounded (some 0) windowMs).push strayPiece none).1 := rfl
  rw [hrecord, heq, ← hfresh, pendingCount]
  omega

/-- The table keeps its bounds and its books in every run exactly where its cap is not zero. -/
theorem bounds_and_books_iff (maxPending windowMs : Option ℕ) :
    (∀ ops, WithinCap maxPending (record maxPending windowMs ops).1 ∧
      Balanced (record maxPending windowMs ops).1 (record maxPending windowMs ops).2) ↔
      maxPending ≠ some 0 := by
  constructor
  · rintro hall rfl
    have hwithin := (hall [.push strayPiece none]).1 0 rfl
    exact absurd (record_strayPiece windowMs) (Nat.not_lt.mpr hwithin)
  · intro hcap ops
    refine ⟨?_, (kept_record maxPending windowMs ops).balanced⟩
    rintro cap rfl
    have hpos : 0 < cap := Nat.pos_of_ne_zero fun hzero => hcap (congrArg some hzero)
    exact (capped_record hpos windowMs ops).within

/-- With a cap of zero the piece that was to be dropped stays. -/
theorem cap_zero_exceeded :
    ¬ ∀ (maxPending windowMs : Option ℕ) (ops : List Op),
      WithinCap maxPending (record maxPending windowMs ops).1 := by
  intro hclaim
  have hwithin := hclaim (some 0) none [.push strayPiece none] 0 rfl
  exact absurd (record_strayPiece none) (Nat.not_lt.mpr hwithin)

end WatchingZenoh.Fragments.FragmentTable
