import WatchingZenoh.FragmentPieces

/-! One push, read off the table: the datagram of the piece is there or is opened, the piece is
offered to it, and it stays with what became of it or leaves complete. The other datagrams stay as
expiry and eviction left them. -/

namespace WatchingZenoh.Fragments.FragmentTable

open MergedRuns
open Std (ExtTreeMap)

def offered (piece : IpFragment) (entry : Pending) : Pending × Bool :=
  entry.offer piece.info piece.payload

def completes (piece : IpFragment) (entry : Pending) : Bool :=
  (offered piece entry).2 && (offered piece entry).1.complete

def handedOut (piece : IpFragment) (done : Pending) : Reassembled where
  key := piece.key
  payload := done.bytes
  packetIndex := piece.packetIndex
  pieces := done.pieces
  overlapped := done.overlapped
  tunnel := done.tunnel

section Settle

variable (t : FragmentTable) (piece : IpFragment) (entry : Pending)

theorem settle_cases :
    ((offered piece entry).2 = false ∧
      t.settle piece entry = (t.refuse piece.key (offered piece entry).1, none)) ∨
    ((offered piece entry).2 = true ∧ (offered piece entry).1.complete = false ∧
      t.settle piece entry = (t.keep piece.key (offered piece entry).1, none)) ∨
    ((offered piece entry).2 = true ∧ (offered piece entry).1.complete = true ∧
      t.settle piece entry = (t.release piece.key (offered piece entry).1,
        some (handedOut piece (offered piece entry).1))) := by
  rcases hplaced : (offered piece entry).2 with _ | _
  · refine .inl ⟨rfl, ?_⟩
    rw [offered] at hplaced
    simp [settle, offered, hplaced]
  · rcases hcomplete : (offered piece entry).1.complete with _ | _
    · refine .inr (.inl ⟨rfl, rfl, ?_⟩)
      rw [offered] at hplaced hcomplete
      simp [settle, offered, hplaced, hcomplete]
    · refine .inr (.inr ⟨rfl, rfl, ?_⟩)
      rw [offered] at hplaced hcomplete
      simp [settle, offered, handedOut, hplaced, hcomplete]

theorem settle_pending_self :
    (t.settle piece entry).1.pending[piece.key]? =
      if completes piece entry then none else some (offered piece entry).1 := by
  rcases settle_cases t piece entry with ⟨hp, heq⟩ | ⟨hp, hc, heq⟩ | ⟨hp, hc, heq⟩
  · simp [heq, completes, hp, refuse]
  · simp [heq, completes, hp, hc, keep]
  · simp [heq, completes, hp, hc, release]

theorem settle_pending_other {k : FragmentKey} (hk : piece.key ≠ k) :
    (t.settle piece entry).1.pending[k]? = t.pending[k]? := by
  rcases settle_cases t piece entry with ⟨-, heq⟩ | ⟨-, -, heq⟩ | ⟨-, -, heq⟩
  · simp [heq, refuse, ExtTreeMap.getElem?_insert, hk]
  · simp [heq, keep, ExtTreeMap.getElem?_insert, hk]
  · simp [heq, release, ExtTreeMap.getElem?_erase, hk]

theorem settle_answer :
    (t.settle piece entry).2 =
      if completes piece entry then some (handedOut piece (offered piece entry).1) else none := by
  rcases settle_cases t piece entry with ⟨hp, heq⟩ | ⟨hp, hc, heq⟩ | ⟨hp, hc, heq⟩
  · simp [heq, completes, hp]
  · simp [heq, completes, hp, hc]
  · simp [heq, completes, hp, hc]

theorem settle_pieces :
    (t.settle piece entry).1.stats.pieces =
      t.stats.pieces + if (offered piece entry).2 then 1 else 0 := by
  rcases settle_cases t piece entry with ⟨hp, heq⟩ | ⟨hp, hc, heq⟩ | ⟨hp, hc, heq⟩
  · simp [heq, hp, refuse]
  · simp [heq, hp, keep]
  · simp [heq, hp, release]

theorem settle_malformed :
    (t.settle piece entry).1.stats.malformed =
      t.stats.malformed + if (offered piece entry).2 then 0 else 1 := by
  rcases settle_cases t piece entry with ⟨hp, heq⟩ | ⟨hp, hc, heq⟩ | ⟨hp, hc, heq⟩
  · simp [heq, hp, refuse]
  · simp [heq, hp, keep]
  · simp [heq, hp, release]

theorem settle_limits :
    (t.settle piece entry).1.maxPending = t.maxPending ∧
      (t.settle piece entry).1.windowMs = t.windowMs ∧
      (t.settle piece entry).1.nextSeq = t.nextSeq := by
  rcases settle_cases t piece entry with ⟨-, heq⟩ | ⟨-, -, heq⟩ | ⟨-, -, heq⟩
  · simp [heq, refuse]
  · simp [heq, keep]
  · simp [heq, release]

end Settle

variable {t : FragmentTable} {key : FragmentKey} {now : Option ℕ} {tunnel : Tunnel}

theorem ready_cases (t : FragmentTable) (key : FragmentKey) (now : Option ℕ) (tunnel : Tunnel) :
    (∃ entry, (t.expire now).pending[key]? = some entry ∧ t.ready key now tunnel = t.expire now) ∨
    ((t.expire now).pending[key]? = none ∧
      t.ready key now tunnel = (t.expire now).openChain key now tunnel) := by
  rcases hkey : (t.expire now).pending[key]? with _ | entry
  · have hmem : key ∉ (t.expire now).pending := by
      rw [ExtTreeMap.mem_iff_isSome_getElem?, hkey]
      simp
    exact .inr ⟨rfl, if_neg hmem⟩
  · have hmem : key ∈ (t.expire now).pending := by
      rw [ExtTreeMap.mem_iff_isSome_getElem?, hkey]
      rfl
    exact .inl ⟨entry, rfl, if_pos hmem⟩

theorem push_eq_settle (t : FragmentTable) (piece : IpFragment) (now : Option ℕ) :
    ∃ entry, (t.ready piece.key now piece.tunnel).pending[piece.key]? = some entry ∧
      t.push piece now = (t.ready piece.key now piece.tunnel).settle piece entry := by
  have hentry : ∃ entry, (t.ready piece.key now piece.tunnel).pending[piece.key]? = some entry := by
    rcases ready_cases t piece.key now piece.tunnel with ⟨entry, hkey, heq⟩ | ⟨-, heq⟩
    · exact ⟨entry, heq ▸ hkey⟩
    · exact ⟨_, by rw [heq, openChain]; simp; rfl⟩
  obtain ⟨entry, hentry⟩ := hentry
  refine ⟨entry, hentry, ?_⟩
  rw [push]
  simp only [hentry, Option.elim_some]

end WatchingZenoh.Fragments.FragmentTable
