import WatchingZenoh.FragmentRefusals

/-! The books of the table. Chains leave it complete, expired or evicted, and the positions placed in
them are counted where each leaves; the balance of what came and what left is kept by every operation.
-/

namespace WatchingZenoh.Fragments

open MergedRuns
open Std (ExtTreeMap)

namespace FragmentTable

/-- The history of a table: the chains opened, the positions placed in each chain, named by its
number, and the bytes of the completed datagrams. -/
structure Books where
  opened : ℕ
  placed : Finset (ℕ × ℕ)
  delivered : ℕ

def positionsIn (chain : ℕ) (piece : IpFragment) : Finset (ℕ × ℕ) :=
  (Finset.Ico piece.info.offset piece.stop).map ⟨Prod.mk chain, Prod.mk_right_injective chain⟩

/-- The number of the chain a piece is offered to. -/
def chainOf (t : FragmentTable) (piece : IpFragment) (now : Option ℕ) : ℕ :=
  (((t.ready piece.key now piece.tunnel).pending[piece.key]?).map Pending.seq).getD 0

def Books.note (books : Books) (t : FragmentTable) : Op → Books
  | .push piece now =>
    { opened := books.opened + if piece.key ∈ (t.expire now).pending then 0 else 1
      placed := if t.accepts (piece, now) then books.placed ∪ positionsIn (t.chainOf piece now) piece
        else books.placed
      delivered := books.delivered + ((t.push piece now).2.map fun d => d.payload.length).getD 0 }
  | .expire _ => books

def record (maxPending windowMs : Option ℕ) (ops : List Op) : FragmentTable × Books :=
  ops.foldl (fun s op => (op.step s.1, s.2.note s.1 op)) (bounded maxPending windowMs, ⟨0, ∅, 0⟩)

/-- The chains and the positions placed in them are all accounted for. -/
structure Balanced (t : FragmentTable) (books : Books) : Prop where
  chains : books.opened =
    t.stats.completed + t.stats.expired + t.stats.evicted + t.pendingCount
  positions : books.placed.card =
    books.delivered + t.stats.expiredBytes + t.stats.evictedBytes + t.pendingBytes

def bytesOf (pending : ExtTreeMap FragmentKey Pending) : ℕ :=
  (pending.toList.map fun e => e.2.heldBytes).sum

section Maps

variable {pending : ExtTreeMap FragmentKey Pending} {k : FragmentKey} {p : Pending}

theorem erase_of_getElem? (h : pending[k]? = some p) :
    bytesOf pending = p.heldBytes + bytesOf (pending.erase k) ∧
      pending.size = (pending.erase k).size + 1 := by
  have hperm := TreeMaps.toList_perm_erase pending k
  rw [h, Option.toList_some, List.map_singleton, List.singleton_append] at hperm
  constructor
  · rw [bytesOf, (hperm.map _).sum_eq, List.map_cons, List.sum_cons, bytesOf]
  · rw [← ExtTreeMap.length_toList, hperm.length_eq, List.length_cons, ExtTreeMap.length_toList]

theorem insert_erase (pending : ExtTreeMap FragmentKey Pending) (k : FragmentKey) (p : Pending) :
    bytesOf (pending.insert k p) = p.heldBytes + bytesOf (pending.erase k) ∧
      (pending.insert k p).size = (pending.erase k).size + 1 := by
  have hperm := TreeMaps.toList_insert_perm pending k p
  constructor
  · rw [bytesOf, (hperm.map _).sum_eq, List.map_cons, List.sum_cons, bytesOf]
  · rw [← ExtTreeMap.length_toList, hperm.length_eq, List.length_cons, ExtTreeMap.length_toList]

theorem erase_of_none (h : pending[k]? = none) : pending.erase k = pending := by
  refine ExtTreeMap.ext_getElem? fun k' => ?_
  rw [TreeMaps.getElem?_erase_eq]
  split_ifs with hk
  · rw [← hk, h]
  · rfl

end Maps

structure Kept (t : FragmentTable) (books : Books) : Prop where
  sound : Sound t
  balanced : Balanced t books
  opened : books.opened = t.nextSeq
  early : ∀ chain x, (chain, x) ∈ books.placed → chain < t.nextSeq
  numbered : ∀ (k : FragmentKey) (p : Pending), t.pending[k]? = some p → p.seq < t.nextSeq
  distinct : ∀ (k k' : FragmentKey) (p p' : Pending), t.pending[k]? = some p →
    t.pending[k']? = some p' → p.seq = p'.seq → k = k'
  chain : ∀ (k : FragmentKey) (p : Pending), t.pending[k]? = some p →
    ∀ x, (p.seq, x) ∈ books.placed ↔ Covers p.runs x

theorem kept_bounded (maxPending windowMs : Option ℕ) :
    Kept (bounded maxPending windowMs) ⟨0, ∅, 0⟩ where
  sound := sound_bounded maxPending windowMs
  balanced := ⟨by simp [bounded, pendingCount], rfl⟩
  opened := rfl
  early := by simp
  numbered := by simp [bounded]
  distinct := by simp [bounded]
  chain := by simp [bounded]

variable {t t' : FragmentTable} {books : Books}

theorem Kept.drop (h : Kept t books) (hwithin : Within t' t) (hseq : t'.nextSeq = t.nextSeq)
    {delivered : ℕ} (hbalanced : Balanced t' { books with delivered := delivered }) :
    Kept t' { books with delivered := delivered } where
  sound := h.sound.of_within hwithin
  balanced := hbalanced
  opened := h.opened.trans hseq.symm
  early := fun chain x hx => hseq ▸ h.early chain x hx
  numbered := fun k p hp => hseq ▸ h.numbered k p (hwithin k p hp)
  distinct := fun k k' p p' hp hp' => h.distinct k k' p p' (hwithin k p hp) (hwithin k' p' hp')
  chain := fun k p hp => h.chain k p (hwithin k p hp)

theorem Balanced.sweep (h : Balanced t books) (window now : ℕ) :
    Balanced (t.sweep window now) books := by
  have hchains := h.chains
  have hpositions := h.positions
  constructor
  · have hsize : (t.pending.filter fun _ p => inTime window now p).size ≤ t.pending.size :=
      ExtTreeMap.size_filter_le_size
    simp only [FragmentTable.sweep, pendingCount] at hchains ⊢
    omega
  · have hsplit : t.pendingBytes =
        ((t.pending.toList.filter fun e => inTime window now e.2).map fun e => e.2.heldBytes).sum +
          ((t.pending.toList.filter fun e => !inTime window now e.2).map
            fun e => e.2.heldBytes).sum := by
      rw [pendingBytes, ← List.sum_append, ← List.map_append]
      exact ((List.filter_append_perm _ _).map _).sum_eq.symm
    have hkept : (t.sweep window now).pendingBytes =
        ((t.pending.toList.filter fun e => inTime window now e.2).map fun e => e.2.heldBytes).sum := by
      rw [pendingBytes, FragmentTable.sweep, ExtTreeMap.toList_filter]
    rw [hkept]
    simp only [FragmentTable.sweep]
    omega

theorem Kept.expire (h : Kept t books) (now : Option ℕ) : Kept (t.expire now) books := by
  have hwithin := within_expire t now
  rw [expire.eq_def] at hwithin ⊢
  split at hwithin
  · exact h.drop hwithin rfl (h.balanced.sweep _ _)
  · exact h

theorem getElem?_victim {key : FragmentKey} (h : t.victim = some key) :
    ∃ p, t.pending[key]? = some p := by
  rw [victim, Option.map_eq_some_iff] at h
  obtain ⟨⟨k, p⟩, hmin, rfl⟩ := h
  exact ⟨p, ExtTreeMap.mem_toList_iff_getElem?_eq_some.mp (List.argmin_mem hmin)⟩

theorem victim_eq_none_iff : t.victim = none ↔ t.pending.size = 0 := by
  rw [victim, Option.map_eq_none_iff, List.argmin_eq_none, ← ExtTreeMap.length_toList,
    List.length_eq_zero_iff]

theorem Kept.evict (h : Kept t books) {key : FragmentKey} {p : Pending}
    (hp : t.pending[key]? = some p) : Kept (t.evict key) books := by
  obtain ⟨hbytes, hsize⟩ := erase_of_getElem? hp
  refine h.drop (within_evict t key) rfl ⟨?_, ?_⟩
  · have hchains := h.balanced.chains
    simp only [FragmentTable.evict, pendingCount] at hchains ⊢
    omega
  · have hpositions := h.balanced.positions
    rw [pendingBytes, ← bytesOf, hbytes] at hpositions
    rw [pendingBytes, ← bytesOf, FragmentTable.evict, hp]
    simp only [Option.map_some, Option.getD_some]
    omega

theorem Kept.evictWhile (h : Kept t books) (cap fuel : ℕ) : Kept (evictWhile cap fuel t) books := by
  induction fuel generalizing t with
  | zero => exact h
  | succ fuel ih =>
    rw [FragmentTable.evictWhile]
    split_ifs with hfull
    · rcases hvictim : t.victim with _ | key
      · exact h
      · obtain ⟨p, hp⟩ := getElem?_victim hvictim
        exact ih (h.evict hp)
    · exact h

theorem Kept.makeRoom (h : Kept t books) : Kept t.makeRoom books := by
  rw [FragmentTable.makeRoom]
  rcases t.maxPending with _ | cap
  · exact h
  · dsimp only
    split_ifs
    · exact h
    · exact h.evictWhile cap _

theorem Kept.insert (h : Kept t books) {key : FragmentKey} (hkey : t.pending[key]? = none)
    (now : Option ℕ) (tunnel : Tunnel) :
    Kept { t with
        pending := t.pending.insert key (fresh t.nextSeq now tunnel)
        nextSeq := t.nextSeq + 1 }
      { books with opened := books.opened + 1 } := by
  obtain ⟨hbytes, hsize⟩ := insert_erase t.pending key (fresh t.nextSeq now tunnel)
  rw [erase_of_none hkey] at hbytes hsize
  have hread : ∀ k p, (t.pending.insert key (fresh t.nextSeq now tunnel))[k]? = some p →
      (k = key ∧ p = fresh t.nextSeq now tunnel) ∨ t.pending[k]? = some p := by
    intro k p hp
    rw [ExtTreeMap.getElem?_insert] at hp
    split_ifs at hp with hk
    · cases hp
      exact .inl ⟨(Std.LawfulEqOrd.eq_of_compare hk).symm, rfl⟩
    · exact .inr hp
  refine ⟨?_, ⟨?_, ?_⟩, congrArg (· + 1) h.opened, ?_, ?_, ?_, ?_⟩
  · intro k p hp
    rcases hread k p hp with ⟨rfl, rfl⟩ | hp
    · exact ⟨[], Pending.tracks_fresh _ _ _⟩
    · exact h.sound k p hp
  · have hchains := h.balanced.chains
    simp only [pendingCount] at hchains ⊢
    omega
  · have hpositions := h.balanced.positions
    have hfresh : (fresh t.nextSeq now tunnel).heldBytes = 0 := rfl
    rw [pendingBytes, ← bytesOf] at hpositions ⊢
    simp only [hbytes, hfresh]
    omega
  · intro chain x hx
    exact (h.early chain x hx).trans (Nat.lt_succ_self _)
  · intro k p hp
    rcases hread k p hp with ⟨rfl, rfl⟩ | hp
    · exact Nat.lt_succ_self _
    · exact (h.numbered k p hp).trans (Nat.lt_succ_self _)
  · intro k k' p p' hp hp' hseq
    rcases hread k p hp with ⟨rfl, rfl⟩ | hold <;> rcases hread k' p' hp' with ⟨rfl, rfl⟩ | hold'
    · rfl
    · exact absurd (h.numbered k' p' hold') (by simp [← hseq, fresh])
    · exact absurd (h.numbered k p hold) (by simp [hseq, fresh])
    · exact h.distinct k k' p p' hold hold' hseq
  · intro k p hp x
    rcases hread k p hp with ⟨rfl, rfl⟩ | hp
    · simp only [fresh, Covers, List.not_mem_nil, false_and, exists_false, iff_false]
      exact fun hx => absurd (h.early _ x hx) (lt_irrefl _)
    · exact h.chain k p hp x

theorem Kept.ready (h : Kept t books) (piece : IpFragment) (now : Option ℕ) :
    Kept (t.ready piece.key now piece.tunnel)
      { books with opened := books.opened + if piece.key ∈ (t.expire now).pending then 0 else 1 } := by
  have hexpire := h.expire now
  rcases ready_cases t piece.key now piece.tunnel with ⟨entry, hentry, hready⟩ | ⟨hnone, hready⟩
  · have hmem : piece.key ∈ (t.expire now).pending := by
      rw [ExtTreeMap.mem_iff_isSome_getElem?, hentry]
      rfl
    rw [hready, if_pos hmem]
    exact hexpire
  · have hmem : piece.key ∉ (t.expire now).pending := by
      rw [ExtTreeMap.mem_iff_isSome_getElem?, hnone]
      simp
    rw [hready, if_neg hmem, openChain]
    refine hexpire.makeRoom.insert ?_ now piece.tunnel
    rcases hroom : (t.expire now).makeRoom.pending[piece.key]? with _ | p
    · rfl
    · have := within_makeRoom _ piece.key p hroom
      simp [hnone] at this

theorem Kept.replace (h : Kept t books) {key : FragmentKey} {p p' : Pending}
    (hp : t.pending[key]? = some p) (hsound : ∃ pieces, p'.Tracks pieces) (hseq : p'.seq = p.seq)
    {placed : Finset (ℕ × ℕ)} (hcard : placed.card + p.heldBytes = books.placed.card + p'.heldBytes)
    (hchain : ∀ x, (p.seq, x) ∈ placed ↔ Covers p'.runs x)
    (hothers : ∀ chain ≠ p.seq, ∀ x, (chain, x) ∈ placed ↔ (chain, x) ∈ books.placed) :
    Kept { t with pending := t.pending.insert key p' } { books with placed := placed } := by
  obtain ⟨hbytes, hsize⟩ := insert_erase t.pending key p'
  obtain ⟨hbytes', hsize'⟩ := erase_of_getElem? hp
  have hread : ∀ k q, (t.pending.insert key p')[k]? = some q →
      (k = key ∧ q = p') ∨ (k ≠ key ∧ t.pending[k]? = some q) := by
    intro k q hq
    rw [ExtTreeMap.getElem?_insert] at hq
    split_ifs at hq with hk
    · cases hq
      exact .inl ⟨(Std.LawfulEqOrd.eq_of_compare hk).symm, rfl⟩
    · refine .inr ⟨?_, hq⟩
      rintro rfl
      simp at hk
  refine ⟨?_, ⟨?_, ?_⟩, h.opened, ?_, ?_, ?_, ?_⟩
  · intro k q hq
    rcases hread k q hq with ⟨rfl, rfl⟩ | ⟨-, hq⟩
    · exact hsound
    · exact h.sound k q hq
  · have hchains := h.balanced.chains
    simp only [pendingCount] at hchains ⊢
    omega
  · have hpositions := h.balanced.positions
    rw [pendingBytes, ← bytesOf, hbytes'] at hpositions
    rw [pendingBytes, ← bytesOf]
    simp only [hbytes]
    omega
  · intro chain x hx
    by_cases hc : chain = p.seq
    · rw [hc]
      exact h.numbered key p hp
    · exact h.early chain x ((hothers chain hc x).mp hx)
  · intro k q hq
    rcases hread k q hq with ⟨rfl, rfl⟩ | ⟨-, hq⟩
    · exact hseq ▸ h.numbered k p hp
    · exact h.numbered k q hq
  · intro k k' q q' hq hq' heq
    rcases hread k q hq with ⟨rfl, rfl⟩ | ⟨-, hold⟩ <;>
      rcases hread k' q' hq' with ⟨rfl, rfl⟩ | ⟨-, hold'⟩
    · rfl
    · exact h.distinct k k' p q' hp hold' (hseq.symm.trans heq)
    · exact h.distinct k k' q p hold hp (heq.trans hseq)
    · exact h.distinct k k' q q' hold hold' heq
  · intro k q hq x
    rcases hread k q hq with ⟨rfl, rfl⟩ | ⟨hk, hq⟩
    · rw [hseq]
      exact hchain x
    · rw [hothers q.seq (fun heq => hk (h.distinct k key q p hq hp heq))]
      exact h.chain k q hq x

theorem card_union_positionsIn {placed : Finset (ℕ × ℕ)} {chain : ℕ} {runs : List Stretch}
    (hapart : Apart runs) (h : ∀ x, (chain, x) ∈ placed ↔ Covers runs x) (piece : IpFragment) :
    (placed ∪ positionsIn chain piece).card + (positions runs).card =
      placed.card + (positions (add runs (piece.info.offset, piece.stop))).card := by
  have hle : (piece.info.offset, piece.stop).1 ≤ (piece.info.offset, piece.stop).2 :=
    Nat.le_add_right _ _
  have hpositions : positions (add runs (piece.info.offset, piece.stop)) =
      Finset.Ico piece.info.offset piece.stop ∪ positions runs := by
    ext x
    rw [mem_positions, covers_add_iff hapart hle, Finset.mem_union, mem_positions, Finset.mem_Ico,
      or_comm]
  have hnew : positionsIn chain piece \ placed =
      (Finset.Ico piece.info.offset piece.stop \ positions runs).map
        ⟨Prod.mk chain, Prod.mk_right_injective chain⟩ := by
    ext ⟨c, x⟩
    simp only [positionsIn, Finset.mem_sdiff, Finset.mem_map, Function.Embedding.coeFn_mk,
      Prod.mk.injEq, mem_positions]
    constructor
    · rintro ⟨⟨y, hy, rfl, rfl⟩, hnot⟩
      exact ⟨y, ⟨hy, fun hcov => hnot ((h y).mpr hcov)⟩, rfl, rfl⟩
    · rintro ⟨y, ⟨hy, hnot⟩, rfl, rfl⟩
      exact ⟨⟨y, hy, rfl, rfl⟩, fun hmem => hnot ((h y).mp hmem)⟩
  have hcard := Finset.card_sdiff_add_card (positionsIn chain piece) placed
  have hcard' := Finset.card_sdiff_add_card (Finset.Ico piece.info.offset piece.stop)
    (positions runs)
  rw [hnew, Finset.card_map] at hcard
  rw [hpositions, Finset.union_comm placed]
  omega

theorem mem_positionsIn {chain c x : ℕ} {piece : IpFragment} :
    (c, x) ∈ positionsIn chain piece ↔ c = chain ∧ piece.info.offset ≤ x ∧ x < piece.stop := by
  simp only [positionsIn, Finset.mem_map, Finset.mem_Ico, Function.Embedding.coeFn_mk, Prod.mk.injEq]
  constructor
  · rintro ⟨y, hy, rfl, rfl⟩
    exact ⟨rfl, hy⟩
  · rintro ⟨rfl, hx⟩
    exact ⟨x, hx, rfl, rfl⟩

theorem heldBytes_eq {p : Pending} (h : Apart p.runs) : p.heldBytes = (positions p.runs).card :=
  (card_positions h).symm

theorem Kept.refused (h : Kept t books) {piece : IpFragment} {entry : Pending}
    (hentry : t.pending[piece.key]? = some entry) (hrefused : (offered piece entry).2 = false) :
    Kept { t with pending := t.pending.insert piece.key (offered piece entry).1 } books := by
  obtain ⟨pieces, htracks⟩ := h.sound piece.key entry hentry
  have hrefuse := (offered_snd_eq_false_iff htracks).mp hrefused
  have hsame : (offered piece entry).1.runs = entry.runs ∧
      (offered piece entry).1.seq = entry.seq := by
    rw [offered, Pending.offer_of_refuses hrefuse]
    dsimp only
    split_ifs <;> exact ⟨rfl, rfl⟩
  refine h.replace hentry ⟨_, tracks_offered htracks piece⟩ hsame.2 ?_ ?_ fun _ _ _ => Iff.rfl
  · rw [Pending.heldBytes, Pending.heldBytes, hsame.1]
  · rw [hsame.1]
    exact h.chain piece.key entry hentry

theorem Kept.placed (h : Kept t books) {piece : IpFragment} {entry : Pending}
    (hentry : t.pending[piece.key]? = some entry) (hplaced : (offered piece entry).2 = true) :
    Kept { t with pending := t.pending.insert piece.key (offered piece entry).1 }
      { books with placed := books.placed ∪ positionsIn entry.seq piece } := by
  obtain ⟨pieces, htracks⟩ := h.sound piece.key entry hentry
  have haccept : ¬ entry.Refuses piece.info piece.payload := fun hrefuse => by
    rw [(offered_snd_eq_false_iff htracks).mpr hrefuse] at hplaced
    exact Bool.noConfusion hplaced
  obtain ⟨p', hoffer, hp'⟩ := Pending.offer_of_not_refuses htracks.apart haccept
  have hruns : p'.runs = add entry.runs (piece.info.offset, piece.stop) := hp'.runs_eq
  have hseq : p'.seq = entry.seq := hp'.seq_eq
  have htracks' := tracks_offered htracks piece
  have hchain := h.chain piece.key entry hentry
  have hle : (piece.info.offset, piece.stop).1 ≤ (piece.info.offset, piece.stop).2 :=
    Nat.le_add_right _ _
  have hoffered : (offered piece entry).1 = p' := by rw [offered, hoffer]
  rw [hoffered] at htracks' ⊢
  refine h.replace hentry ⟨_, htracks'⟩ hseq ?_ (fun x => ?_) fun c hc x => ?_
  · rw [heldBytes_eq htracks.apart, heldBytes_eq htracks'.apart, hruns]
    exact card_union_positionsIn htracks.apart hchain piece
  · rw [hruns, covers_add_iff htracks.apart hle, Finset.mem_union, hchain, mem_positionsIn,
      and_iff_right rfl]
  · rw [Finset.mem_union, mem_positionsIn, or_iff_left fun hx => hc hx.1]

theorem Kept.of_same (h : Kept t books) (hpending : t'.pending = t.pending)
    (hseq : t'.nextSeq = t.nextSeq) (hcompleted : t'.stats.completed = t.stats.completed)
    (hexpired : t'.stats.expired = t.stats.expired)
    (hexpiredBytes : t'.stats.expiredBytes = t.stats.expiredBytes)
    (hevicted : t'.stats.evicted = t.stats.evicted)
    (hevictedBytes : t'.stats.evictedBytes = t.stats.evictedBytes) : Kept t' books := by
  refine h.drop (fun k p hp => hpending ▸ hp) hseq ⟨?_, ?_⟩
  · rw [pendingCount, hcompleted, hexpired, hevicted, hpending]
    exact h.balanced.chains
  · rw [pendingBytes, hexpiredBytes, hevictedBytes, hpending]
    exact h.balanced.positions

theorem heldBytes_of_complete {p : Pending} {pieces : List IpFragment} (h : p.Tracks pieces)
    (hcomplete : p.complete = true) : p.heldBytes = p.bytes.length := by
  have hwhole := h.complete_iff.mp hcomplete
  obtain ⟨total, hwhole⟩ := hwhole
  obtain ⟨htotal, hlen⟩ := h.of_whole hwhole
  rw [Pending.complete, htotal, Option.any_some, decide_eq_true_eq] at hcomplete
  rw [Pending.heldBytes, hcomplete, hlen]
  simp

theorem Kept.settle (h : Kept t books) {piece : IpFragment} {entry : Pending}
    (hentry : t.pending[piece.key]? = some entry) :
    Kept (t.settle piece entry).1
      { opened := books.opened
        placed := if (offered piece entry).2 then books.placed ∪ positionsIn entry.seq piece
          else books.placed
        delivered := books.delivered +
          ((t.settle piece entry).2.map fun d => d.payload.length).getD 0 } := by
  obtain ⟨pieces, htracks⟩ := h.sound piece.key entry hentry
  rcases settle_cases t piece entry with ⟨hp, heq⟩ | ⟨hp, hc, heq⟩ | ⟨hp, hc, heq⟩
  · rw [heq, hp]
    exact (h.refused hentry hp).of_same rfl rfl rfl rfl rfl rfl rfl
  · rw [heq, hp]
    exact (h.placed hentry hp).of_same rfl rfl rfl rfl rfl rfl rfl
  · have hkept := h.placed hentry hp
    have hheld := heldBytes_of_complete (tracks_offered htracks piece) hc
    obtain ⟨hbytes, hsize⟩ := insert_erase t.pending piece.key (offered piece entry).1
    have hchains := hkept.balanced.chains
    have hpositions := hkept.balanced.positions
    rw [pendingBytes, ← bytesOf, hbytes, hheld] at hpositions
    rw [heq, hp, if_pos rfl]
    refine hkept.drop (fun k p hk => ?_) (by rfl) ⟨?_, ?_⟩
    · rw [release, TreeMaps.getElem?_erase_eq] at hk
      split_ifs at hk with hkey
      rw [ExtTreeMap.getElem?_insert, if_neg fun hcmp => hkey (Std.LawfulEqOrd.eq_of_compare hcmp)]
      exact hk
    · simp only [release, pendingCount] at hchains ⊢
      omega
    · rw [pendingBytes, ← bytesOf]
      simp only [release, handedOut, Option.map_some, Option.getD_some] at hpositions ⊢
      omega

theorem Kept.step (h : Kept t books) (op : Op) : Kept (op.step t) (books.note t op) := by
  cases op with
  | expire now => exact h.expire now
  | push piece now =>
    obtain ⟨entry, hentry, heq⟩ := push_eq_settle t piece now
    have hpieces : (t.ready piece.key now piece.tunnel).stats.pieces = t.stats.pieces :=
      congrArg (·.1) (verdicts_ready t piece.key now piece.tunnel)
    have haccepts : t.accepts (piece, now) = (offered piece entry).2 := by
      rw [accepts, heq, settle_pieces, hpieces]
      cases (offered piece entry).2 <;> simp
    have hchain : t.chainOf piece now = entry.seq := by
      rw [chainOf, hentry, Option.map_some, Option.getD_some]
    have hsettle := (h.ready piece now).settle hentry
    rw [← heq, ← haccepts, ← hchain] at hsettle
    exact hsettle

/-- The books of every run balance, whatever the cap and the window. -/
theorem kept_record (maxPending windowMs : Option ℕ) (ops : List Op) :
    Kept (record maxPending windowMs ops).1 (record maxPending windowMs ops).2 :=
  Steps.foldl_keeps (P := fun _ (s : FragmentTable × Books) => Kept s.1 s.2)
    (fun _ _ op hs => hs.step op) ops []
    (kept_bounded maxPending windowMs)

end FragmentTable

end WatchingZenoh.Fragments
