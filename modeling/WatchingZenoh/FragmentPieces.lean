import WatchingZenoh.FragmentPlace

/-! What a pending datagram is of the pieces it accepted: each byte is that of the first piece with
that position, it is as long as the furthest of them reaches, and its total is where a last piece
ends. A refused piece leaves this so. -/

namespace WatchingZenoh.Fragments

open MergedRuns

namespace IpFragment

def byteAt (piece : IpFragment) (x : ℕ) : Option UInt8 :=
  if piece.info.offset ≤ x then piece.payload[x - piece.info.offset]? else none

theorem isSome_byteAt {piece : IpFragment} {x : ℕ} :
    (piece.byteAt x).isSome ↔ piece.info.offset ≤ x ∧ x < piece.stop := by
  rw [byteAt]
  split_ifs with h
  · rw [isSome_getElem?, IpFragment.stop, and_iff_right h]
    omega
  · simp [h]

theorem byteAt_of_mem {piece : IpFragment} {x : ℕ} (h : piece.info.offset ≤ x) :
    piece.byteAt x = piece.payload[x - piece.info.offset]? :=
  if_pos h

end IpFragment

def firstByte (pieces : List IpFragment) (x : ℕ) : Option UInt8 :=
  pieces.findSome? (·.byteAt x)

/-- A piece has another byte where one before it had placed one. -/
def Disagree (pieces : List IpFragment) : Prop :=
  ∃ before piece after x byte byte', pieces = before ++ piece :: after ∧
    firstByte before x = some byte ∧ piece.byteAt x = some byte' ∧ byte' ≠ byte

/-- A last piece is among the pieces and ends at `total`, and they have every byte up to it. -/
structure Whole (pieces : List IpFragment) (total : ℕ) : Prop where
  last : ∃ piece ∈ pieces, piece.info.more = false ∧ piece.stop = total
  full : ∀ x < total, (firstByte pieces x).isSome

theorem firstByte_concat (pieces : List IpFragment) (piece : IpFragment) (x : ℕ) :
    firstByte (pieces ++ [piece]) x = (firstByte pieces x).or (piece.byteAt x) := by
  simp [firstByte, List.findSome?_append]

theorem disagree_concat {pieces : List IpFragment} {piece : IpFragment} :
    Disagree (pieces ++ [piece]) ↔ Disagree pieces ∨
      ∃ x byte byte', firstByte pieces x = some byte ∧ piece.byteAt x = some byte' ∧
        byte' ≠ byte := by
  constructor
  · rintro ⟨before, p, after, x, byte, byte', heq, hfirst, hat, hne⟩
    rcases List.eq_nil_or_concat after with rfl | ⟨after, q, rfl⟩
    · obtain ⟨rfl, hp⟩ := List.append_inj' heq rfl
      cases List.singleton_inj.mp hp
      exact .inr ⟨x, byte, byte', hfirst, hat, hne⟩
    · have hsplit : pieces ++ [piece] = (before ++ p :: after) ++ [q] := by simpa using heq
      obtain ⟨rfl, -⟩ := List.append_inj' hsplit rfl
      exact .inl ⟨before, p, after, x, byte, byte', rfl, hfirst, hat, hne⟩
  · rintro (⟨before, p, after, x, byte, byte', rfl, hfirst, hat, hne⟩ |
      ⟨x, byte, byte', hfirst, hat, hne⟩)
    · exact ⟨before, p, after ++ [piece], x, byte, byte', by simp, hfirst, hat, hne⟩
    · exact ⟨pieces, piece, [], x, byte, byte', rfl, hfirst, hat, hne⟩

namespace Pending

structure Tracks (accepted : List IpFragment) (p : Pending) : Prop where
  apart : Apart p.runs
  opened : p.runs = [] ↔ accepted = []
  covers : ∀ x, Covers p.runs x ↔ (firstByte accepted x).isSome
  bytes : ∀ x byte, firstByte accepted x = some byte → p.bytes[x]? = some byte
  length_le : ∀ n, p.bytes.length ≤ n ↔ ∀ piece ∈ accepted, piece.stop ≤ n
  ends : ∀ n, p.bytes.length ≤ n ↔ ∀ r ∈ p.runs, r.2 ≤ n
  ceiling : p.bytes.length ≤ maxDatagram
  total_le : ∀ t, p.total = some t → p.bytes.length ≤ t
  total_iff : ∀ t ≤ maxDatagram,
    p.total = some t ↔ ∃ piece ∈ accepted, piece.info.more = false ∧ piece.stop = t
  overlapped_iff : p.overlapped = true ↔ Disagree accepted
  pieces_eq : p.pieces = accepted.length

theorem tracks_fresh (seq : ℕ) (now : Option ℕ) (tunnel : Tunnel) :
    (FragmentTable.fresh seq now tunnel).Tracks [] where
  apart := ⟨by simp [FragmentTable.fresh], by simp [FragmentTable.fresh]⟩
  opened := by simp [FragmentTable.fresh]
  covers := by simp [FragmentTable.fresh, Covers, firstByte]
  bytes := by simp [firstByte]
  length_le := by simp [FragmentTable.fresh]
  ends := by simp [FragmentTable.fresh]
  ceiling := by simp [FragmentTable.fresh]
  total_le := by simp [FragmentTable.fresh]
  total_iff := by simp [FragmentTable.fresh]
  overlapped_iff := by simp [FragmentTable.fresh, Disagree]
  pieces_eq := by simp [FragmentTable.fresh]

section Tracks

variable {accepted : List IpFragment} {p p' : Pending}

theorem Tracks.of_whole (h : p.Tracks accepted) {total : ℕ} (hwhole : Whole accepted total) :
    p.total = some total ∧ p.bytes.length = total := by
  obtain ⟨piece, hmem, hlast, hstop⟩ := hwhole.last
  have hle : total ≤ p.bytes.length := hstop ▸ (h.length_le _).mp le_rfl piece hmem
  have htotal : p.total = some total :=
    (h.total_iff total (hle.trans h.ceiling)).mpr ⟨piece, hmem, hlast, hstop⟩
  exact ⟨htotal, le_antisymm (h.total_le total htotal) hle⟩

theorem Tracks.complete_iff (h : p.Tracks accepted) :
    p.complete = true ↔ ∃ total, Whole accepted total := by
  rw [complete, Option.any_eq_true]
  constructor
  · rintro ⟨t, htotal, hruns⟩
    rw [decide_eq_true_eq] at hruns
    have hlen : p.bytes.length ≤ t := (h.ends t).mpr (by simp [hruns])
    have hle : t ≤ p.bytes.length := by simpa [hruns] using (h.ends p.bytes.length).mp le_rfl
    refine ⟨t, (h.total_iff t (hle.trans h.ceiling)).mp htotal, fun x hx => ?_⟩
    rw [← h.covers, hruns]
    exact ⟨(0, t), by simp, Nat.zero_le _, hx⟩
  · rintro ⟨total, hwhole⟩
    obtain ⟨htotal, hlen⟩ := h.of_whole hwhole
    obtain ⟨piece, hmem, -⟩ := hwhole.last
    have hne : p.runs ≠ [] := fun hnil => List.ne_nil_of_mem hmem (h.opened.mp hnil)
    refine ⟨total, htotal, decide_eq_true ?_⟩
    rw [eq_singleton_iff h.apart hne ((h.ends total).mp hlen.le)]
    exact fun x hx => (h.covers x).mpr (hwhole.full x hx)

theorem Tracks.declaring_past (h : p.Tracks accepted) {total : ℕ} (hpast : maxDatagram < total)
    (hold : p.total = none ∨ p.total = some total) :
    Tracks accepted { p with total := some total } := by
  refine { h with total_le := fun t ht => ?_, total_iff := fun t ht => ?_ }
  · cases ht
    exact h.ceiling.trans hpast.le
  · rw [← h.total_iff t ht]
    rcases hold with hold | hold
    · simp only [hold, Option.some.injEq, reduceCtorEq, iff_false]
      omega
    · rw [hold]

theorem Tracks.placed {piece : IpFragment} (h : p.Tracks accepted)
    (hceiling : piece.stop ≤ maxDatagram) {total : Option ℕ}
    (htotal : ∀ t, total = some t → p.bytes.length ≤ t ∧ piece.stop ≤ t)
    (htotal' : ∀ t ≤ maxDatagram,
      total = some t ↔ p.total = some t ∨ (piece.info.more = false ∧ piece.stop = t))
    (hplaced : Placed { p with total := total } piece.info.offset piece.payload p') :
    p'.Tracks (accepted ++ [piece]) := by
  have hle : (piece.info.offset, piece.stop).1 ≤ (piece.info.offset, piece.stop).2 :=
    Nat.le_add_right _ _
  have hruns : p'.runs = add p.runs (piece.info.offset, piece.stop) := hplaced.runs_eq
  have hlen : p'.bytes.length = max p.bytes.length piece.stop := hplaced.length_eq
  have hgrown : ∀ x byte, firstByte accepted x = some byte →
      (p.grown piece.stop)[x]? = some byte := fun x byte hbyte => by
    have hget := h.bytes x byte hbyte
    rw [getElem?_grown p _ (List.getElem?_eq_some_iff.mp hget).1, hget]
  have hcovers : ∀ x, Covers p'.runs x ↔ (firstByte (accepted ++ [piece]) x).isSome := fun x => by
    rw [hruns, covers_add_iff h.apart hle, h.covers, firstByte_concat, Option.isSome_or,
      Bool.or_eq_true, IpFragment.isSome_byteAt]
  refine ⟨hruns ▸ (joined_add h.apart hle).apart, ?_, hcovers, fun x byte hbyte => ?_,
    fun n => ?_, fun n => ?_, ?_, fun t ht => ?_, fun t ht => ?_, ?_, ?_⟩
  · rw [hruns]
    simp [add_ne_nil p.runs h.apart hle]
  · rw [hplaced.bytes_eq]
    rw [firstByte_concat, Option.or_eq_some_iff] at hbyte
    rcases hbyte with hbyte | ⟨hnone, hbyte⟩
    · rw [if_neg fun hx => hx.2.2 ((h.covers x).mpr (by simp [hbyte]))]
      exact hgrown x byte hbyte
    · have hin := IpFragment.isSome_byteAt.mp (by simp [hbyte] : (piece.byteAt x).isSome)
      rw [if_pos, ← IpFragment.byteAt_of_mem hin.1, hbyte]
      refine ⟨hin.1, hin.2, fun hcov => ?_⟩
      simpa [hnone] using (h.covers x).mp hcov
  · rw [hlen, max_le_iff, h.length_le, List.forall_mem_append, List.forall_mem_singleton]
  · rw [hlen, max_le_iff, h.ends, hruns, stop_le_add_iff h.apart hle]
  · rw [hlen]
    exact max_le h.ceiling hceiling
  · rw [hplaced.total_eq] at ht
    rw [hlen]
    exact max_le (htotal t ht).1 (htotal t ht).2
  · rw [hplaced.total_eq, htotal' t ht, h.total_iff t ht]
    simp [or_and_right, exists_or]
  · rw [hplaced.overlapped_iff, h.overlapped_iff, disagree_concat]
    refine or_congr_right (exists_congr fun x => ?_)
    constructor
    · rintro ⟨hx, hx', hcov, hne⟩
      obtain ⟨byte, hbyte⟩ := Option.isSome_iff_exists.mp ((h.covers x).mp hcov)
      obtain ⟨byte', hbyte'⟩ := Option.isSome_iff_exists.mp (IpFragment.isSome_byteAt.mpr ⟨hx, hx'⟩)
      refine ⟨byte, byte', hbyte, hbyte', fun heq => hne ?_⟩
      rw [← IpFragment.byteAt_of_mem hx, hbyte', heq]
      exact hgrown x byte hbyte
    · rintro ⟨byte, byte', hbyte, hbyte', hne⟩
      have hin := IpFragment.isSome_byteAt.mp (by simp [hbyte'] : (piece.byteAt x).isSome)
      refine ⟨hin.1, hin.2, (h.covers x).mpr (by simp [hbyte]), fun heq => hne ?_⟩
      rw [← IpFragment.byteAt_of_mem hin.1, hbyte'] at heq
      exact Option.some.inj (heq.symm.trans (hgrown x byte hbyte))
  · rw [hplaced.pieces_eq, List.length_append, List.length_singleton]
    exact congrArg (· + 1) h.pieces_eq

end Tracks

section Offer

variable {p : Pending} {info : FragmentInfo} {payload : List UInt8}

/-- The datagram with the total the piece declares. -/
def declaring (p : Pending) (info : FragmentInfo) (len : ℕ) : Pending :=
  { p with total := if info.more then p.total else some (info.offset + len) }

theorem declare_eq (p : Pending) (info : FragmentInfo) (len : ℕ) :
    p.declare info len =
      if info.more = false ∧ p.contradicts (info.offset + len) = true then none
      else some (p.declaring info len) := by
  rw [declare, declaredTotal, declaring]
  rcases info.more with _ | _
  · by_cases h : p.contradicts (info.offset + len) <;> simp [h]
  · simp

/-- A piece that contradicts what is known, lies past the total, or ends past the ceiling. -/
def Refuses (p : Pending) (info : FragmentInfo) (payload : List UInt8) : Prop :=
  (info.more = false ∧ p.contradicts (info.offset + payload.length) = true) ∨
    (info.more = true ∧ ∃ t, p.total = some t ∧ t < info.offset + payload.length) ∨
    maxDatagram < info.offset + payload.length

/-- A refused piece leaves the datagram, but for the total where it declares one. -/
theorem offer_of_refuses (h : p.Refuses info payload) :
    p.offer info payload =
      (if info.more = false ∧ p.contradicts (info.offset + payload.length) = false
        then p.declaring info payload.length else p, false) := by
  rw [offer, declare_eq]
  by_cases hcontra : info.more = false ∧ p.contradicts (info.offset + payload.length) = true
  · rw [if_pos hcontra, if_neg (by simp [hcontra.2])]
  · rw [if_neg hcontra]
    rcases hmore : info.more with _ | _
    · have hfree : p.contradicts (info.offset + payload.length) = false := by
        simpa [hmore] using hcontra
      have hpast : maxDatagram < info.offset + payload.length := by
        simpa [Refuses, hmore, hfree] using h
      simp [declaring, hmore, hfree, place_of_lt hpast]
    · have hsame : p.declaring info payload.length = p := by simp [declaring, hmore]
      have hpast : (p.total.any fun total => decide (total < info.offset + payload.length)) = true ∨
          maxDatagram < info.offset + payload.length := by
        simpa [Refuses, hmore, Option.any_eq_true] using h
      rcases hpast with hpast | hpast
      · simp [hsame, hpast]
      · simp [hsame, place_of_lt hpast]

theorem offer_of_not_refuses (hruns : Apart p.runs) (h : ¬ p.Refuses info payload) :
    ∃ p', p.offer info payload = (p', true) ∧
      Placed (p.declaring info payload.length) info.offset payload p' := by
  simp only [Refuses, not_or, not_and, not_exists, Nat.not_lt] at h
  obtain ⟨hfree, hpast, hceiling⟩ := h
  obtain ⟨p', hp', hplaced⟩ := place_of_le (p := p.declaring info payload.length) hruns hceiling
  refine ⟨p', ?_, hplaced⟩
  have hbelow : ((p.declaring info payload.length).total.any
      fun total => decide (total < info.offset + payload.length)) = false := by
    rcases hmore : info.more with _ | _
    · simp [declaring, hmore]
    · simpa [declaring, hmore, Option.any_eq_false] using fun t ht => hpast hmore t ht
  rw [offer, declare_eq, if_neg fun hc => hfree hc.1 hc.2]
  simp only [hbelow, Bool.false_eq_true, if_false, hp', Option.elim_some]

end Offer

section Step

variable {accepted : List IpFragment} {p : Pending} {piece : IpFragment}

theorem Tracks.contradicts_eq_false (h : p.Tracks accepted) {total : ℕ} :
    p.contradicts total = false ↔
      (∀ t, p.total = some t → t = total) ∧ p.bytes.length ≤ total := by
  rw [h.ends, h.apart.stop_le_iff, contradicts, Bool.or_eq_false_iff, Option.any_eq_false,
    Option.any_eq_false]
  simp

theorem Tracks.offer_refused (h : p.Tracks accepted) (hrefuse : p.Refuses piece.info piece.payload) :
    ((p.offer piece.info piece.payload).1).Tracks accepted := by
  rw [offer_of_refuses hrefuse]
  by_cases hdecl : piece.info.more = false ∧
      p.contradicts (piece.info.offset + piece.payload.length) = false
  · have hpast : maxDatagram < piece.info.offset + piece.payload.length := by
      simpa [Refuses, hdecl.1, hdecl.2] using hrefuse
    have htotal := (h.contradicts_eq_false.mp hdecl.2).1
    simp only [hdecl, and_self, if_true, declaring, Bool.false_eq_true, if_false]
    refine h.declaring_past hpast ?_
    rcases hold : p.total with _ | t
    · exact .inl rfl
    · rw [htotal t hold]
      exact .inr rfl
  · simpa only [hdecl, if_false] using h

theorem Tracks.offer_accepted (h : p.Tracks accepted)
    (haccept : ¬ p.Refuses piece.info piece.payload) :
    ∃ p', p.offer piece.info piece.payload = (p', true) ∧ p'.Tracks (accepted ++ [piece]) := by
  obtain ⟨p', hoffer, hplaced⟩ := offer_of_not_refuses h.apart haccept
  refine ⟨p', hoffer, ?_⟩
  simp only [Refuses, not_or, not_and, not_exists, Nat.not_lt] at haccept
  obtain ⟨hfree, hpast, hceiling⟩ := haccept
  refine h.placed hceiling (fun t ht => ?_) (fun t ht => ?_) hplaced
  · rcases hmore : piece.info.more with _ | _
    · simp only [hmore, Bool.false_eq_true, if_false, Option.some.injEq] at ht
      have hcontra := h.contradicts_eq_false.mp (Bool.eq_false_iff.mpr (hfree hmore))
      exact ⟨ht ▸ hcontra.2, ht.le⟩
    · simp only [hmore, if_true] at ht
      exact ⟨h.total_le t ht, hpast hmore t ht⟩
  · rcases hmore : piece.info.more with _ | _
    · have hcontra := h.contradicts_eq_false.mp (Bool.eq_false_iff.mpr (hfree hmore))
      simp only [Bool.false_eq_true, if_false, Option.some.injEq, true_and]
      refine ⟨.inr, fun hor => hor.elim (fun hold => (hcontra.1 t hold).symm) id⟩
    · simp

end Step

end Pending

end WatchingZenoh.Fragments
