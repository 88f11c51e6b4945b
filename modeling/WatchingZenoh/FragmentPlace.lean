import WatchingZenoh.Fragments

/-! What placing a piece does, byte by byte: a position that a run covers keeps its byte, one that no
run covers gets the byte of the piece, and the piece overlaps where it disagrees with a byte that was
there. -/

namespace WatchingZenoh.Fragments

open MergedRuns

namespace Pending

variable {offset stop : ℕ} {payload : List UInt8}

/-- A walk that has come to a position of the piece it places. -/
structure Placing.Within (offset : ℕ) (payload : List UInt8) (stop : ℕ) (s : Placing) : Prop where
  fits : stop = offset + payload.length
  start : offset ≤ s.pos
  pos : s.pos ≤ stop
  room : stop ≤ s.bytes.length

/-- What the rest of a walk does, given the runs before it. -/
structure Placing.Places (offset : ℕ) (payload : List UInt8) (stop : ℕ) (runs : List Stretch)
    (s s' : Placing) : Prop where
  length_eq : s'.bytes.length = s.bytes.length
  bytes_eq : ∀ x, s'.bytes[x]? =
    if s.pos ≤ x ∧ x < stop ∧ ¬ Covers runs x then payload[x - offset]? else s.bytes[x]?
  overlapped_iff : s'.overlapped = true ↔ s.overlapped = true ∨
    ∃ x, s.pos ≤ x ∧ x < stop ∧ Covers runs x ∧ s.bytes[x]? ≠ payload[x - offset]?

theorem getElem?_slice {start i : ℕ} (hstart : offset ≤ start) (hi : i < stop - start) :
    (slice offset payload start stop)[i]? = payload[start + i - offset]? := by
  rw [slice, List.getElem?_take_of_lt hi, List.getElem?_drop]
  congr 1
  omega

theorem length_slice {start : ℕ} (hstart : offset ≤ start) (hstop : stop ≤ offset + payload.length) :
    (slice offset payload start stop).length = stop - start := by
  rw [slice, List.length_take, List.length_drop]
  omega

section Write

variable {s : Placing} {mid : ℕ}

theorem Placing.length_write (h : s.Within offset payload stop) (hmid : s.pos ≤ mid)
    (hle : mid ≤ stop) : (s.write offset payload mid).bytes.length = s.bytes.length := by
  have hfits := h.fits
  have hroom := h.room
  rw [Placing.write, List.length_append, List.length_append, List.length_take, List.length_drop,
    length_slice h.start (by omega)]
  omega

theorem Placing.getElem?_write (h : s.Within offset payload stop) (hmid : s.pos ≤ mid)
    (hle : mid ≤ stop) (x : ℕ) :
    (s.write offset payload mid).bytes[x]? =
      if s.pos ≤ x ∧ x < mid then payload[x - offset]? else s.bytes[x]? := by
  have hfits := h.fits
  have hroom := h.room
  have htake : (s.bytes.take s.pos).length = s.pos := by
    rw [List.length_take]
    omega
  have hslice : (slice offset payload s.pos mid).length = mid - s.pos :=
    length_slice h.start (hfits ▸ hle)
  rw [Placing.write, List.append_assoc]
  split_ifs with hx
  · rw [List.getElem?_append_right (by omega), htake, List.getElem?_append_left (by omega),
      getElem?_slice h.start (by omega)]
    congr 1
    omega
  · rcases Nat.lt_or_ge x s.pos with hlt | hge
    · rw [List.getElem?_append_left (by omega), List.getElem?_take_of_lt hlt]
    · rw [List.getElem?_append_right (by omega), List.getElem?_append_right (by omega), htake,
        hslice, List.getElem?_drop]
      congr 1
      omega

theorem Placing.overlapped_compare (h : s.Within offset payload stop) :
    (s.compare offset payload mid).overlapped = true ↔ s.overlapped = true ∨
      ∃ x, s.pos ≤ x ∧ x < mid ∧ s.bytes[x]? ≠ payload[x - offset]? := by
  have hread : ∀ i < mid - s.pos, ((s.bytes.drop s.pos).take (mid - s.pos))[i]? = s.bytes[s.pos + i]? :=
    fun i hi => by rw [List.getElem?_take_of_lt hi, List.getElem?_drop]
  have hend : ∀ i, mid - s.pos ≤ i → ((s.bytes.drop s.pos).take (mid - s.pos))[i]? =
      (slice offset payload s.pos mid)[i]? := fun i hi => by
    rw [slice, List.getElem?_take_eq_none hi, List.getElem?_take_eq_none hi]
  simp only [Placing.compare, Bool.or_eq_true, decide_eq_true_eq]
  refine or_congr_right ?_
  rw [ne_eq, List.ext_getElem?_iff, not_forall]
  constructor
  · rintro ⟨i, hi⟩
    rcases Nat.lt_or_ge i (mid - s.pos) with hlt | hge
    · rw [hread i hlt, getElem?_slice h.start hlt] at hi
      exact ⟨s.pos + i, by omega, by omega, hi⟩
    · exact absurd (hend i hge) hi
  · rintro ⟨x, hx, hx', hne⟩
    refine ⟨x - s.pos, ?_⟩
    rw [hread _ (by omega), getElem?_slice h.start (by omega), Nat.add_sub_cancel' hx]
    exact hne

end Write

theorem Placing.places_gap {s : Placing} (h : s.Within offset payload stop) {start : ℕ}
    (hbefore : start < stop) :
    ∃ s', (if s.pos < start then s.write offset payload (min start stop) else s) = s' ∧
      s'.Within offset payload stop ∧ s'.pos = max s.pos start ∧
      s'.overlapped = s.overlapped ∧ s'.bytes.length = s.bytes.length ∧
      ∀ x, s'.bytes[x]? = if s.pos ≤ x ∧ x < start then payload[x - offset]? else s.bytes[x]? := by
  have hstart := h.start
  have hroom := h.room
  rw [min_eq_left hbefore.le]
  refine ⟨_, rfl, ?_⟩
  split_ifs with hgap
  · have hlen := length_write h hgap.le hbefore.le
    refine ⟨⟨h.fits, hstart.trans hgap.le, hbefore.le, hlen ▸ hroom⟩, ?_, rfl, hlen,
      getElem?_write h hgap.le hbefore.le⟩
    exact (max_eq_right hgap.le).symm
  · refine ⟨h, (max_eq_left (by omega)).symm, rfl, rfl, fun x => ?_⟩
    rw [if_neg (by omega)]

theorem Placing.places_pass {s : Placing} (h : s.Within offset payload stop) {run : Stretch}
    (hrun : run.1 ≤ run.2) (hahead : s.pos < run.2) (hbefore : run.1 < stop) :
    ∃ s', s.pass offset payload stop run = s' ∧ s'.Within offset payload stop ∧
      s'.pos = min run.2 stop ∧ s'.bytes.length = s.bytes.length ∧
      (∀ x, s'.bytes[x]? =
        if s.pos ≤ x ∧ x < run.1 then payload[x - offset]? else s.bytes[x]?) ∧
      (s'.overlapped = true ↔ s.overlapped = true ∨
        ∃ x, s.pos ≤ x ∧ x < stop ∧ (run.1 ≤ x ∧ x < run.2) ∧
          s.bytes[x]? ≠ payload[x - offset]?) := by
  obtain ⟨mid, hmid, hwithin, hpos, hover, hlen, hbytes⟩ := places_gap h hbefore
  have hposLe := h.pos
  rw [Placing.pass, hmid]
  by_cases hcmp : mid.pos < min run.2 stop
  · refine ⟨_, if_pos hcmp, ⟨h.fits, hwithin.start.trans hcmp.le, min_le_right _ _, hwithin.room⟩,
      rfl, hlen, hbytes, ?_⟩
    rw [overlapped_compare hwithin, hover]
    refine or_congr_right (exists_congr fun x => ?_)
    rw [hbytes, hpos, max_le_iff, lt_min_iff]
    constructor
    · rintro ⟨⟨hx, hx₁⟩, ⟨hx₂, hx₃⟩, hne⟩
      rw [if_neg (by omega)] at hne
      exact ⟨hx, hx₃, ⟨hx₁, hx₂⟩, hne⟩
    · rintro ⟨hx, hx₃, ⟨hx₁, hx₂⟩, hne⟩
      refine ⟨⟨hx, hx₁⟩, ⟨hx₂, hx₃⟩, ?_⟩
      rwa [if_neg (by omega)]
  · -- only an empty run leaves nothing to compare
    have hmin : mid.pos = min run.2 stop := by omega
    refine ⟨_, if_neg hcmp, hwithin, hmin, hlen, hbytes, ?_⟩
    rw [hover, eq_comm, or_iff_left]
    rintro ⟨x, hx, hx₃, ⟨hx₁, hx₂⟩, -⟩
    omega

theorem Placing.places_finish {s : Placing} (h : s.Within offset payload stop)
    {runs : List Stretch} (hfar : ∀ x, s.pos ≤ x → x < stop → ¬ Covers runs x) :
    s.Places offset payload stop runs (s.finish offset payload stop) := by
  have hover : ¬ ∃ x, s.pos ≤ x ∧ x < stop ∧ Covers runs x ∧ s.bytes[x]? ≠ payload[x - offset]? := by
    rintro ⟨x, hx, hx', hcov, -⟩
    exact hfar x hx hx' hcov
  rw [Placing.finish]
  split_ifs with hlt
  · refine ⟨length_write h hlt.le le_rfl, fun x => ?_, (or_iff_left hover).symm⟩
    rw [getElem?_write h hlt.le le_rfl]
    refine if_congr ?_ rfl rfl
    exact ⟨fun hx => ⟨hx.1, hx.2, hfar x hx.1 hx.2⟩, fun hx => ⟨hx.1, hx.2.1⟩⟩
  · refine ⟨rfl, fun x => ?_, (or_iff_left hover).symm⟩
    rw [if_neg fun hx => hlt (hx.1.trans_lt hx.2.1)]

theorem Placing.Places.of_pass {run : Stretch} {runs : List Stretch} {s mid s' : Placing}
    (hpos : mid.pos = min run.2 stop) (hlen : mid.bytes.length = s.bytes.length)
    (hahead : s.pos < run.2) (hgap : ∀ r ∈ runs, run.2 < r.1)
    (hbytes : ∀ x, mid.bytes[x]? =
      if s.pos ≤ x ∧ x < run.1 then payload[x - offset]? else s.bytes[x]?)
    (hover : mid.overlapped = true ↔ s.overlapped = true ∨
      ∃ x, s.pos ≤ x ∧ x < stop ∧ (run.1 ≤ x ∧ x < run.2) ∧ s.bytes[x]? ≠ payload[x - offset]?)
    (hrun : run.1 < stop) (h : mid.Places offset payload stop runs s') (hle : run.1 ≤ run.2) :
    s.Places offset payload stop (run :: runs) s' := by
  have hfar : ∀ x < run.2, ¬ Covers runs x := by
    rintro x hx ⟨r, hr, hr₁, -⟩
    have := hgap r hr
    omega
  have hcons : ∀ x, Covers (run :: runs) x ↔ (run.1 ≤ x ∧ x < run.2) ∨ Covers runs x := fun x => by
    simp [Covers]
  refine ⟨h.length_eq.trans hlen, fun x => ?_, ?_⟩
  · have hx' := hcons x
    rw [h.bytes_eq, hbytes]
    by_cases hx : x < run.2
    · have := hfar x hx
      by_cases hx₁ : s.pos ≤ x ∧ x < run.1
      · rw [if_neg (by omega), if_pos hx₁, if_pos (by grind)]
      · rw [if_neg (by omega), if_neg hx₁, if_neg (by grind)]
    · rw [if_neg (by omega : ¬ (s.pos ≤ x ∧ x < run.1))]
      refine if_congr ?_ rfl rfl
      grind
  · rw [h.overlapped_iff, hover, or_assoc]
    refine or_congr_right ?_
    constructor
    · rintro (⟨x, hx, hx', hin, hne⟩ | ⟨x, hx, hx', hcov, hne⟩)
      · exact ⟨x, hx, hx', (hcons x).mpr (.inl hin), hne⟩
      · rw [hbytes, if_neg (by omega)] at hne
        exact ⟨x, by omega, hx', (hcons x).mpr (.inr hcov), hne⟩
    · rintro ⟨x, hx, hx', hcov, hne⟩
      rcases (hcons x).mp hcov with hin | hcov
      · exact .inl ⟨x, hx, hx', hin, hne⟩
      · have hxr : run.2 ≤ x := Nat.le_of_not_lt fun hlt => hfar x hlt hcov
        refine .inr ⟨x, by omega, hx', hcov, ?_⟩
        rwa [hbytes, if_neg (by omega)]

theorem Placing.places_walk {runs : List Stretch} (hruns : Apart runs) {s : Placing}
    (h : s.Within offset payload stop) :
    s.Places offset payload stop runs (Placing.walk offset payload stop runs s) := by
  induction runs generalizing s with
  | nil => exact places_finish h (by simp [Covers])
  | cons run runs ih =>
    obtain ⟨hgap, hgaps⟩ := List.pairwise_cons.mp hruns.gaps
    have hle := hruns.each run List.mem_cons_self
    have hapart : Apart runs := ⟨fun r hr => hruns.each r (List.mem_cons_of_mem _ hr), hgaps⟩
    have hbehind : ∀ x, Covers (run :: runs) x → run.1 ≤ x := by
      rintro x ⟨r, hr, hr₁, -⟩
      rcases List.mem_cons.mp hr with rfl | hr
      · exact hr₁
      · have := hgap r hr
        omega
    rw [Placing.walk]
    by_cases hpast : run.2 ≤ s.pos
    · rw [if_pos hpast]
      have hcons : ∀ x, s.pos ≤ x → (Covers (run :: runs) x ↔ Covers runs x) := fun x hx => by
        simp only [Covers, List.exists_mem_cons_iff, or_iff_right_iff_imp]
        omega
      obtain ⟨hlen, hbytes, hover⟩ := ih hapart h
      refine ⟨hlen, fun x => ?_, hover.trans (or_congr_right (exists_congr fun x => ?_))⟩
      · rw [hbytes]
        refine if_congr (and_congr_right fun hx => ?_) rfl rfl
        rw [hcons x hx]
      · refine and_congr_right fun hx => ?_
        rw [hcons x hx]
    · rw [if_neg hpast]
      by_cases hfar : stop ≤ run.1
      · rw [if_pos hfar]
        exact places_finish h fun x _ hx hcov => absurd (hbehind x hcov) (by omega)
      · rw [if_neg hfar]
        obtain ⟨mid, hmid, hwithin, hpos, hlen, hbytes, hover⟩ :=
          places_pass h hle (by omega) (by omega : run.1 < stop)
        rw [hmid]
        refine Places.of_pass hpos hlen (by omega) hgap hbytes hover (by omega) ?_ hle
        split_ifs with hdone
        · exact places_finish hwithin fun x hx hx' => absurd hx (by omega)
        · exact ih hapart hwithin

def grown (p : Pending) (stop : ℕ) : List UInt8 :=
  p.bytes ++ List.replicate (stop - p.bytes.length) 0

theorem length_grown (p : Pending) (stop : ℕ) : (p.grown stop).length = max p.bytes.length stop := by
  rw [grown, List.length_append, List.length_replicate]
  omega

theorem getElem?_grown (p : Pending) (stop : ℕ) {x : ℕ} (hx : x < p.bytes.length) :
    (p.grown stop)[x]? = p.bytes[x]? := by
  rw [grown, List.getElem?_append_left hx]

/-- A datagram after a piece was placed in it. -/
structure Placed (p : Pending) (offset : ℕ) (payload : List UInt8) (p' : Pending) : Prop where
  runs_eq : p'.runs = add p.runs (offset, offset + payload.length)
  length_eq : p'.bytes.length = max p.bytes.length (offset + payload.length)
  bytes_eq : ∀ x, p'.bytes[x]? =
    if offset ≤ x ∧ x < offset + payload.length ∧ ¬ Covers p.runs x then payload[x - offset]?
    else (p.grown (offset + payload.length))[x]?
  overlapped_iff : p'.overlapped = true ↔ p.overlapped = true ∨
    ∃ x, offset ≤ x ∧ x < offset + payload.length ∧ Covers p.runs x ∧
      (p.grown (offset + payload.length))[x]? ≠ payload[x - offset]?
  total_eq : p'.total = p.total
  pieces_eq : p'.pieces = p.pieces + 1
  openedAt_eq : p'.openedAt = p.openedAt
  seq_eq : p'.seq = p.seq
  tunnel_eq : p'.tunnel = p.tunnel

theorem place_of_lt {p : Pending} (h : maxDatagram < offset + payload.length) :
    p.place offset payload = none :=
  if_pos h

theorem place_of_le {p : Pending} (hruns : Apart p.runs)
    (h : offset + payload.length ≤ maxDatagram) :
    ∃ p', p.place offset payload = some p' ∧ p.Placed offset payload p' := by
  have hwithin : Placing.Within offset payload (offset + payload.length)
      ⟨p.grown (offset + payload.length), p.overlapped, offset⟩ :=
    ⟨rfl, le_rfl, Nat.le_add_right _ _, (length_grown p _) ▸ le_max_right _ _⟩
  obtain ⟨hlen, hbytes, hover⟩ := Placing.places_walk hruns hwithin
  refine ⟨_, if_neg (Nat.not_lt.mpr h), ?_⟩
  exact
    { runs_eq := rfl
      length_eq := hlen.trans (length_grown p _)
      bytes_eq := hbytes
      overlapped_iff := hover
      total_eq := rfl
      pieces_eq := rfl
      openedAt_eq := rfl
      seq_eq := rfl
      tunnel_eq := rfl }

end Pending

end WatchingZenoh.Fragments
