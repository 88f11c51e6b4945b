import Mathlib
import WatchingZenoh.TcpSynData
import WatchingZenoh.Library.Steps

/-! Runs that begin with a SYN that carries data. What the assembler has taken is then the stream
without its first byte, up to the last byte of the SYN's data, and that byte is expected again. -/

namespace WatchingZenoh.Tcp

open Words StreamAssembler

/-- The stream that the assembler goes by: the SYN's data without its first byte, and then the
stream from the last byte of that data on. -/
def synStream (p q : Bytes) (hp : p ≠ []) : Bytes := p.tail ++ p.getLast hp :: q

section Stream

variable {p q : Bytes} {hp : p ≠ []}

theorem length_synStream : (synStream p q hp).length = (p ++ q).length := by
  have := List.length_pos_iff.mpr hp
  simp [synStream]
  omega

theorem synStream_getElem? {i : ℕ} (h : p.length - 1 ≤ i) :
    (synStream p q hp)[i]? = (p ++ q)[i]? := by
  have hsplit : p ++ q = p.dropLast ++ p.getLast hp :: q := by
    conv_lhs => rw [← List.dropLast_append_getLast hp, List.append_assoc]
    rfl
  rw [hsplit, synStream, List.getElem?_append_right (by simpa using h),
    List.getElem?_append_right (by simpa using h)]
  simp

theorem eq_replicate_of_cons {a last : UInt8} {rest : Bytes} (h : rest ++ [last] = a :: rest) :
    a :: rest = List.replicate (rest.length + 1) a := by
  induction rest generalizing a with
  | nil => rfl
  | cons b rest ih =>
    obtain ⟨rfl, hrest⟩ := List.cons.inj h
    have hsame := ih hrest
    rw [List.length_cons, List.replicate_succ, ← hsame]

theorem tail_append_getLast_eq_iff :
    p.tail ++ [p.getLast hp] = p ↔ ∃ b, p = List.replicate p.length b := by
  constructor
  · intro h
    obtain ⟨a, rest, rfl⟩ := List.exists_cons_of_ne_nil hp
    exact ⟨a, eq_replicate_of_cons h⟩
  · rintro ⟨b, hb⟩
    have hpos := List.length_pos_iff.mpr hp
    generalize p.length = n at hb hpos
    subst hb
    obtain ⟨n, rfl⟩ : ∃ m, n = m + 1 := ⟨n - 1, by omega⟩
    rw [List.getLast_replicate, List.tail_replicate, Nat.add_sub_cancel, ← List.replicate_succ']

theorem synStream_eq : synStream p q hp = (p.tail ++ [p.getLast hp]) ++ q := by
  simp [synStream]

end Stream

section Late

variable {S : SentStream} {container : Option Bytes} {origin : UInt32} {base n f : ℕ}
  {cuts : List (ℕ × ℕ)} {s : StreamAssembler}

theorem stands_late (h : Taken S.bytes container origin base n cuts s)
    (hw : Waiting S.bytes container origin n cuts s.pending) {a b : ℕ} {payload : Payload}
    (hf : f ≤ n) (hlt : a < b) (hle : b ≤ S.bytes.length) (hlen : payload.len = b - a)
    (htail : f < b → IsCut S.bytes container (payload.drop (max a f - a)) (max a f) b)
    (packetIndex : ℕ) (atNs : Option ℕ) :
    Stands S container origin base (cuts ++ if f < b then [(max a f, b)] else [])
      (((s.absorb (seqAt origin n) (seqAt origin a) payload packetIndex atNs).1.count
        (s.absorb (seqAt origin n) (seqAt origin a) payload packetIndex atNs).2
        ).drainPending.forceStaleGap) := by
  have hS := S.short
  have hbound := h.bound
  rcases Nat.lt_or_ge a f with hbefore | hpast
  · rw [Nat.max_eq_right hbefore.le] at htail ⊢
    have hbehind : b ≤ n → s.absorb (seqAt origin n) (seqAt origin a) payload packetIndex atNs =
        (s, .duplicate) := by
      intro hdone
      rw [StreamAssembler.absorb, delta_seqAt (by omega) (by omega), if_neg (by omega)]
      simp only [hlen]
      rw [if_pos (by omega)]
    rcases Nat.lt_or_ge f b with hfb | hbf
    · rw [if_pos hfb]
      have hcuts : cuts ⊆ cuts ++ [(f, b)] := List.subset_append_left _ _
      have hshort : ∀ c ∈ cuts ++ [(f, b)], c.1 < c.2 ∧ c.2 ≤ S.bytes.length := by
        intro c hc
        rcases List.mem_append.mp hc with hc | hc
        · exact hw.short c hc
        · cases List.mem_singleton.mp hc
          exact ⟨hfb, hle⟩
      have hpending : ∀ g ∈ s.pending, ∃ c ∈ cuts ++ [(f, b)], g.seq = seqAt origin c.1 ∧
          IsCut S.bytes container g.payload c.1 c.2 := by
        intro g hg
        obtain ⟨c, hc, hmatch⟩ := hw.pending g hg
        exact ⟨c, hcuts hc, hmatch⟩
      rcases Nat.lt_or_ge n b with hfresh | hdone
      · obtain ⟨ht, hpend, -⟩ := (h.mono hcuts).absorb hS (htail hfb) (by simp) hf hfresh
          packetIndex atNs
        have hsame := @absorb_same_from origin n s a f b payload hbefore.le hf hfresh (by omega)
          hlen packetIndex atNs
        refine stands_drain (hsame.taken ht) ?_ _
        rw [hsame.pending, hpend]
        refine ⟨hpending, fun c hc => ?_, hshort⟩
        rcases List.mem_append.mp hc with hc | hc
        · exact (hw.waits c hc).imp_left fun hc => by omega
        · cases List.mem_singleton.mp hc
          exact .inl le_rfl
      · rw [hbehind hdone]
        refine stands_drain (h.mono hcuts) ⟨hpending, fun c hc => ?_, hshort⟩ _
        rcases List.mem_append.mp hc with hc | hc
        · exact hw.waits c hc
        · cases List.mem_singleton.mp hc
          exact .inl hdone
    · rw [if_neg (by omega), List.append_nil, hbehind (by omega)]
      exact stands_drain h hw _
  · rw [Nat.max_eq_left hpast] at htail ⊢
    rw [if_pos (by omega)]
    have hcut := htail (by omega)
    rw [Nat.sub_self, Payload.drop_zero] at hcut
    exact stands_absorb h hw hcut packetIndex atNs

end Late

/-- The assembler's stream, read byte by byte. -/
structure Reassembled (container : Option Bytes) (s : StreamAssembler) (stream : Bytes) : Prop where
  whole : s.discarded = 0
  length : s.stop = stream.length
  reads : ∀ o b, stream[o]? = some b → s.bytes o (o + 1) container = some [b]

theorem Reassembled.unique {container : Option Bytes} {s : StreamAssembler} {x y : Bytes}
    (hx : Reassembled container s x) (hy : Reassembled container s y) : x = y := by
  have hlength : x.length = y.length := hx.length.symm.trans hy.length
  refine List.ext_getElem hlength fun o ho ho' => ?_
  have hread := hx.reads o _ (List.getElem?_eq_getElem ho)
  rw [hy.reads o _ (List.getElem?_eq_getElem ho')] at hread
  simpa [eq_comm] using hread

/-- The SYN segment of a stream, with the data it carries. -/
structure SynData (p : Bytes) (container : Option Bytes) where
  fin : Bool
  rst : Bool
  packetIndex : ℕ
  atNs : Option ℕ
  located : PayloadAt
  stands : ∀ pos, located = .container pos → ∃ held, container = some held ∧
    ∀ i, i < p.length → held[pos + i]? = p[i]?

section Runs

variable {p q : Bytes} {container : Option Bytes}

/-- The SYN has the sequence number before the first byte's. -/
def SynData.push (syn : SynData p container) (n : UInt32) (s : StreamAssembler) : StreamAssembler :=
  (s.pushLocated ⟨n, true, syn.fin, syn.rst, p, syn.packetIndex⟩ syn.atNs syn.located).1

def Cut.push {S : SentStream} (origin : UInt32) (s : StreamAssembler) (c : Cut S container) :
    StreamAssembler :=
  (s.pushLocated (c.segment origin) c.atNs c.located).1

def SynData.placed (syn : SynData p container) : Payload :=
  match syn.located with
  | .here => .here p
  | .container pos => .container pos p.length

/-- The stretch that the assembler takes the SYN's data for. -/
def synCuts (f : ℕ) : List (ℕ × ℕ) := if 0 < f then [(0, f)] else []

/-- The stretches that the assembler takes the segments for. -/
def lateCuts (f : ℕ) {S : SentStream} (segs : List (Cut S container)) : List (ℕ × ℕ) :=
  synCuts f ++ segs.filterMap fun c =>
    if f < c.last ∧ c.first < c.last then some (max c.first f, c.last) else none

theorem lateCuts_append (f : ℕ) {S : SentStream} (segs : List (Cut S container))
    (c : Cut S container) : lateCuts f (segs ++ [c]) = lateCuts f segs ++
      if f < c.last ∧ c.first < c.last then [(max c.first f, c.last)] else [] := by
  rw [lateCuts, List.filterMap_append, ← List.append_assoc, lateCuts]
  congr 1
  by_cases h : f < c.last ∧ c.first < c.last <;> simp [h]

theorem delta_pred (n : UInt32) : delta n (n + 1) = -1 := by
  rw [delta, sub_add_cancel_left]
  decide

theorem SynData.isCut_tail (syn : SynData p container) {hp : p ≠ []} (hone : 1 < p.length) :
    IsCut (synStream p q hp) container (syn.placed.drop 1) 0 (p.length - 1) := by
  have hlen : syn.placed.len = p.length := by
    rw [SynData.placed]
    split <;> rfl
  refine ⟨by omega, ?_, ?_, fun i hi => ?_⟩
  · rw [length_synStream, List.length_append]
    omega
  · rw [Payload.len_drop, hlen]
    rfl
  · obtain ⟨x, hsome⟩ : ∃ x, p[1 + i]? = some x := ⟨_, List.getElem?_eq_getElem (by omega)⟩
    refine ⟨x, ?_, payloadReads_drop ?_⟩
    · rw [Nat.zero_add, synStream, List.getElem?_append_left (by simpa using hi),
        List.getElem?_tail, Nat.add_comm i 1]
      exact hsome
    · rw [SynData.placed]
      split
      · exact hsome
      · rename_i pos hpos
        obtain ⟨held, hheld, hstands⟩ := syn.stands pos hpos
        exact ⟨by omega, held, hheld, (hstands _ (by omega)).trans hsome⟩

/-- The assembler that has read the flags of the SYN and counted its data. -/
def SynData.synced (syn : SynData p container) (n : UInt32) (patience : Option ℕ) :
    StreamAssembler :=
  { new with
    gapPatience := patience
    rstSeen := syn.rst
    nextSeq := some (n + 1)
    syncedFromSyn := true
    finSeen := syn.fin
    segmentsPushed := 1 }

theorem SynData.push_eq (syn : SynData p container) (hp : p ≠ []) (n : UInt32)
    (patience : Option ℕ) : syn.push n (new.withGapPatience patience) =
      (((syn.synced n patience).absorb (n + 1) n syn.placed syn.packetIndex syn.atNs).1.count
        ((syn.synced n patience).absorb (n + 1) n syn.placed syn.packetIndex syn.atNs).2
        ).drainPending.forceStaleGap := by
  obtain ⟨fin, rst, packetIndex, atNs, located, hstands⟩ := syn
  unfold SynData.push StreamAssembler.pushLocated
  have hempty : p.isEmpty = false := by simpa using hp
  cases fin <;> cases rst <;> cases located <;>
    simp [noteFlags, withGapPatience, StreamAssembler.new, hempty, SynData.synced, SynData.placed]

theorem SynData.push_stands (syn : SynData p container) (hp : p ≠ [])
    (hshort : (synStream p q hp).length < 2 ^ 31) (n : UInt32) (patience : Option ℕ) {m : ℕ}
    (hm : ∀ k, patience = some k → m ≤ k) :
    Stands ⟨synStream p q hp, hshort⟩ container (n + 1) 0
        (synCuts (p.length - 1)) (syn.push n (new.withGapPatience patience)) ∧
      Patient m (syn.push n (new.withGapPatience patience)) := by
  have hpos := List.length_pos_iff.mpr hp
  have hlen : syn.placed.len = p.length := by
    rw [SynData.placed]
    split <;> rfl
  have hzero : seqAt (n + 1) 0 = n + 1 := by simp [seqAt, low]
  have hfresh : Taken (synStream p q hp) container (n + 1) 0 0 [] (syn.synced n patience) :=
    Fresh.taken (S := ⟨synStream p q hp, hshort⟩) (s := new)
      ⟨rfl, rfl, rfl, rfl, rfl, rfl, rfl, rfl, rfl⟩ (Nat.zero_le _) (by rw [hzero]; rfl) rfl rfl rfl
      rfl rfl rfl
  have hpatient : Patient m (syn.synced n patience) := by
    refine ⟨rfl, rfl, le_rfl, fun k hk => ?_, by simp [SynData.synced, StreamAssembler.new]⟩
    have := hm k hk
    simp only [SynData.synced]
    omega
  -- The SYN's data begins one byte behind the origin, so that it is never held.
  have hbehind : delta n (n + 1) ≤ 0 := by
    rw [delta_pred]
    omega
  have habsorbed := (@Patient.absorb _ _ hpatient (n + 1) n (fun hahead => by omega) syn.placed
    syn.packetIndex syn.atNs).1
  have hcounted := (habsorbed.count ((syn.synced n patience).absorb (n + 1) n syn.placed
    syn.packetIndex syn.atNs).2).1
  rw [syn.push_eq hp]
  by_cases hone : 1 < p.length
  · have hcut := @SynData.isCut_tail p q container syn hp hone
    have hsame := @absorb_same_tail (syn.synced n patience) (n + 1) n syn.placed 1 hbehind
      (by rw [delta_pred]; rfl) (by omega) syn.packetIndex syn.atNs
    obtain ⟨ht, hpend, -⟩ := (hfresh.mono (List.nil_subset [(0, p.length - 1)])).absorb hshort hcut
      (by simp) le_rfl (by omega) syn.packetIndex syn.atNs
    rw [hzero] at ht hpend
    have hnil : ((syn.synced n patience).absorb (n + 1) n syn.placed syn.packetIndex
        syn.atNs).1.pending = [] := hsame.pending.trans hpend
    constructor
    · rw [synCuts, if_pos (by omega)]
      refine stands_drain (hsame.taken ht) ?_ _
      rw [hnil]
      refine ⟨by simp, by simp, ?_⟩
      simp only [List.mem_singleton, forall_eq]
      exact ⟨by omega, hcut.le⟩
    · rw [settle_of_pending_nil]
      · exact hcounted
      · cases ((syn.synced n patience).absorb (n + 1) n syn.placed syn.packetIndex syn.atNs).2 <;>
          exact hnil
  · have hdup : (syn.synced n patience).absorb (n + 1) n syn.placed syn.packetIndex syn.atNs =
        (syn.synced n patience, .duplicate) := by
      rw [StreamAssembler.absorb, delta_pred, if_neg (by omega)]
      simp only [hlen]
      rw [if_pos (by simp; omega)]
    rw [hdup] at hcounted ⊢
    rw [synCuts, if_neg (by omega)]
    constructor
    · exact stands_drain hfresh ⟨by simp [SynData.synced, StreamAssembler.new], by simp, by simp⟩ _
    · rw [settle_of_pending_nil rfl]
      exact hcounted

section Segments

variable {hshort : (p ++ q).length < 2 ^ 31} {hp : p ≠ []}
  {hlate : (synStream p q hp).length < 2 ^ 31} {origin : UInt32} {m : ℕ} {s : StreamAssembler}
  {past : List (Cut ⟨p ++ q, hshort⟩ container)}

/-- The assembler is past the SYN's data, but for its last byte. -/
theorem le_of_stands {n : ℕ} (h : Stands ⟨synStream p q hp, hlate⟩ container origin 0
    (lateCuts (p.length - 1) past) s) (hforced : s.gapsForced = 0)
    (ht : Taken (synStream p q hp) container origin 0 n (lateCuts (p.length - 1) past) s) :
    p.length - 1 ≤ n := by
  have hlength := @length_synStream p q hp
  rw [List.length_append] at hlength
  have hle : p.length - 1 ≤ s.stop := by
    refine (h.isGreatest hforced).2 ⟨by simp only; omega, fun i hi => ?_⟩
    exact ⟨(0, p.length - 1), by simp [lateCuts, synCuts, show 0 < p.length - 1 by omega],
      Nat.zero_le _, by simp only; omega⟩
  have := ht.position
  omega

theorem Cut.push_stands (c : Cut ⟨p ++ q, hshort⟩ container)
    (h : Stands ⟨synStream p q hp, hlate⟩ container origin 0 (lateCuts (p.length - 1) past) s)
    (hpatient : Patient m s) :
    Stands ⟨synStream p q hp, hlate⟩ container origin 0 (lateCuts (p.length - 1) (past ++ [c]))
      (c.push origin s) := by
  have hflags := h.noteFlags (c.segment origin)
  rw [lateCuts_append]
  by_cases hlt : c.first < c.last
  · have hfull : c.payload.isEmpty = false := by
      have := c.length_payload
      rw [List.isEmpty_eq_false_iff, ← List.length_pos_iff]
      omega
    have hcounted : Stands ⟨synStream p q hp, hlate⟩ container origin 0
        (lateCuts (p.length - 1) past) { s.noteFlags (c.segment origin) with
          segmentsPushed := (s.noteFlags (c.segment origin)).segmentsPushed + 1
          nextSeq := some ((s.noteFlags (c.segment origin)).nextSeq.getD
            (seqAt origin c.first)) } := by
      refine hflags.of_eq ?_ rfl rfl rfl rfl rfl rfl rfl rfl
      obtain ⟨n, ht, -, -⟩ := hflags
      simp [ht.next]
    have hpast {n : ℕ} := le_of_stands (n := n) hcounted (hpatient.noteFlags _).forced
    obtain ⟨n, ht, hw, -⟩ := hcounted
    have hn : (s.noteFlags (c.segment origin)).nextSeq.getD (seqAt origin c.first) =
        seqAt origin n := Option.some.inj ht.next
    have hlen : c.placed.len = c.last - c.first := (c.isCut hlt).len
    have htail : p.length - 1 < c.last → IsCut (synStream p q hp) container
        (c.placed.drop (max c.first (p.length - 1) - c.first)) (max c.first (p.length - 1))
        c.last := by
      intro hf
      have hmax : c.first + (max c.first (p.length - 1) - c.first) =
          max c.first (p.length - 1) := by omega
      have hdrop := (c.isCut hlt).drop (k := max c.first (p.length - 1) - c.first) (by omega)
      rw [hmax] at hdrop
      exact hdrop.congr length_synStream fun i hi => synStream_getElem? (by omega)
    have hle : c.last ≤ (synStream p q hp).length := by
      rw [length_synStream]
      exact c.last_le
    have habs := stands_late (S := ⟨synStream p q hp, hlate⟩) ht hw (hpast ht) hlt hle hlen htail
      c.packetIndex c.atNs
    simp only [hlt, and_true]
    unfold Cut.push pushLocated
    simp only [Cut.segment, hfull] at habs hn ⊢
    simp only [hn, Bool.false_eq_true, if_false] at habs ⊢
    exact habs
  · have hempty : c.payload.isEmpty = true := by
      have := c.length_payload
      rw [List.isEmpty_iff, ← List.length_eq_zero_iff]
      omega
    have hpush : c.push origin s = s.noteFlags (c.segment origin) := by
      simp [Cut.push, pushLocated, Cut.segment, hempty]
    rw [hpush, if_neg (by omega), List.append_nil]
    exact hflags

theorem foldl_push_stands (segs : List (Cut ⟨p ++ q, hshort⟩ container))
    (h : Stands ⟨synStream p q hp, hlate⟩ container origin 0 (lateCuts (p.length - 1) past) s)
    (hpatient : Patient segs.length s) :
    Stands ⟨synStream p q hp, hlate⟩ container origin 0 (lateCuts (p.length - 1) (past ++ segs))
        (segs.foldl (Cut.push origin) s) ∧
      Patient 0 (segs.foldl (Cut.push origin) s) := by
  induction segs generalizing past s with
  | nil => simpa using ⟨h, hpatient⟩
  | cons c segs ih =>
    have hnext := ih (c.push_stands h hpatient)
      (hpatient.pushLocated (c.segment origin) c.atNs c.located)
    rw [List.append_assoc] at hnext
    exact hnext

theorem reassembled_of_stands {S : SentStream} {cuts : List (ℕ × ℕ)}
    (h : Stands S container origin 0 cuts s) (hpatient : Patient m s) :
    Reassembled container s (S.bytes.take s.stop) := by
  obtain ⟨n, ht, -, -⟩ := h
  have hshort := S.short
  have hposition := ht.position
  have hbound := ht.bound
  have hmissing := ht.unforced hpatient.forced
  have hnone (o : ℕ) : missingUpTo s.splices o = 0 := by
    have hsum := ht.missing
    rw [hmissing, List.sum_eq_zero_iff] at hsum
    rw [missingUpTo, List.sum_eq_zero_iff]
    intro k hk
    obtain ⟨splice, hsplice, rfl⟩ := List.mem_map.mp hk
    exact hsum _ (List.mem_map_of_mem (List.mem_filter.mp hsplice).1)
  refine ⟨hpatient.whole, ?_, fun o b hb => ?_⟩
  · rw [List.length_take]
    omega
  · have ho : o < s.stop := by
      have hin := (List.getElem?_eq_some_iff.mp hb).1
      rw [List.length_take] at hin
      omega
    rw [List.getElem?_take_of_lt ho] at hb
    obtain ⟨x, hx, hread⟩ := ht.carries.bytes (by omega) (by rw [hpatient.whole]; omega) ho
    rw [hnone, Nat.zero_add, Nat.add_zero, hb] at hx
    cases hx
    exact hread

theorem length_le_stop_iff (h : Stands ⟨synStream p q hp, hlate⟩ container origin 0
    (lateCuts (p.length - 1) past) s) (hforced : s.gapsForced = 0) :
    p.length ≤ s.stop ↔ ∃ c ∈ past, c.first < p.length ∧ p.length ≤ c.last := by
  have hpos := List.length_pos_iff.mpr hp
  have hlength := @length_synStream p q hp
  rw [List.length_append] at hlength
  have hgreatest := h.isGreatest hforced
  constructor
  · intro hle
    obtain ⟨cut, hcut, hfirst, hlast⟩ := hgreatest.1.2 (p.length - 1) (by omega)
    rcases List.mem_append.mp hcut with hsyn | hseg
    · rw [synCuts] at hsyn
      split at hsyn
      · rw [List.mem_singleton] at hsyn
        subst hsyn
        simp only at hlast
        omega
      · simp at hsyn
    · obtain ⟨c, hc, hstretch⟩ := List.mem_filterMap.mp hseg
      split at hstretch
      · cases hstretch
        simp only at hfirst hlast
        exact ⟨c, hc, by omega, by omega⟩
      · cases hstretch
  · rintro ⟨c, hc, hfirst, hlast⟩
    refine hgreatest.2 ⟨by simp only; omega, fun i hi => ?_⟩
    rcases Nat.lt_or_ge i (p.length - 1) with hbefore | hat
    · exact ⟨(0, p.length - 1), by simp [lateCuts, synCuts, show 0 < p.length - 1 by omega],
        Nat.zero_le _, by simp only; omega⟩
    · refine ⟨(max c.first (p.length - 1), c.last), ?_, by simp only; omega, by simp only; omega⟩
      refine List.mem_append_right _ (List.mem_filterMap.mpr ⟨c, hc, ?_⟩)
      rw [if_pos ⟨by omega, by omega⟩]

end Segments

/-- The stream begins with the SYN's data and goes on with the rest of what was sent. -/
def InPlace (p q : Bytes) (container : Option Bytes) (s : StreamAssembler) : Prop :=
  ∃ stream, Reassembled container s stream ∧ stream <+: p ++ q ∧ p <+: stream

/-- A SYN's data is reassembled in place exactly where all its bytes are the same and a later segment
has the last of them again. -/
theorem syn_data_in_place_iff (n : UInt32) (p q : Bytes) (hp : p ≠ [])
    (hshort : (p ++ q).length < 2 ^ 31) (container : Option Bytes) (syn : SynData p container)
    (patience : Option ℕ) (segs : List (Cut ⟨p ++ q, hshort⟩ container))
    (hpatience : ∀ k, patience = some k → segs.length ≤ k) :
    InPlace p q container
        (segs.foldl (Cut.push (n + 1)) (syn.push n (new.withGapPatience patience))) ↔
      (∃ b, p = List.replicate p.length b) ∧ ∃ c ∈ segs, c.first < p.length ∧ p.length ≤ c.last := by
  have hpos := List.length_pos_iff.mpr hp
  have hlate : (synStream p q hp).length < 2 ^ 31 := by
    rw [length_synStream]
    exact hshort
  obtain ⟨hsyn, hpatient⟩ := syn.push_stands hp hlate n patience hpatience
  have hstart : Stands ⟨synStream p q hp, hlate⟩ container (n + 1) 0
      (lateCuts (p.length - 1) ([] : List (Cut ⟨p ++ q, hshort⟩ container)))
      (syn.push n (new.withGapPatience patience)) := by
    simpa [lateCuts] using hsyn
  obtain ⟨hstands, hdone⟩ := foldl_push_stands segs hstart hpatient
  generalize segs.foldl (Cut.push (n + 1)) (syn.push n (new.withGapPatience patience)) = s at *
  have hstream := reassembled_of_stands hstands hdone
  rw [List.nil_append] at hstands
  rw [← @tail_append_getLast_eq_iff p hp, ← length_le_stop_iff hstands hdone.forced]
  have hwidth : (p.tail ++ [p.getLast hp]).length = p.length := by
    rw [List.length_append, List.length_tail, List.length_singleton]
    omega
  constructor
  · rintro ⟨stream, hread, -, hstarts⟩
    obtain rfl := hread.unique hstream
    obtain ⟨hstarts, hle⟩ := List.prefix_take_iff.mp hstarts
    have hsame := List.prefix_iff_eq_take.mp hstarts
    simp only [synStream_eq, ← hwidth, List.take_left'] at hsame
    exact ⟨hsame.symm, hle⟩
  · rintro ⟨hconstant, hle⟩
    refine ⟨_, hstream, ?_⟩
    simp only [synStream_eq, hconstant]
    exact ⟨List.take_prefix _ _, List.prefix_take_iff.mpr ⟨List.prefix_append _ _, hle⟩⟩

end Runs

def cutFrom (S : SentStream) (first : ℕ) (h : first ≤ S.bytes.length) : Cut S none :=
  ⟨first, S.bytes.length, h, le_rfl, false, false, 1, none, .here, by simp⟩

def plainSyn (p : Bytes) : SynData p none := ⟨false, false, 0, none, .here, by simp⟩

theorem syn_data_in_place_again : InPlace [7] [8] none
    ([cutFrom ⟨[7] ++ [8], by decide⟩ 0 (Nat.zero_le _)].foldl (Cut.push (41 + 1))
      ((plainSyn [7]).push 41 (new.withGapPatience (some 64)))) :=
  (syn_data_in_place_iff 41 [7] [8] (by simp) (by decide) none (plainSyn [7]) (some 64)
    [cutFrom ⟨[7] ++ [8], by decide⟩ 0 (Nat.zero_le _)] (by simp)).mpr
    ⟨⟨7, rfl⟩, _, List.mem_singleton_self _, by decide, by decide⟩

/-- Of the bytes 1 and 2 that a SYN carries only the second is taken, and the third byte is then
held, as if one were missing before it. -/
theorem syn_data_out_of_place : ¬ InPlace [1, 2] [3] none
    ([cutFrom ⟨[1, 2] ++ [3], by decide⟩ 2 (by decide)].foldl (Cut.push (41 + 1))
      ((plainSyn [1, 2]).push 41 (new.withGapPatience (some 64)))) := by
  rintro ⟨stream, hread, -, hstarts⟩
  have hlength := hread.length
  have hstop : ([cutFrom ⟨[1, 2] ++ [3], by decide⟩ 2 (by decide)].foldl (Cut.push (41 + 1))
      ((plainSyn [1, 2]).push 41 (new.withGapPatience (some 64)))).stop = 1 := by
    decide +kernel
  have hle := hstarts.length_le
  simp only [List.length_cons, List.length_nil] at hle
  omega

end WatchingZenoh.Tcp
