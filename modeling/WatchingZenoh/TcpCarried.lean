import WatchingZenoh.TcpRuns

/-! What the run map and the kept bytes carry of a stream: every retained offset reads the byte the
stream has there. A run appended at the end carries its payload on, and a trim takes away only what
stands before the first retained byte. -/

namespace WatchingZenoh.Tcp

theorem mem_spans_of_suffix {front rest : List Row} {stop : ℕ} {p : Row × ℕ}
    (hp : p ∈ spans rest stop) : p ∈ spans (front ++ rest) stop := by
  induction front with
  | nil => exact hp
  | cons first front ih => exact List.mem_cons_of_mem _ ih

theorem pairwise_spans_of_suffix {R : Row × ℕ → Row × ℕ → Prop} {front rest : List Row} {stop : ℕ}
    (h : (spans (front ++ rest) stop).Pairwise R) : (spans rest stop).Pairwise R := by
  induction front with
  | nil => exact h
  | cons first front ih => exact ih (List.pairwise_cons.mp h).2

theorem exists_mem_spans {rows : List Row} {stop : ℕ} {row : Row} {e : ℕ}
    (h : (row, e) ∈ spans rows stop) : ∃ front rest, rows = front ++ row :: rest ∧
      e = (rest.head?.map Row.streamOffset).getD stop := by
  induction rows with
  | nil => simp [spans] at h
  | cons first rows ih =>
    rcases List.mem_cons.mp h with heq | h
    · cases heq
      exact ⟨[], rows, rfl, rfl⟩
    · obtain ⟨front, rest, rfl, he⟩ := ih h
      exact ⟨first :: front, rest, rfl, he⟩

theorem iterFrom_eq_map_spans (m : RunMap) (front rest : List Row)
    (hlog : m.log = front ++ rest) :
    m.iterFrom front.length = (spans rest m.stop).map fun p => m.run p.1 p.2 := by
  induction rest generalizing front with
  | nil => simp [RunMap.iterFrom, hlog, spans]
  | cons row rest ih =>
    rw [RunMap.iterFrom_eq hlog, spans, List.map_cons]
    have h := ih (front ++ [row]) (by simp [hlog])
    rw [List.length_append, List.length_singleton] at h
    rw [h]

theorem dropRuns_spec (base : ℕ) {fuel : ℕ} {m : RunMap} (h : m.Tiled) (hsmall : m.stop < 2 ^ 32)
    (hfuel : m.log.length ≤ fuel) :
    ∃ dropped, m.log = dropped ++ (StreamAssembler.dropRuns base fuel m).log ∧
      (StreamAssembler.dropRuns base fuel m).stop = m.stop ∧
      (∀ p ∈ spans (StreamAssembler.dropRuns base fuel m).log m.stop, base < p.2) ∧
      (dropped ≠ [] →
        (((StreamAssembler.dropRuns base fuel m).log.head?.map Row.streamOffset).getD m.stop) ≤
          base) := by
  induction fuel generalizing m with
  | zero =>
    have hnil : m.log = [] := List.length_eq_zero_iff.mp (by omega)
    exact ⟨[], by simp [StreamAssembler.dropRuns, hnil], rfl,
      by simp [StreamAssembler.dropRuns, hnil, spans], by simp⟩
  | succ fuel ih =>
    obtain ⟨log, stop, skipped⟩ := m
    cases log with
    | nil =>
      exact ⟨[], by simp [StreamAssembler.dropRuns, RunMap.get], rfl,
        by simp [StreamAssembler.dropRuns, RunMap.get, spans], by simp⟩
    | cons row rest =>
      set m : RunMap := ⟨row :: rest, stop, skipped⟩ with hm
      have hspan : (row, (rest.head?.map Row.streamOffset).getD stop) ∈ spans m.log m.stop :=
        List.mem_cons_self
      have hrow := h.rising _ hspan
      have hbelow := h.below _ hspan
      have hget : m.get 0 = some (m.run row ((rest.head?.map Row.streamOffset).getD stop)) :=
        RunMap.get_eq (show m.log = [] ++ row :: rest from rfl)
      have hend : (m.run row ((rest.head?.map Row.streamOffset).getD stop)).stop =
          (rest.head?.map Row.streamOffset).getD stop := by
        simp only [Run.stop, RunMap.run] at hrow hbelow ⊢
        omega
      have hdrop : StreamAssembler.dropRuns base (fuel + 1) m =
          if (rest.head?.map Row.streamOffset).getD stop ≤ base then
            StreamAssembler.dropRuns base fuel m.popFront else m := by
        simp only [StreamAssembler.dropRuns, hget, hend]
      by_cases hle : (rest.head?.map Row.streamOffset).getD stop ≤ base
      · have htiled : m.popFront.Tiled :=
          ⟨fun p hp => h.rising p (List.mem_cons_of_mem _ hp),
            fun p hp => h.below p (List.mem_cons_of_mem _ hp)⟩
        obtain ⟨dropped, hlog, hstop, hall, hne⟩ := ih htiled hsmall
          (by simpa [hm, RunMap.popFront] using hfuel)
        rw [hdrop, if_pos hle]
        refine ⟨row :: dropped, ?_, hstop, hall, fun _ => ?_⟩
        · rw [List.cons_append, ← hlog]
          rfl
        · by_cases hnil : dropped = []
          · subst hnil
            rw [List.nil_append] at hlog
            rw [← hlog]
            exact hle
          · exact hne hnil
      · rw [hdrop, if_neg hle]
        refine ⟨[], rfl, rfl, fun p hp => ?_, by simp⟩
        rcases List.mem_cons.mp hp with rfl | hp
        · simpa using hle
        · have hlt := h.rising p (List.mem_cons_of_mem _ hp)
          obtain ⟨front, rest', hsplit, -⟩ := exists_mem_spans hp
          have hfar : (rest.head?.map Row.streamOffset).getD stop ≤ p.1.streamOffset :=
            stop_le_of_mem h.rising (by rw [hsplit]; simp)
          omega

/-- What the run map and the kept bytes carry: the byte of every retained offset. -/
structure Carries (container : Option Bytes) (byteOf : ℕ → Option UInt8) (kept : ByteLog)
    (stop discarded : ℕ) (runs : RunMap) : Prop where
  tiled : runs.Tiled
  ends : runs.stop = stop
  within : discarded ≤ stop
  front : ∀ row ∈ runs.log.head?, row.streamOffset ≤ discarded
  none : runs.log = [] → discarded = stop
  laid : kept.Laid
  top : ∀ p ∈ spans runs.log runs.stop, ∀ pos, p.1.place = .kept pos →
    pos + (p.2 - p.1.streamOffset) ≤ kept.top
  rises : (spans runs.log runs.stop).Pairwise fun p q => ∀ pos pos', p.1.place = .kept pos →
    q.1.place = .kept pos' → pos + (p.2 - p.1.streamOffset) ≤ pos'
  reads : ∀ p ∈ spans runs.log runs.stop, ∀ o, p.1.streamOffset ≤ o → o < p.2 → discarded ≤ o →
    ∃ b, byteOf o = some b ∧ placeReads kept container (o - p.1.streamOffset) b p.1.place

variable {container : Option Bytes} {byteOf : ℕ → Option UInt8} {kept : ByteLog}
  {stop discarded : ℕ} {runs : RunMap}

theorem carries_empty : Carries container byteOf .empty 0 0 .empty where
  tiled := ⟨by simp [RunMap.empty, spans], by simp [RunMap.empty, spans]⟩
  ends := rfl
  within := le_rfl
  front row h := by simp [RunMap.empty] at h
  none _ := rfl
  laid := ByteLog.laid_empty
  top p h := by simp [RunMap.empty, spans] at h
  rises := by simp [RunMap.empty, spans]
  reads p h := by simp [RunMap.empty, spans] at h

theorem Carries.congr {byteOf' : ℕ → Option UInt8} (h : Carries container byteOf kept stop discarded
    runs) (heq : ∀ o < stop, byteOf' o = byteOf o) :
    Carries container byteOf' kept stop discarded runs := by
  refine { h with reads := fun p hp o ho hlt hdisc => ?_ }
  obtain ⟨b, hb, hread⟩ := h.reads p hp o ho hlt hdisc
  have := h.tiled.below p hp
  exact ⟨b, by rw [heq o (by rw [← h.ends]; omega), hb], hread⟩

theorem Carries.bytes {s : StreamAssembler}
    (h : Carries container byteOf s.kept s.stop s.discarded s.runs) (hsmall : s.stop < 2 ^ 32)
    {o : ℕ} (hdisc : s.discarded ≤ o) (ho : o < s.stop) :
    ∃ b, byteOf o = some b ∧ s.bytes o (o + 1) container = some [b] := by
  have hne : s.runs.log ≠ [] := fun hnil => by
    have := h.none hnil
    omega
  obtain ⟨front, row, rest, hlog, hfront, hrow, hend⟩ := exists_span h.tiled.rising
    (fun row hrow => (h.front row hrow).trans hdisc) hne (h.ends ▸ ho)
  have hspan : (row, (rest.head?.map Row.streamOffset).getD s.runs.stop) ∈
      spans s.runs.log s.runs.stop := by
    rw [hlog]
    exact mem_spans _ _ _ _
  obtain ⟨b, hb, hread⟩ := h.reads _ hspan o hrow hend hdisc
  exact ⟨b, hb, StreamAssembler.bytes_one h.laid h.tiled h.ends hsmall hdisc ho hlog hfront hrow
    hend hread⟩

theorem Carries.append {kept' : ByteLog}
    (h : Carries container byteOf kept stop discarded runs) (run : Run) (hoffset : run.streamOffset = stop)
    (hlen : 0 < run.len) (hlaid : kept'.Laid) (htop : kept.top ≤ kept'.top)
    (hstay : ∀ pos b, kept.byteAt pos b → kept'.byteAt pos b)
    (hplace : ∀ pos, run.place = .kept pos → kept.top ≤ pos ∧ pos + run.len ≤ kept'.top)
    (hread : ∀ i < run.len, ∃ b, byteOf (stop + i) = some b ∧
      placeReads kept' container i b run.place) :
    Carries container byteOf kept' (stop + run.len) discarded (runs.pushBack run) := by
  have hspans : spans (runs.pushBack run).log (runs.pushBack run).stop =
      spans runs.log runs.stop ++ [(⟨run.streamOffset, run.place, run.packetIndex, run.atNs⟩,
        run.streamOffset + run.len)] := by
    simp only [RunMap.pushBack, spans_append, hoffset, h.ends]
  have hstop : (runs.pushBack run).stop = stop + run.len := by simp [RunMap.pushBack, hoffset]
  refine ⟨⟨fun p hp => ?_, fun p hp => ?_⟩, hstop, h.within.trans (Nat.le_add_right _ _),
    fun row hrow => ?_, fun hnil => ?_, hlaid, fun p hp pos hpos => ?_, ?_,
    fun p hp o ho hlt hdisc => ?_⟩
  · rw [hspans] at hp
    rcases List.mem_append.mp hp with hp | hp
    · exact h.tiled.rising p hp
    · cases List.mem_singleton.mp hp
      simpa using hlen
  · rw [hspans] at hp
    rw [hstop]
    rcases List.mem_append.mp hp with hp | hp
    · exact (h.tiled.below p hp).trans (h.ends.le.trans (Nat.le_add_right _ _))
    · cases List.mem_singleton.mp hp
      exact (congrArg (· + run.len) hoffset).le
  · by_cases hnil : runs.log = []
    · have hrow : row = ⟨run.streamOffset, run.place, run.packetIndex, run.atNs⟩ := by
        simpa [RunMap.pushBack, hnil, eq_comm] using hrow
      rw [hrow]
      exact hoffset.le.trans (h.none hnil).ge
    · refine h.front row ?_
      simpa [RunMap.pushBack, List.head?_append_of_ne_nil _ hnil] using hrow
  · simp [RunMap.pushBack] at hnil
  · rw [hspans] at hp
    rcases List.mem_append.mp hp with hp | hp
    · exact (h.top p hp pos hpos).trans htop
    · cases List.mem_singleton.mp hp
      simpa using (hplace pos hpos).2
  · rw [hspans]
    refine List.pairwise_append.mpr ⟨h.rises, List.pairwise_singleton _ _,
      fun p hp q hq pos pos' hpos hpos' => ?_⟩
    cases List.mem_singleton.mp hq
    exact (h.top p hp pos hpos).trans (hplace pos' hpos').1
  · rw [hspans] at hp
    rcases List.mem_append.mp hp with hp | hp
    · obtain ⟨b, hb, hread⟩ := h.reads p hp o ho hlt hdisc
      refine ⟨b, hb, ?_⟩
      cases hpl : p.1.place with
      | kept pos =>
        rw [hpl] at hread
        exact hstay _ b hread
      | container pos =>
        rw [hpl] at hread
        exact hread
    · cases List.mem_singleton.mp hp
      simp only [hoffset] at ho hlt ⊢
      obtain ⟨b, hb, hread⟩ := hread (o - stop) (by omega)
      rw [Nat.add_sub_cancel' ho] at hb
      exact ⟨b, hb, hread⟩

theorem keptBase_le {base : ℕ} (hall : ∀ p ∈ spans runs.log runs.stop, base < p.2)
    (hrises : (spans runs.log runs.stop).Pairwise fun p q => ∀ pos pos', p.1.place = .kept pos →
      q.1.place = .kept pos' → pos + (p.2 - p.1.streamOffset) ≤ pos')
    {p : Row × ℕ} (hp : p ∈ spans runs.log runs.stop) {pos : ℕ} (hpos : p.1.place = .kept pos) :
    ∃ released, StreamAssembler.keptBase base runs = some released ∧
      released ≤ pos + (base - p.1.streamOffset) := by
  have hiter := iterFrom_eq_map_spans runs [] runs.log rfl
  rw [StreamAssembler.keptBase, show (0 : ℕ) = ([] : List Row).length from rfl, hiter,
    List.findSome?_map]
  generalize spans runs.log runs.stop = ps at hall hrises hp
  induction ps with
  | nil => simp at hp
  | cons first ps ih =>
    obtain ⟨hfirst, hrest⟩ := List.pairwise_cons.mp hrises
    rw [List.findSome?_cons]
    simp only [Function.comp_apply, RunMap.run] at ih ⊢
    cases hplace : first.1.place with
    | kept pos₁ =>
      refine ⟨_, rfl, ?_⟩
      rcases List.mem_cons.mp hp with rfl | hp
      · rw [hpos] at hplace
        cases hplace
        exact le_rfl
      · have := hfirst p hp pos₁ pos hplace hpos
        have := hall first (by simp)
        omega
    | container pos₁ =>
      rcases List.mem_cons.mp hp with rfl | hp
      · rw [hpos] at hplace
        cases hplace
      · exact ih (fun q hq => hall q (by simp [hq])) hrest hp

theorem Carries.trim (h : Carries container byteOf kept stop discarded runs)
    (hsmall : stop < 2 ^ 32) {base : ℕ} (hbase : discarded ≤ base) (hle : base ≤ stop) :
    Carries container byteOf
      (kept.releaseBefore ((StreamAssembler.keptBase base
        (StreamAssembler.dropRuns base runs.log.length runs)).getD (2 ^ 64 - 1)))
      stop base (StreamAssembler.dropRuns base runs.log.length runs) := by
  obtain ⟨dropped, hlog, hstop, hall, hne⟩ :=
    dropRuns_spec base h.tiled (by rw [h.ends]; exact hsmall) le_rfl
  generalize hruns : StreamAssembler.dropRuns base runs.log.length runs = runs' at *
  have hsub : ∀ p ∈ spans runs'.log runs'.stop, p ∈ spans runs.log runs.stop := fun p hp => by
    rw [hstop] at hp
    rw [hlog]
    exact mem_spans_of_suffix hp
  have hrises : (spans runs'.log runs'.stop).Pairwise fun p q => ∀ pos pos',
      p.1.place = .kept pos → q.1.place = .kept pos' →
        pos + (p.2 - p.1.streamOffset) ≤ pos' := by
    have := h.rises
    rw [hlog] at this
    rw [hstop]
    exact pairwise_spans_of_suffix this
  have hall' : ∀ p ∈ spans runs'.log runs'.stop, base < p.2 := by rwa [hstop]
  obtain ⟨hlaid, hstay, htop⟩ := ByteLog.releaseBefore_spec h.laid
    ((StreamAssembler.keptBase base runs').getD (2 ^ 64 - 1))
  refine ⟨⟨fun p hp => h.tiled.rising p (hsub p hp), fun p hp => ?_⟩, hstop.trans h.ends, hle,
    fun row hrow => ?_, fun hnil => ?_, hlaid, fun p hp pos hpos =>
      (h.top p (hsub p hp) pos hpos).trans htop, hrises, fun p hp o ho hlt hdisc => ?_⟩
  · rw [hstop]
    exact h.tiled.below p (hsub p hp)
  · by_cases hdrop : dropped = []
    · subst hdrop
      rw [List.nil_append] at hlog
      exact (h.front row (hlog ▸ hrow)).trans hbase
    · have := hne hdrop
      rw [Option.mem_def.mp hrow] at this
      simpa using this
  · by_cases hdrop : dropped = []
    · subst hdrop
      have hdisc := h.none (by rw [hlog, hnil]; rfl)
      omega
    · have := hne hdrop
      rw [hnil, h.ends] at this
      simp only [List.head?_nil, Option.map_none, Option.getD_none] at this
      omega
  · obtain ⟨b, hb, hread⟩ := h.reads p (hsub p hp) o ho hlt (hbase.trans hdisc)
    refine ⟨b, hb, ?_⟩
    cases hpl : p.1.place with
    | kept pos =>
      rw [hpl] at hread
      obtain ⟨released, hreleased, hle'⟩ := keptBase_le hall' hrises hp hpl
      rw [hreleased] at hstay
      rw [hreleased]
      exact hstay _ b (by simp only [Option.getD_some]; omega) hread
    | container pos =>
      rw [hpl] at hread
      exact hread

end WatchingZenoh.Tcp
