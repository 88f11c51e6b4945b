import WatchingZenoh.TcpStream

/-! The run map as the stretches of the stream it covers, one row behind another, and a read of one
byte: it asks the one row whose stretch holds the offset. -/

namespace WatchingZenoh.Tcp

def spans : List Row → ℕ → List (Row × ℕ)
  | [], _ => []
  | row :: rest, stop => (row, (rest.head?.map Row.streamOffset).getD stop) :: spans rest stop

theorem spans_append (rows : List Row) (row : Row) (stop : ℕ) :
    spans (rows ++ [row]) stop = spans rows row.streamOffset ++ [(row, stop)] := by
  induction rows with
  | nil => rfl
  | cons first rows ih =>
    rw [List.cons_append, spans, ih, spans]
    cases rows <;> rfl

theorem mem_spans (front rest : List Row) (row : Row) (stop : ℕ) :
    (row, (rest.head?.map Row.streamOffset).getD stop) ∈ spans (front ++ row :: rest) stop := by
  induction front with
  | nil => exact List.mem_cons_self
  | cons first front ih => exact List.mem_cons_of_mem _ ih

/-- The stretches are not empty and lie within the stream. -/
structure RunMap.Tiled (m : RunMap) : Prop where
  rising : ∀ p ∈ spans m.log m.stop, p.1.streamOffset < p.2
  below : ∀ p ∈ spans m.log m.stop, p.2 ≤ m.stop

theorem stop_le_of_mem {row : Row} {rest : List Row} {stop : ℕ}
    (h : ∀ p ∈ spans (row :: rest) stop, p.1.streamOffset < p.2) {later : Row}
    (hmem : later ∈ rest) :
    (rest.head?.map Row.streamOffset).getD stop ≤ later.streamOffset := by
  induction rest generalizing row with
  | nil => simp at hmem
  | cons next rest ih =>
    rcases List.mem_cons.mp hmem with rfl | hmem
    · simp
    · have h' : ∀ p ∈ spans (next :: rest) stop, p.1.streamOffset < p.2 := fun p hp =>
        h p (List.mem_cons_of_mem _ hp)
      have hnext := h' _ List.mem_cons_self
      exact hnext.le.trans (ih h' hmem)

theorem exists_span {rows : List Row} {stop offset : ℕ}
    (h : ∀ p ∈ spans rows stop, p.1.streamOffset < p.2)
    (hfirst : ∀ row ∈ rows.head?, row.streamOffset ≤ offset) (hne : rows ≠ [])
    (hlt : offset < stop) :
    ∃ front row rest, rows = front ++ row :: rest ∧ (∀ r ∈ front, r.streamOffset ≤ offset) ∧
      row.streamOffset ≤ offset ∧ offset < (rest.head?.map Row.streamOffset).getD stop := by
  induction rows with
  | nil => exact absurd rfl hne
  | cons row rows ih =>
    have hrow := hfirst row rfl
    by_cases hhere : offset < (rows.head?.map Row.streamOffset).getD stop
    · exact ⟨[], row, rows, rfl, by simp, hrow, hhere⟩
    · have hne' : rows ≠ [] := by
        rintro rfl
        exact hhere hlt
      obtain ⟨front, found, rest, rfl, hfront, hfound, hstop⟩ := ih
        (fun p hp => h p (List.mem_cons_of_mem _ hp))
        (fun next hnext => by
          rw [Option.mem_def] at hnext
          rw [hnext] at hhere
          simpa using hhere) hne'
      exact ⟨row :: front, found, rest, rfl, List.forall_mem_cons.mpr ⟨hrow, hfront⟩, hfound, hstop⟩

namespace RunMap

variable {m : RunMap}

theorem endOf_eq {front rest : List Row} {row : Row} (hlog : m.log = front ++ row :: rest) :
    m.endOf front.length = (rest.head?.map Row.streamOffset).getD m.stop := by
  have hget : m.log[front.length + 1]? = rest.head? := by
    rw [hlog, List.getElem?_append_right (by omega), Nat.add_sub_cancel_left]
    simp [List.head?_eq_getElem?]
  rw [endOf, hget]

theorem firstEndingAfter_eq {front rest : List Row} {row : Row} {offset : ℕ}
    (hlog : m.log = front ++ row :: rest)
    (hfront : ∀ r ∈ front, r.streamOffset ≤ offset) (hrow : row.streamOffset ≤ offset)
    (hstop : offset < (rest.head?.map Row.streamOffset).getD m.stop) :
    m.firstEndingAfter offset = front.length := by
  have hrest : rest.takeWhile (fun r => decide (r.streamOffset ≤ offset)) = [] := by
    cases rest with
    | nil => rfl
    | cons next rest =>
      rw [List.takeWhile_cons_of_neg]
      simpa using hstop
  have htake : m.log.takeWhile (fun r => decide (r.streamOffset ≤ offset)) = front ++ [row] := by
    rw [hlog, List.takeWhile_append_of_pos fun r hr => by simpa using hfront r hr,
      List.takeWhile_cons_of_pos (by simpa using hrow), hrest]
  have hend := endOf_eq hlog
  rw [endOf] at hend
  simp only [firstEndingAfter, htake, List.length_append, List.length_singleton, hend, if_pos hstop]

theorem get_eq {front rest : List Row} {row : Row} (hlog : m.log = front ++ row :: rest) :
    m.get front.length =
      some (m.run row ((rest.head?.map Row.streamOffset).getD m.stop)) := by
  have hget : m.log[front.length]? = some row := by simp [hlog]
  rw [get, hget, endOf_eq hlog]
  rfl

theorem iterFrom_eq {front rest : List Row} {row : Row} (hlog : m.log = front ++ row :: rest) :
    m.iterFrom front.length =
      m.run row ((rest.head?.map Row.streamOffset).getD m.stop) ::
        m.iterFrom (front.length + 1) := by
  have hlen : m.log.length - front.length = (m.log.length - (front.length + 1)) + 1 := by
    simp [hlog]
    omega
  rw [iterFrom, hlen, List.range'_succ, List.filterMap_cons_some (get_eq hlog)]
  rfl

end RunMap

/-- The byte a row gives at a distance from its start. -/
def placeReads (kept : ByteLog) (container : Option Bytes) (i : ℕ) (b : UInt8) : Place → Prop
  | .kept pos => kept.byteAt (pos + i) b
  | .container pos => ∃ held, container = some held ∧ held[pos + i]? = some b

namespace StreamAssembler

variable {s : StreamAssembler} {container : Option Bytes}

theorem runBytes_one (hkept : s.kept.Laid) {r : Run} {i : ℕ} {b : UInt8}
    (h : placeReads s.kept container i b r.place) :
    s.runBytes container r i (i + 1) = some [b] := by
  unfold runBytes
  cases hp : r.place with
  | kept pos =>
    rw [hp] at h
    simp only [Nat.add_sub_cancel_left]
    exact ByteLog.get_of_byteAt hkept h
  | container pos =>
    rw [hp] at h
    obtain ⟨held, rfl, hget⟩ := h
    simp only [Option.bind_some]
    rw [show pos + (i + 1) = pos + i + 1 by omega, sliceGet_one, hget, Option.map_some]

theorem gather_one {r : Run} {rest : List Run} {pos : ℕ} {b : UInt8} (hstart : r.streamOffset ≤ pos)
    (hstop : pos < r.stop)
    (hone : s.runBytes container r (pos - r.streamOffset) (pos - r.streamOffset + 1) = some [b]) :
    s.gather container (pos + 1) (r :: rest) pos [] = some [b] := by
  have hmin : min r.stop (pos + 1) - r.streamOffset = pos - r.streamOffset + 1 := by omega
  have hpos : r.streamOffset + (pos - r.streamOffset + 1) = pos + 1 := by omega
  rw [gather, if_neg (by omega), hmin]
  simp only [hone, hpos, Option.bind_eq_bind, Option.bind_some, List.nil_append, if_true]

theorem bytes_one (hkept : s.kept.Laid) (htiled : s.runs.Tiled) (hstop : s.runs.stop = s.stop)
    (hsmall : s.stop < 2 ^ 32) {o : ℕ} {b : UInt8} (hdisc : s.discarded ≤ o) (ho : o < s.stop)
    {front rest : List Row} {row : Row} (hlog : s.runs.log = front ++ row :: rest)
    (hfront : ∀ r ∈ front, r.streamOffset ≤ o) (hrow : row.streamOffset ≤ o)
    (hend : o < (rest.head?.map Row.streamOffset).getD s.runs.stop)
    (hread : placeReads s.kept container (o - row.streamOffset) b row.place) :
    s.bytes o (o + 1) container = some [b] := by
  have hspan := mem_spans front rest row s.runs.stop
  rw [← hlog] at hspan
  have hbelow : (rest.head?.map Row.streamOffset).getD s.runs.stop ≤ s.stop :=
    hstop ▸ htiled.below _ hspan
  rw [bytes, if_neg (by omega), if_neg (by omega), RunMap.firstEndingAfter_eq hlog hfront
    hrow hend, RunMap.iterFrom_eq hlog]
  refine gather_one hrow ?_ (runBytes_one hkept hread)
  simp only [Run.stop, RunMap.run]
  omega

end StreamAssembler

end WatchingZenoh.Tcp
