import WatchingZenoh.ColumnLogHolds

/-! Runs of the log against a plain list of rows. Whatever the hints are and however the columns widen,
every call answers as the list does. -/

namespace WatchingZenoh.ColumnLog

variable {C : ℕ} {start : ℕ}

/-- A call on the log. A call that looks for a position finds a hint that any reader may have left. -/
inductive Call (C : ℕ)
  | pushBack (row : Row C)
  | set (hint index : ℕ) (row : Row C)
  | popFront
  | get (hint index : ℕ)
  | column (hint index : ℕ) (col : Fin C)
  | front (hint : ℕ)
  | back (hint : ℕ)
  | iterFrom (hint first n : ℕ)
  | len
  | partitionPoint (col : Fin C) (pred : ℕ → Bool)

inductive Answer (C : ℕ)
  | done
  | found (there : Bool)
  | row (row : Option (Row C))
  | value (value : Option ℕ)
  | rows (rows : List (Row C))
  | size (n : ℕ)

def ColumnLog.call (log : ColumnLog C) : Call C → Option (Answer C × ColumnLog C)
  | .pushBack row => (log.pushBack row).map fun log => (.done, log)
  | .set hint index row => (log.set hint index row).map fun (there, log) => (.found there, log)
  | .popFront => log.popFront.map fun (row, log) => (.row row, log)
  | .get hint index => (log.get hint index).map fun row => (.row row, log)
  | .column hint index col => (log.column hint index col).map fun value => (.value value, log)
  | .front hint => (log.front hint).map fun row => (.row row, log)
  | .back hint => (log.back hint).map fun row => (.row row, log)
  | .iterFrom hint first n => (log.iterFrom hint first n).map fun rows => (.rows rows, log)
  | .len => log.len.map fun n => (.size n, log)
  | .partitionPoint col pred => (log.partitionPointByColumn col pred).map fun n => (.size n, log)

def Call.onList (rows : List (Row C)) : Call C → Answer C × List (Row C)
  | .pushBack row => (.done, rows ++ [row])
  | .set _ index row => (.found (decide (index < rows.length)), rows.set index row)
  | .popFront => (.row rows.head?, rows.tail)
  | .get _ index => (.row rows[index]?, rows)
  | .column _ index col => (.value (rows[index]?.map (· col)), rows)
  | .front _ => (.row rows.head?, rows)
  | .back _ => (.row rows.getLast?, rows)
  | .iterFrom _ first n => (.rows ((rows.drop first).take n), rows)
  | .len => (.size rows.length, rows)
  | .partitionPoint col pred => (.size (rows.takeWhile fun row => pred (row col)).length, rows)

/-- What a caller owes: rows of 64-bit values, and a predicate that the rows are partitioned by. -/
def Call.Owed (rows : List (Row C)) : Call C → Prop
  | .pushBack row | .set _ _ row => row.Fits
  | .partitionPoint col pred => ChunkLog.Partitioned (fun row : Row C => pred (row col)) rows
  | _ => True

def ColumnLog.run (log : ColumnLog C) : List (Call C) → Option (List (Answer C))
  | [] => some []
  | call :: calls => do
    let (answer, log) ← log.call call
    let answers ← log.run calls
    some (answer :: answers)

def listRun (rows : List (Row C)) : List (Call C) → List (Answer C)
  | [] => []
  | call :: calls => (call.onList rows).1 :: listRun (call.onList rows).2 calls

/-- Every call is owed what it needs at the rows it meets. -/
def AllOwed (rows : List (Row C)) : List (Call C) → Prop
  | [] => True
  | call :: calls => call.Owed rows ∧ AllOwed (call.onList rows).2 calls

theorem ColumnLog.holds_new (kinds : Fin C → Kind) : (new kinds).Holds 0 [] [] :=
  ⟨.nil 0, rfl, rfl, by simp, by simp [new]⟩

theorem ColumnLog.Holds.call {log : ColumnLog C} {lead rows : List (Row C)}
    (h : log.Holds start lead rows) {call : Call C} (howed : call.Owed rows) :
    ∃ log' start' lead', log.call call = some ((call.onList rows).1, log') ∧
      log'.Holds start' lead' (call.onList rows).2 := by
  cases call with
  | pushBack row =>
    obtain ⟨log', hrun, hholds⟩ := h.pushBack howed
    exact ⟨log', start, lead, by rw [ColumnLog.call, hrun]; rfl, hholds⟩
  | set hint index row =>
    obtain ⟨log', hrun, hholds⟩ := h.set hint index howed
    exact ⟨log', start, lead, by rw [ColumnLog.call, hrun]; rfl, hholds⟩
  | popFront =>
    obtain ⟨log', start', lead', hrun, hholds⟩ := h.popFront
    exact ⟨log', start', lead', by rw [ColumnLog.call, hrun]; rfl, hholds⟩
  | get hint index => exact ⟨log, start, lead, by rw [ColumnLog.call, h.get]; rfl, h⟩
  | column hint index col => exact ⟨log, start, lead, by rw [ColumnLog.call, h.column]; rfl, h⟩
  | front hint =>
    refine ⟨log, start, lead, ?_, h⟩
    rw [ColumnLog.call, ColumnLog.front, h.get, ← List.head?_eq_getElem?]
    rfl
  | back hint =>
    refine ⟨log, start, lead, ?_, h⟩
    have hback : log.back hint = some rows.getLast? := by
      rw [ColumnLog.back, h.len, Option.bind_some, List.getLast?_eq_getElem?]
      split_ifs with hempty
      · rw [List.getElem?_eq_none (by omega)]
      · rw [h.get]
    rw [ColumnLog.call, hback]
    rfl
  | iterFrom hint first n =>
    exact ⟨log, start, lead, by rw [ColumnLog.call, h.iterFrom]; rfl, h⟩
  | len => exact ⟨log, start, lead, by rw [ColumnLog.call, h.len]; rfl, h⟩
  | partitionPoint col pred =>
    exact ⟨log, start, lead, by rw [ColumnLog.call, h.partitionPointByColumn col pred howed]; rfl, h⟩

theorem ColumnLog.Holds.run {log : ColumnLog C} {lead rows : List (Row C)}
    (h : log.Holds start lead rows) {calls : List (Call C)} (howed : AllOwed rows calls) :
    log.run calls = some (listRun rows calls) := by
  induction calls generalizing log start lead rows with
  | nil => rfl
  | cons call calls ih =>
    obtain ⟨log', start', lead', hcall, hholds⟩ := h.call howed.1
    rw [ColumnLog.run, hcall]
    simp only [Option.bind_eq_bind, Option.bind_some, ih hholds howed.2]
    rfl

/-- Every run of the log answers as the same run of a plain list of rows, whatever kinds its columns
are of and whatever hints its readers find, and it never panics. -/
theorem log_answers_as_list (kinds : Fin C → Kind) {calls : List (Call C)} (howed : AllOwed [] calls) :
    (ColumnLog.new kinds).run calls = some (listRun [] calls) :=
  (ColumnLog.holds_new kinds).run howed

/-- A clock that goes back, and a release. -/
theorem log_answers_as_list_back :
    (ColumnLog.new fun j : Fin 2 => if j = 0 then Kind.rising else .plain).run
        [.pushBack fun j => if j = 0 then 70000 else 3, .pushBack fun _ => 300, .popFront,
          .get 7 0, .partitionPoint 1 fun v => decide (v < 400)] =
      some (listRun [] [.pushBack fun j : Fin 2 => if j = 0 then 70000 else 3, .pushBack fun _ => 300,
        .popFront, .get 7 0, .partitionPoint 1 fun v => decide (v < 400)]) := by
  refine log_answers_as_list _ ⟨fun j => ?_, fun j => ?_, trivial, trivial, ?_, trivial⟩
  · dsimp only
    split_ifs <;> norm_num
  · norm_num
  · simp [Call.Owed, ChunkLog.Partitioned, Call.onList]

end WatchingZenoh.ColumnLog
