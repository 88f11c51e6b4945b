import WatchingZenoh.ReplayCursor

/-! Runs of a host: what the peer has been told is the part of the sequence before the cursor. The
invariant splits the sequence into the entries told and those owed; a turn moves entries from the
second part to the end of the first, an insertion and a removal act inside one of the two. -/

namespace WatchingZenoh.Replay.Host

variable {α : Type*} [DecidableEq α]

/-- The peer has been told `told`, each entry once, and `owed` not at all. -/
structure Paced (h : Host α) (told owed : List (Entry α)) : Prop where
  entries : h.entries = told ++ owed
  cursor : h.cursor = ⟨told.length, told.length + owed.length⟩
  held : (Replay.held h.sent).Perm told
  once : ∀ e ∈ told, h.sent.count (.declare e) = 1
  never : ∀ e ∈ owed, h.sent.count (.declare e) = 0
  nodup : (told ++ owed).Nodup
  issued : ∀ e, e ∈ told ++ owed ∨ .declare e ∈ h.sent → e.serial < h.issued
  sound : Sound h.sent

variable {h : Host α} {told owed : List (Entry α)}

theorem count_map_declare (es : List (Entry α)) (e : Entry α) :
    (es.map Message.declare).count (.declare e) = es.count e :=
  List.count_map_of_injective es _ (fun _ _ heq => by cases heq; rfl) e

theorem paced_begin (values : List α) : Paced (begin values) [] (serialise values) where
  entries := rfl
  cursor := by simp [begin, ReplayCursor.begin, serialise]
  held := .refl _
  once e he := by simp at he
  never e _ := by simp [begin]
  nodup := by
    have h : ((serialise values).map (·.serial)).Nodup := by
      have heq : (serialise values).map (·.serial) = List.range values.length := by
        simp [serialise, Function.comp_def, List.zipIdx_map_snd, List.range_eq_range']
      rw [heq]
      exact List.nodup_range
    simpa using h.of_map
  issued e he := by
    simp only [begin, serialise, List.nil_append, List.not_mem_nil, or_false, List.mem_map,
      Prod.exists] at he
    obtain ⟨value, serial, hmem, rfl⟩ := he
    simpa [begin] using (List.mem_zipIdx hmem).2.1
  sound := sound_nil

theorem Paced.tell {now later : List (Entry α)} (hp : Paced h told (now ++ later)) :
    Paced { h with
      cursor := ⟨told.length + now.length, told.length + (now ++ later).length⟩
      sent := h.sent ++ now.map .declare } (told ++ now) later where
  entries := by simp [hp.entries]
  cursor := by simp [add_assoc]
  held := by
    rw [held_declares]
    exact hp.held.append_right now
  once e he := by
    have hnodup := hp.nodup
    rw [← List.append_assoc] at hnodup
    rw [List.count_append, count_map_declare]
    have hone := (List.nodup_append.mp hnodup).1.count (a := e)
    rw [if_pos he, List.count_append] at hone
    rcases List.mem_append.mp he with he | he
    · have := hp.once e he
      have := List.count_pos_iff.mpr he
      omega
    · have := hp.never e (by simp [he])
      have := List.count_pos_iff.mpr he
      omega
  never e he := by
    have hnodup := hp.nodup
    rw [← List.append_assoc] at hnodup
    have hnow : e ∉ now := fun hmem =>
      (List.nodup_append.mp hnodup).2.2 e (by simp [hmem]) e he rfl
    rw [List.count_append, count_map_declare, hp.never e (by simp [he]),
      List.count_eq_zero_of_not_mem hnow]
  nodup := by simpa using hp.nodup
  issued e he := by
    refine hp.issued e ?_
    rcases he with he | he
    · exact .inl (by simpa using he)
    · rcases List.mem_append.mp he with he | he
      · exact .inr he
      · refine .inl ?_
        obtain ⟨f, hf, heq⟩ := List.mem_map.mp he
        cases heq
        simp [hf]
  sound := hp.sound.declares now

theorem Paced.turn (hp : Paced h told owed) (burst : ℕ) (refusal : Option ℕ) :
    ∃ told' owed', Paced (h.turn burst refusal) told' owed' := by
  -- How many entries go out: those of the range, or those before the refused one.
  have hsplit : ∀ k, k ≤ min burst owed.length → ∀ next, next = told.length + k →
      Paced { h with
        cursor := ⟨next, told.length + owed.length⟩
        sent := h.sent ++ (owed.take k).map .declare } (told ++ owed.take k) (owed.drop k) := by
    intro k hk next hnext
    have hp' : Paced h told (owed.take k ++ owed.drop k) := by rwa [List.take_append_drop]
    have htell := hp'.tell
    rw [List.take_append_drop, List.length_take, min_eq_left (by omega)] at htell
    rw [hnext]
    exact htell
  have hrange : (h.entries.take (told.length + min burst owed.length)).drop told.length =
      owed.take (min burst owed.length) := by
    rw [hp.entries, List.take_length_add_append, List.drop_left]
  have hstart : min told.length (told.length + owed.length) = told.length := by omega
  have hstop : min (told.length + owed.length) (told.length + burst) =
      told.length + min burst owed.length := by omega
  have hlen : told.length + min burst owed.length - told.length = min burst owed.length := by omega
  simp only [Host.turn, ReplayCursor.turn, hp.cursor, hstart, hstop, hrange, hlen]
  cases hr : refusal.filter (· < min burst owed.length) with
  | none => exact ⟨_, _, hsplit _ le_rfl _ rfl⟩
  | some k =>
    obtain ⟨-, hk⟩ := Option.filter_eq_some_iff.mp hr
    have hk : k < min burst owed.length := by simpa using hk
    simp only [ReplayCursor.refused, List.take_take, min_eq_left hk.le]
    exact ⟨_, _, hsplit k hk.le _ (by omega)⟩

theorem insertIdx_append_left {β : Type*} {xs ys : List β} {i : ℕ} {b : β} (h : i ≤ xs.length) :
    (xs ++ ys).insertIdx i b = xs.insertIdx i b ++ ys := by
  induction xs generalizing i with
  | nil =>
    obtain rfl : i = 0 := by simpa using h
    simp
  | cons x xs ih =>
    cases i with
    | zero => simp
    | succ i => simp [ih (by simpa using h)]

theorem insertIdx_append_right {β : Type*} {xs ys : List β} {i : ℕ} {b : β} (h : xs.length ≤ i) :
    (xs ++ ys).insertIdx i b = xs ++ ys.insertIdx (i - xs.length) b := by
  induction xs generalizing i with
  | nil => simp
  | cons x xs ih =>
    cases i with
    | zero => simp at h
    | succ i => simp [ih (by simpa using h)]

theorem Paced.fresh (hp : Paced h told owed) (value : α) :
    (⟨h.issued, value⟩ : Entry α) ∉ told ++ owed ∧
      Message.declare (⟨h.issued, value⟩ : Entry α) ∉ h.sent :=
  ⟨fun hmem => lt_irrefl _ (hp.issued _ (.inl hmem)),
    fun hmem => lt_irrefl _ (hp.issued _ (.inr hmem))⟩

theorem Paced.owe (hp : Paced h told owed) (value : α) {i : ℕ} (hi : i ≤ owed.length) :
    Paced { h with
      cursor := ⟨told.length, told.length + owed.length + 1⟩
      entries := told ++ owed.insertIdx i ⟨h.issued, value⟩
      issued := h.issued + 1 } told (owed.insertIdx i ⟨h.issued, value⟩) := by
  obtain ⟨hnew, hunsent⟩ := hp.fresh value
  have hperm := List.perm_insertIdx (⟨h.issued, value⟩ : Entry α) owed hi
  refine ⟨rfl, by simp [hperm.length_eq, add_assoc], hp.held, hp.once, fun e he => ?_, ?_,
    fun e he => ?_, hp.sound⟩
  · rcases List.mem_cons.mp (hperm.subset he) with rfl | he
    · exact List.count_eq_zero_of_not_mem hunsent
    · exact hp.never e he
  · refine ((hperm.append_left told).trans List.perm_middle).nodup_iff.mpr ?_
    exact List.nodup_cons.mpr ⟨hnew, hp.nodup⟩
  · rcases he with he | he
    · have he := ((hperm.append_left told).trans List.perm_middle).subset he
      rcases List.mem_cons.mp he with rfl | he
      · exact Nat.lt_succ_self _
      · exact Nat.lt_succ_of_lt (hp.issued e (.inl he))
    · exact Nat.lt_succ_of_lt (hp.issued e (.inr he))

theorem Paced.emit (hp : Paced h told owed) (value : α) {i : ℕ} (hi : i ≤ told.length) :
    Paced { h with
      cursor := ⟨told.length + 1, told.length + owed.length + 1⟩
      entries := told.insertIdx i ⟨h.issued, value⟩ ++ owed
      issued := h.issued + 1
      sent := h.sent ++ [.declare ⟨h.issued, value⟩] }
      (told.insertIdx i ⟨h.issued, value⟩) owed := by
  obtain ⟨hnew, hunsent⟩ := hp.fresh value
  have hperm := List.perm_insertIdx (⟨h.issued, value⟩ : Entry α) told hi
  have hcount : ∀ e : Entry α, (h.sent ++ [Message.declare ⟨h.issued, value⟩]).count (.declare e) =
      h.sent.count (.declare e) + [(⟨h.issued, value⟩ : Entry α)].count e := by
    intro e
    rw [List.count_append]
    exact congrArg _ (count_map_declare [_] e)
  refine ⟨rfl, by simp [hperm.length_eq]; omega, ?_, fun e he => ?_, fun e he => ?_, ?_,
    fun e he => ?_, hp.sound.declares [_]⟩
  · rw [show [Message.declare (⟨h.issued, value⟩ : Entry α)] = [⟨h.issued, value⟩].map .declare
      from rfl, held_declares]
    exact ((hp.held.append_right _).trans (List.perm_append_singleton _ _)).trans hperm.symm
  · rw [hcount]
    rcases List.mem_cons.mp (hperm.subset he) with rfl | hmem
    · simp [List.count_eq_zero_of_not_mem hunsent]
    · have hne : (⟨h.issued, value⟩ : Entry α) ≠ e := fun heq =>
        hnew (by rw [heq]; exact List.mem_append_left _ hmem)
      simp [hp.once e hmem, hne]
  · have hne : (⟨h.issued, value⟩ : Entry α) ≠ e := fun heq =>
      hnew (by rw [heq]; exact List.mem_append_right _ he)
    simp [hcount, hp.never e he, hne]
  · refine (hperm.append_right owed).nodup_iff.mpr ?_
    exact List.nodup_cons.mpr ⟨hnew, hp.nodup⟩
  · rcases he with he | he
    · rcases List.mem_cons.mp ((hperm.append_right owed).subset he) with rfl | he
      · exact Nat.lt_succ_self _
      · exact Nat.lt_succ_of_lt (hp.issued e (.inl he))
    · rcases List.mem_append.mp he with he | he
      · exact Nat.lt_succ_of_lt (hp.issued e (.inr he))
      · cases List.mem_singleton.mp he
        exact Nat.lt_succ_self _

theorem Paced.insert (hp : Paced h told owed) (place : ℕ) (value : α) :
    ∃ told' owed', Paced (h.insert place value) told' owed' := by
  have hlen : h.entries.length = told.length + owed.length := by simp [hp.entries]
  have hcursor := hp.cursor
  rw [Host.insert, hlen]
  generalize hi : min place (told.length + owed.length) = i
  by_cases howed : owed.length ≠ 0 ∧ told.length ≤ i
  · have hins : h.cursor.inserted place =
        (.owed, ⟨told.length, told.length + owed.length + 1⟩) := by
      rw [hcursor, ReplayCursor.inserted_owed (by simp only; omega) (by simp only; omega)]
    refine ⟨told, owed.insertIdx (i - told.length) ⟨h.issued, value⟩, ?_⟩
    rw [hins, hp.entries, insertIdx_append_right howed.2]
    simp only [List.append_nil]
    exact hp.owe value (by omega)
  · have hins : h.cursor.inserted place =
        (.emitNow, ⟨told.length + 1, told.length + owed.length + 1⟩) := by
      rw [hcursor, ReplayCursor.inserted_emitNow (by simp only; omega)]
    refine ⟨told.insertIdx i ⟨h.issued, value⟩, owed, ?_⟩
    rw [hins, hp.entries, insertIdx_append_left (by omega)]
    exact hp.emit value (by omega)

theorem Paced.retract {front back : List (Entry α)} {e : Entry α}
    (hp : Paced h (front ++ e :: back) owed) :
    Paced { h with
      cursor := ⟨(front ++ back).length, (front ++ back).length + owed.length⟩
      entries := front ++ back ++ owed
      sent := h.sent ++ [.retract e] } (front ++ back) owed := by
  have hperm : (front ++ e :: back).Perm (e :: (front ++ back)) := List.perm_middle
  have hcount : ∀ f : Entry α, (h.sent ++ [Message.retract e]).count (.declare f) =
      h.sent.count (.declare f) := by simp
  refine ⟨rfl, rfl, ?_, fun f hf => ?_, fun f hf => ?_, ?_, fun f hf => ?_, ?_⟩
  · rw [held_retract]
    have herase := (hp.held.trans hperm).erase e
    rwa [List.erase_cons_head] at herase
  · rw [hcount]
    exact hp.once f (hperm.symm.subset (List.mem_cons_of_mem e hf))
  · rw [hcount]
    exact hp.never f hf
  · exact (List.nodup_cons.mp ((hperm.append_right owed).nodup_iff.mp hp.nodup)).2
  · refine hp.issued f (hf.imp (fun hf => ?_) fun hf => by simpa using hf)
    exact (hperm.append_right owed).symm.subset (List.mem_cons_of_mem e hf)
  · exact hp.sound.retract (hp.held.symm.subset (by simp))

theorem Paced.drop {front back : List (Entry α)} {e : Entry α}
    (hp : Paced h told (front ++ e :: back)) :
    Paced { h with
      cursor := ⟨told.length, told.length + (front ++ back).length⟩
      entries := told ++ (front ++ back) } told (front ++ back) := by
  have hperm : (told ++ (front ++ e :: back)).Perm (e :: (told ++ (front ++ back))) :=
    (List.perm_middle.append_left told).trans List.perm_middle
  refine ⟨rfl, rfl, hp.held, hp.once, fun f hf => hp.never f ?_, ?_, fun f hf => ?_, hp.sound⟩
  · exact List.perm_middle.symm.subset (List.mem_cons_of_mem e hf)
  · exact (List.nodup_cons.mp (hperm.nodup_iff.mp hp.nodup)).2
  · exact hp.issued f (hf.imp_left fun hf => hperm.symm.subset (List.mem_cons_of_mem e hf))

theorem exists_split {β : Type*} (xs : List β) {i : ℕ} (h : i < xs.length) :
    ∃ front x back, xs = front ++ x :: back ∧ front.length = i :=
  ⟨xs.take i, xs[i], xs.drop (i + 1), by simp, by simp; omega⟩

theorem Paced.remove (hp : Paced h told owed) (place : ℕ) :
    ∃ told' owed', Paced (h.remove place) told' owed' := by
  have hlen : h.entries.length = told.length + owed.length := by simp [hp.entries]
  by_cases hzero : told.length + owed.length = 0
  · obtain rfl : told = [] := List.length_eq_zero_iff.mp (by omega)
    obtain rfl : owed = [] := List.length_eq_zero_iff.mp (by omega)
    refine ⟨[], [], ?_⟩
    have heq : h.remove place = h := by
      have hent := hp.entries
      have hcur := hp.cursor
      obtain ⟨cursor, entries, issued, sent⟩ := h
      subst hent hcur
      simp [Host.remove, ReplayCursor.removed]
    rwa [heq]
  · have hcursor := hp.cursor
    rw [Host.remove, hlen]
    generalize hi : min place (told.length + owed.length - 1) = i
    by_cases htold : i < told.length
    · obtain ⟨front, e, back, rfl, rfl⟩ := exists_split told htold
      have hrem : h.cursor.removed front.length = (.retract,
          ⟨(front ++ back).length, (front ++ back).length + owed.length⟩) := by
        rw [hcursor, ReplayCursor.removed_retract (by simp only; omega) (by simp only; omega)]
        simp only [List.length_append, List.length_cons]
        congr 2
        omega
      have hget : h.entries[front.length]? = some e := by simp [hp.entries]
      have herase : h.entries.eraseIdx front.length = front ++ back ++ owed := by
        simp [hp.entries, List.eraseIdx_append_of_length_le]
      refine ⟨front ++ back, owed, ?_⟩
      rw [hrem, hget, herase]
      exact hp.retract
    · obtain ⟨front, e, back, rfl, hfront⟩ :=
        exists_split owed (by omega : i - told.length < owed.length)
      have hrem : h.cursor.removed i = (.silent,
          ⟨told.length, told.length + (front ++ back).length⟩) := by
        rw [hcursor, ReplayCursor.removed_silent (by simp only; omega) (by simp only; omega)]
        simp only [List.length_append, List.length_cons]
        congr 2
      have herase : h.entries.eraseIdx i = told ++ (front ++ back) := by
        rw [hp.entries, List.eraseIdx_append_of_length_le (by omega), ← hfront,
          List.eraseIdx_append_of_length_le le_rfl]
        simp
      refine ⟨told, front ++ back, ?_⟩
      rw [hrem, herase]
      simp only [List.append_nil]
      exact hp.drop

theorem Paced.step (hp : Paced h told owed) (act : Act α) :
    ∃ told' owed', Paced (h.step act) told' owed' :=
  match act with
  | .turn burst refusal => hp.turn burst refusal
  | .insert place value => hp.insert place value
  | .remove place => hp.remove place

theorem paced_run (values : List α) (acts : List (Act α)) :
    ∃ told owed, Paced (acts.foldl Host.step (begin values)) told owed := by
  refine Steps.foldl_keeps (P := fun _ h => ∃ told owed, Paced h told owed) ?_ acts []
    ⟨[], serialise values, paced_begin values⟩
  rintro past h act ⟨told, owed, hp⟩
  exact hp.step act

/-- After any run the peer holds exactly the entries before the cursor, each of which it was told once
since its insertion, and the others never; every retraction was of an entry it held; and when the
cursor is finished it holds the host's entries. -/
theorem replay_run (values : List α) (acts : List (Act α)) :
    let h := acts.foldl Host.step (begin values)
    h.entries.Nodup ∧
    (Replay.held h.sent).Perm (h.entries.take h.cursor.next) ∧
    (∀ e ∈ h.entries, h.sent.count (.declare e) =
      if e ∈ h.entries.take h.cursor.next then 1 else 0) ∧
    Sound h.sent ∧
    (h.cursor.finished = true → (Replay.held h.sent).Perm h.entries) := by
  intro h
  obtain ⟨told, owed, hp⟩ := paced_run values acts
  have htake : h.entries.take h.cursor.next = told := by simp [h, hp.entries, hp.cursor]
  refine ⟨hp.entries ▸ hp.nodup, htake ▸ hp.held, fun e he => ?_, hp.sound, fun hfin => ?_⟩
  · rw [htake]
    split
    · next hmem => exact hp.once e hmem
    · next hmem =>
      rw [show h.entries = told ++ owed from hp.entries] at he
      exact hp.never e ((List.mem_append.mp he).resolve_left hmem)
  · have howed : owed = [] := by
      simpa [h, hp.cursor, ReplayCursor.finished] using hfin
    have hall : h.entries = told := by
      rw [show h.entries = told ++ owed from hp.entries, howed, List.append_nil]
    rw [hall]
    exact hp.held

end WatchingZenoh.Replay.Host
