import WatchingZenoh.StreamWindowParse

/-! One turn of a push, against the parse of the stream: what the window remembers is the frame that
is not whole yet, and a turn takes the frame further or hands it out. -/

namespace WatchingZenoh.StreamWindow

def arrive (push : ℕ) (lowlatency : Bool) (bytes : Bytes) : List Arrived :=
  bytes.map fun byte => ⟨byte, lowlatency, push⟩

@[simp] theorem length_arrive (push : ℕ) (lowlatency : Bool) (bytes : Bytes) :
    (arrive push lowlatency bytes).length = bytes.length := List.length_map ..

@[simp] theorem bytesOf_arrive (push : ℕ) (lowlatency : Bool) (bytes : Bytes) :
    bytesOf (arrive push lowlatency bytes) = bytes := by
  rw [bytesOf, arrive, List.map_map]
  exact List.map_id' bytes

@[simp] theorem bytesOf_append (l l' : List Arrived) : bytesOf (l ++ l') = bytesOf l ++ bytesOf l' :=
  List.map_append

@[simp] theorem length_bytesOf (l : List Arrived) : (bytesOf l).length = l.length :=
  List.length_map ..

theorem arrive_take_append_drop (push : ℕ) (lowlatency : Bool) (bytes : Bytes) (n : ℕ) :
    arrive push lowlatency (bytes.take n) ++ arrive push lowlatency (bytes.drop n) =
      arrive push lowlatency bytes := by
  rw [arrive, arrive, ← List.map_append, List.take_append_drop, arrive]

theorem push_of_mem_arrive {push : ℕ} {lowlatency : Bool} {bytes : Bytes} {a : Arrived}
    (h : a ∈ arrive push lowlatency bytes) : a.push = push := by
  obtain ⟨byte, -, rfl⟩ := List.mem_map.mp h
  rfl

variable {C : Type}

/-- A carry that has room for some frames, and keeps the bytes of the one it is given. -/
structure Lawful (carry : Carry C) (room : ℕ → Bool) (Idle : C → Prop) (Holds : C → ℕ → Bytes → Prop) :
    Prop where
  begin : ∀ c want, Idle c → room want = true →
    (carry.begin c want).2 = true ∧ Holds (carry.begin c want).1 want []
  refuse : ∀ c want, room want = false → (carry.begin c want).2 = false
  extend : ∀ c want held more, Holds c want held → held.length + more.length ≤ want →
    ∃ c', carry.extend c more = some c' ∧ Holds c' want (held ++ more)
  bytes : ∀ c want held, Holds c want held → carry.bytes c = held
  release : ∀ c, Idle (carry.release c)

theorem lawful_heapCarry :
    Lawful heapCarry (fun _ => true) (· = []) (fun c _ held => c = held) where
  begin := fun _ _ hidle _ => ⟨rfl, hidle⟩
  refuse := fun _ _ h => by simp at h
  extend := fun c _ held more hholds _ => ⟨c ++ more, rfl, by rw [hholds]⟩
  bytes := fun _ _ _ hholds => hholds
  release := fun _ => rfl

theorem lawful_fixedCarry (N : ℕ) :
    Lawful (fixedCarry N) (fun want => decide (want ≤ N)) (fun _ => True)
      (fun c want held => want ≤ N ∧ c.len = held.length ∧ c.bytes.take c.len = held) where
  begin := fun c want _ hroom => ⟨hroom, of_decide_eq_true hroom, rfl, List.take_zero⟩
  refuse := fun _ _ h => h
  extend := fun c want held more hholds hle => by
    obtain ⟨hwant, hlen, hheld⟩ := hholds
    have hfits : c.len + more.length ≤ N := by omega
    have hlength : c.len + more.length = (held ++ more).length := by rw [List.length_append, hlen]
    have htake : (c.bytes.take c.len ++ more ++ c.bytes.drop (c.len + more.length)).take
        (c.len + more.length) = held ++ more := by
      rw [hheld]
      exact List.take_left' hlength.symm
    exact ⟨_, dif_pos hfits, hwant, hlength, htake⟩
  bytes := fun _ _ _ hholds => hholds.2.2
  release := fun _ => trivial

def padded (bytes : Bytes) : Bytes := bytes ++ List.replicate (4 - bytes.length) 0

theorem padded_extend (start more : Bytes) :
    (padded start).take start.length ++ more ++ (padded start).drop (start.length + more.length) =
      padded (start ++ more) := by
  rw [padded, List.take_left, ← List.drop_drop, List.drop_left, List.drop_replicate, padded,
    List.length_append, Nat.sub_sub]

theorem decodePrefix_padded {start : Bytes} {lowlatency : Bool}
    (h : start.length = prefixWidth lowlatency) :
    decodePrefix (padded start) (prefixWidth lowlatency) = leValue start := by
  cases lowlatency with
  | false =>
    have htake : (padded start).take 2 = start := List.take_left' h
    rw [decodePrefix, if_neg (by decide), htake]
  | true =>
    have htake : (padded start).take 4 = start := List.take_left' h
    rw [decodePrefix, if_pos (by decide), htake]

section Turns

variable {carry : Carry C} {room : ℕ → Bool} {Idle : C → Prop} {Holds : C → ℕ → Bytes → Prop}

/-- What a window remembers of the frame that is not whole yet. -/
inductive At (room : ℕ → Bool) (Idle : C → Prop) (Holds : C → ℕ → Bytes → Prop) :
    RxWindow C → List Arrived → Prop
  | between {c : C} (hidle : Idle c) : At room Idle Holds ⟨.between, c⟩ []
  | inPrefix {c : C} (hidle : Idle c) {u : List Arrived} {lowlatency : Bool} (hne : u ≠ [])
      (hlow : ∀ a ∈ u.head?, a.lowlatency = lowlatency) (hlen : u.length < prefixWidth lowlatency) :
      At room Idle Holds
        ⟨.inPrefix (padded (bytesOf u)) u.length (prefixWidth lowlatency), c⟩ u
  | start {c : C} (hidle : Idle c) {head : List Arrived} {lowlatency : Bool}
      (hlow : ∀ a ∈ head.head?, a.lowlatency = lowlatency)
      (hlen : head.length = prefixWidth lowlatency) (hpos : leValue (bytesOf head) ≠ 0)
      (hmax : leValue (bytesOf head) ≤ maxFramePayload) :
      At room Idle Holds ⟨.payload (leValue (bytesOf head)) 0, c⟩ head
  | payload {c : C} {head held : List Arrived} {lowlatency : Bool}
      (hlow : ∀ a ∈ head.head?, a.lowlatency = lowlatency)
      (hlen : head.length = prefixWidth lowlatency) (hmax : leValue (bytesOf head) ≤ maxFramePayload)
      (hroom : room (leValue (bytesOf head)) = true) (hheld : held ≠ [])
      (hpart : held.length < leValue (bytesOf head))
      (hholds : Holds c (leValue (bytesOf head)) (bytesOf held)) :
      At room Idle Holds ⟨.payload (leValue (bytesOf head)) held.length, c⟩ (head ++ held)

def ahead (frames : List Bytes) (parsed : List Bytes × Ending) : List Bytes × Ending :=
  (frames ++ parsed.1, parsed.2)

@[simp] theorem ahead_nil (parsed : List Bytes × Ending) : ahead [] parsed = parsed := rfl

theorem ahead_ahead (frames more : List Bytes) (parsed : List Bytes × Ending) :
    ahead frames (ahead more parsed) = ahead (frames ++ more) parsed := by
  rw [ahead, ahead, ahead, List.append_assoc]

/-- What a turn over bytes of a push comes to, with `rest` still to arrive. -/
inductive Advance (room : ℕ → Bool) (Idle : C → Prop) (Holds : C → ℕ → Bytes → Prop)
    (arriving : Bytes → List Arrived) (u : List Arrived) (bytes : Bytes) : Turn C → Prop
  | goOn {w : RxWindow C} {frames : List Bytes} {n : ℕ} (hpos : 0 < n) (u' : List Arrived)
      (hat : At room Idle Holds w u')
      (hparse : parse room (u ++ arriving bytes) =
        ahead frames (parse room (u' ++ arriving (bytes.drop n)))) :
      Advance room Idle Holds arriving u bytes (.goOn w (bytes.drop n) frames)
  | fail {w : RxWindow C} {error : WindowError} (ending : Ending) (hend : ending.error = some error)
      (hparse : parse room (u ++ arriving bytes) = ([], ending)) :
      Advance room Idle Holds arriving u bytes (.fail w error)

variable {push : ℕ} {lowlatency : Bool} {rest : List Arrived}

theorem advance_inPrefix {c : C} (hidle : Idle c)
    {u : List Arrived} {low : Bool} {bytes : Bytes} (hne : bytes ≠ [])
    (hlow : ∀ a ∈ (u ++ arrive push lowlatency bytes).head?, a.lowlatency = low)
    (hlen : u.length < prefixWidth low) :
    Advance room Idle Holds (fun bytes => arrive push lowlatency bytes ++ rest) u bytes
      (turnPrefix carry ⟨.inPrefix (padded (bytesOf u)) u.length (prefixWidth low), c⟩ bytes
        (padded (bytesOf u)) u.length (prefixWidth low)) := by
  have hbytes : 0 < bytes.length := List.length_pos_iff.mpr hne
  set n := min (prefixWidth low - u.length) bytes.length with hn
  have hpos : 0 < n := by omega
  have htake : (bytes.take n).length = n := by rw [List.length_take]; omega
  have hstart : (padded (bytesOf u)).take u.length ++ bytes.take n ++
      (padded (bytesOf u)).drop (u.length + n) = padded (bytesOf u ++ bytes.take n) := by
    have h := padded_extend (bytesOf u) (bytes.take n)
    rwa [length_bytesOf, htake] at h
  have hsplit : u ++ (arrive push lowlatency bytes ++ rest) =
      (u ++ arrive push lowlatency (bytes.take n)) ++
        (arrive push lowlatency (bytes.drop n) ++ rest) := by
    rw [← arrive_take_append_drop push lowlatency bytes n]
    simp only [List.append_assoc]
  have hhead : ∀ a ∈ (u ++ arrive push lowlatency (bytes.take n)).head?, a.lowlatency = low := by
    intro a ha
    refine hlow a ?_
    rw [← arrive_take_append_drop push lowlatency bytes n, ← List.append_assoc, List.head?_append]
    rw [Option.mem_def] at ha ⊢
    rw [ha]
    rfl
  have hdecode : u.length + n = prefixWidth low →
      decodePrefix (padded (bytesOf u ++ bytes.take n)) (prefixWidth low) =
        leValue (bytesOf u ++ bytes.take n) := fun hwidth =>
    decodePrefix_padded (by rw [List.length_append, length_bytesOf, htake, hwidth])
  rw [turnPrefix]
  simp only [← hn, hstart]
  split_ifs with hmore hover hzero
  · -- The bytes end inside the prefix.
    have hall : n = bytes.length := by omega
    have hu : u ++ arrive push lowlatency (bytes.take n) ≠ [] := by
      intro hnil
      have := congrArg List.length hnil
      simp only [List.length_append, length_arrive, htake, List.length_nil] at this
      omega
    have hshort : (u ++ arrive push lowlatency (bytes.take n)).length < prefixWidth low := by
      rw [List.length_append, length_arrive, htake]
      exact hmore
    have hat : At room Idle Holds _ _ := .inPrefix hidle hu hhead hshort
    rw [bytesOf_append, bytesOf_arrive, List.length_append, length_arrive, htake] at hat
    refine .goOn hpos _ hat ?_
    rw [ahead_nil, hsplit]
  · have hwidth : u.length + n = prefixWidth low := by omega
    have hlength : (u ++ arrive push lowlatency (bytes.take n)).length = prefixWidth low := by
      rw [List.length_append, length_arrive, htake, hwidth]
    have hwant := hdecode hwidth
    rw [hwant] at hover ⊢
    refine .fail (.oversize _) rfl ?_
    rw [hsplit, parse_frame hhead hlength, bytesOf_append, bytesOf_arrive, if_pos hover]
  · have hwidth : u.length + n = prefixWidth low := by omega
    have hlength : (u ++ arrive push lowlatency (bytes.take n)).length = prefixWidth low := by
      rw [List.length_append, length_arrive, htake, hwidth]
    have hwant := hdecode hwidth
    rw [hwant] at hzero
    refine .goOn hpos [] (.between hidle) ?_
    rw [hsplit, parse_frame hhead hlength, bytesOf_append, bytesOf_arrive, hzero, ahead_nil,
      List.nil_append]
    simp [cut, maxFramePayload]
  · have hwidth : u.length + n = prefixWidth low := by omega
    have hlength : (u ++ arrive push lowlatency (bytes.take n)).length = prefixWidth low := by
      rw [List.length_append, length_arrive, htake, hwidth]
    have hwant := hdecode hwidth
    rw [hwant] at hover hzero ⊢
    have hat : At room Idle Holds _ _ := .start hidle hhead hlength
      (by rw [bytesOf_append, bytesOf_arrive]; exact hzero)
      (by rw [bytesOf_append, bytesOf_arrive]; exact Nat.le_of_not_lt hover)
    rw [bytesOf_append, bytesOf_arrive] at hat
    refine .goOn hpos _ hat ?_
    rw [ahead_nil, hsplit]

theorem cut_of_le {want : ℕ} {bytes : Bytes} (h : want ≤ bytes.length) :
    cut want (arrive push lowlatency bytes ++ rest) = false := by
  have htake : (arrive push lowlatency bytes ++ rest).take want =
      arrive push lowlatency (bytes.take want) := by
    rw [List.take_append_of_le_length (by rwa [length_arrive]), arrive, arrive, List.map_take]
  have hlen : ¬ (arrive push lowlatency bytes ++ rest).length < want := by
    rw [List.length_append, length_arrive]
    omega
  rw [cut, htake, decide_eq_false hlen]
  cases hfirst : (arrive push lowlatency (bytes.take want)).head? with
  | none => rfl
  | some first =>
    have hpush : first.push = push := push_of_mem_arrive (List.mem_of_mem_head? hfirst)
    rw [Option.any_some, Bool.false_or, List.any_eq_false]
    intro a ha
    rw [push_of_mem_arrive ha, hpush]
    simp

theorem cut_of_lt {want : ℕ} {bytes : Bytes} (hne : bytes ≠ []) (h : bytes.length < want)
    (hrest : ∀ a ∈ rest, a.push ≠ push) :
    cut want (arrive push lowlatency bytes ++ rest) = true := by
  obtain ⟨byte, more, rfl⟩ := List.exists_cons_of_ne_nil hne
  obtain ⟨w, rfl⟩ : ∃ w, want = w + 1 := ⟨want - 1, by omega⟩
  have hhead : ((arrive push lowlatency (byte :: more) ++ rest).take (w + 1)).head? =
      some ⟨byte, lowlatency, push⟩ := rfl
  rw [cut, hhead, Option.any_some, Bool.or_eq_true]
  by_cases hshort : (arrive push lowlatency (byte :: more) ++ rest).length < w + 1
  · exact .inl (decide_eq_true hshort)
  · right
    rw [List.length_append, length_arrive] at hshort
    obtain ⟨other, behind, rfl⟩ : ∃ other behind, rest = other :: behind := by
      refine List.exists_cons_of_ne_nil fun hnil => ?_
      rw [hnil, List.length_nil] at hshort
      omega
    rw [List.any_eq_true]
    refine ⟨other, ?_, by simpa using hrest other (by simp)⟩
    rw [List.take_append, List.mem_append]
    right
    obtain ⟨d, hd⟩ : ∃ d, w + 1 - (arrive push lowlatency (byte :: more)).length = d + 1 :=
      ⟨w + 1 - (arrive push lowlatency (byte :: more)).length - 1, by rw [length_arrive]; omega⟩
    rw [hd, List.take_succ_cons]
    exact List.mem_cons_self

theorem advance_start (hlaw : Lawful carry room Idle Holds) {c : C} (hidle : Idle c)
    {head : List Arrived} {low : Bool} {bytes : Bytes} (hne : bytes ≠ [])
    (hlow : ∀ a ∈ head.head?, a.lowlatency = low) (hlen : head.length = prefixWidth low)
    (hpos : leValue (bytesOf head) ≠ 0) (hmax : leValue (bytesOf head) ≤ maxFramePayload)
    (hrest : ∀ a ∈ rest, a.push ≠ push) :
    ∃ t, turnPayload carry ⟨.payload (leValue (bytesOf head)) 0, c⟩ bytes (leValue (bytesOf head)) 0 =
        some t ∧
      Advance room Idle Holds (fun bytes => arrive push lowlatency bytes ++ rest) head bytes t := by
  have hbytes : 0 < bytes.length := List.length_pos_iff.mpr hne
  set want := leValue (bytesOf head) with hwant
  rw [turnPayload]
  by_cases hwhole : want ≤ bytes.length
  · refine ⟨_, if_pos ⟨rfl, hwhole⟩, .goOn (Nat.pos_of_ne_zero hpos) [] (.between hidle) ?_⟩
    have hlength : ¬ (arrive push lowlatency bytes ++ rest).length < want := by
      rw [List.length_append, length_arrive]
      omega
    have htake : bytesOf ((arrive push lowlatency bytes ++ rest).take want) = bytes.take want := by
      rw [List.take_append_of_le_length (by rwa [length_arrive]), bytesOf, List.map_take, ← bytesOf,
        bytesOf_arrive]
    have hdrop : (arrive push lowlatency bytes ++ rest).drop want =
        arrive push lowlatency (bytes.drop want) ++ rest := by
      rw [List.drop_append_of_le_length (by rwa [length_arrive]), arrive, arrive, List.map_drop]
    rw [parse_frame hlow hlen, ← hwant, if_neg (Nat.not_lt.mpr hmax), cut_of_le hwhole, Bool.and_false,
      if_neg (by simp), if_neg hlength, if_neg hpos, htake, hdrop]
    rfl
  · rw [if_neg fun h => hwhole h.2]
    simp only [if_true]
    rcases hroom : room want with _ | _
    · refine ⟨_, if_pos (hlaw.refuse c want hroom), .fail (.cramped want) rfl ?_⟩
      rw [parse_frame hlow hlen, ← hwant, if_neg (Nat.not_lt.mpr hmax), hroom,
        cut_of_lt hne (by omega) hrest]
      rfl
    · obtain ⟨hbegun, hholds⟩ := hlaw.begin c want hidle hroom
      have hn : min (want - 0) bytes.length = bytes.length := by omega
      obtain ⟨held, hextend, hholds'⟩ := hlaw.extend _ want [] bytes hholds (by
        rw [List.length_nil]
        omega)
      rw [if_neg (by simp [hbegun]), hn, List.take_length, hextend, Option.map_some, Nat.zero_add,
        if_pos (by omega)]
      have hat : At room Idle Holds _ (head ++ arrive push lowlatency bytes) :=
        .payload hlow hlen hmax hroom
        (fun hnil => hne (List.map_eq_nil_iff.mp hnil)) (by rw [length_arrive]; omega)
        (by rw [bytesOf_arrive]; exact hholds')
      rw [length_arrive] at hat
      refine ⟨_, rfl, .goOn hbytes _ hat ?_⟩
      rw [ahead_nil, List.drop_length, List.append_assoc]
      rfl

theorem advance_payload (hlaw : Lawful carry room Idle Holds) {c : C} {head held : List Arrived}
    {low : Bool} {bytes : Bytes} (hne : bytes ≠ [])
    (hlow : ∀ a ∈ head.head?, a.lowlatency = low) (hlen : head.length = prefixWidth low)
    (hmax : leValue (bytesOf head) ≤ maxFramePayload) (hroom : room (leValue (bytesOf head)) = true)
    (hheld : held ≠ []) (hpart : held.length < leValue (bytesOf head))
    (hholds : Holds c (leValue (bytesOf head)) (bytesOf held)) :
    ∃ t, turnPayload carry ⟨.payload (leValue (bytesOf head)) held.length, c⟩ bytes
        (leValue (bytesOf head)) held.length = some t ∧
      Advance room Idle Holds (fun bytes => arrive push lowlatency bytes ++ rest) (head ++ held) bytes
        t := by
  have hbytes : 0 < bytes.length := List.length_pos_iff.mpr hne
  have hheldPos : 0 < held.length := List.length_pos_iff.mpr hheld
  set want := leValue (bytesOf head) with hwant
  set n := min (want - held.length) bytes.length with hn
  have hpos : 0 < n := by omega
  have htake : (bytes.take n).length = n := by rw [List.length_take]; omega
  obtain ⟨held', hextend, hholds'⟩ := hlaw.extend c want (bytesOf held) (bytes.take n) hholds (by
    rw [length_bytesOf, htake]
    omega)
  have hsplit : head ++ held ++ (arrive push lowlatency bytes ++ rest) =
      head ++ ((held ++ arrive push lowlatency (bytes.take n)) ++
        (arrive push lowlatency (bytes.drop n) ++ rest)) := by
    rw [← arrive_take_append_drop push lowlatency bytes n]
    simp only [List.append_assoc]
  have hbody : (held ++ arrive push lowlatency (bytes.take n)).length = held.length + n := by
    rw [List.length_append, length_arrive, htake]
  rw [turnPayload, if_neg fun h => by omega]
  simp only [if_neg hheldPos.ne', Bool.true_eq_false, if_false, ← hn, hextend, Option.map_some]
  by_cases hmore : held.length + n < want
  · rw [if_pos hmore]
    have hat : At room Idle Holds _ (head ++ (held ++ arrive push lowlatency (bytes.take n))) :=
      .payload hlow hlen hmax hroom
      (by simp [hheld]) (by rw [hbody]; exact hmore)
      (by rw [bytesOf_append, bytesOf_arrive]; exact hholds')
    rw [hbody] at hat
    refine ⟨_, rfl, .goOn hpos _ hat ?_⟩
    rw [ahead_nil, hsplit]
    simp only [List.append_assoc]
  · rw [if_neg hmore]
    have hwhole : held.length + n = want := by omega
    refine ⟨_, rfl, .goOn hpos [] (.between (hlaw.release _)) ?_⟩
    have hlength : ¬ ((held ++ arrive push lowlatency (bytes.take n)) ++
        (arrive push lowlatency (bytes.drop n) ++ rest)).length < want := by
      rw [List.length_append, hbody]
      omega
    rw [hsplit, parse_frame hlow hlen, ← hwant, if_neg (Nat.not_lt.mpr hmax), hroom, Bool.not_true,
      Bool.false_and, if_neg (by simp), if_neg hlength, if_neg (by omega),
      List.take_left' (hbody.trans hwhole), List.drop_left' (hbody.trans hwhole), bytesOf_append,
      bytesOf_arrive, hlaw.bytes _ _ _ hholds', List.nil_append]
    rfl

end Turns

end WatchingZenoh.StreamWindow
