import WatchingZenoh.KeyexprPrefix

/-! `strip_inner` in terms of chunks. The cursors of the source and the place its `**` arm backs off
to are byte offsets; on texts without empty chunks they stand for suffixes of the two chunk lists,
with one exception: an `@` inside a prefix chunk cuts that chunk in two. -/

namespace WatchingZenoh.KeyexprPrefixWalk

open KeyexprPrefix

inductive Outcome where
  | strips (rest : List Chunk)
  | refuses
  | stumbles
  deriving DecidableEq

/-- What the outcome is in the source: a tail of the target, `None`, or a panic. -/
def Outcome.text : Outcome → Except StripPanic (Option Bytes)
  | .strips rest => .ok (some (Text.join rest))
  | .refuses => .ok none
  | .stumbles => .error .underflow

/-- The prefixes left when a `**` ends before the first `@`, in the order they are tried: first
from the `@` itself, then from the chunk starts before it. The start of the chunk the `@` is in is
passed over when the `@` is its second byte. -/
def cuts : List Chunk → List (List Chunk)
  | [] => []
  | c :: rest =>
    if atSign ∈ c then
      if 2 ≤ (c.takeWhile (· != atSign)).length then
        [c.dropWhile (· != atSign) :: rest, c :: rest]
      else [c.dropWhile (· != atSign) :: rest]
    else cuts rest ++ [c :: rest]

/-- The first `@` of the prefix is its second byte. -/
def secondByteAt : List Chunk → Bool
  | (a :: b :: _) :: _ => a != atSign && b == atSign
  | _ => false

def tryCuts (lay : List Chunk → Outcome) (last : Outcome) : List (List Chunk) → Outcome
  | [] => last
  | cut :: rest =>
    match lay cut with
    | .refuses => tryCuts lay last rest
    | outcome => outcome

/-- The target laid over the prefix chunk by chunk. -/
def lay : List Chunk → List Chunk → Outcome
  | t :: target, p :: pre =>
    if t = doubleStar then
      if ∀ c ∈ p :: pre, atSign ∉ c then .strips (t :: target)
      else if target = [] then .refuses
      else tryCuts (lay target) (if secondByteAt (p :: pre) then .stumbles else .refuses)
        (cuts (p :: pre))
    else if target = [] then .refuses
    else if !isChunkMatching t p then .refuses
    else if pre = [] then .strips target
    else lay target pre
  | _, _ => .refuses

def Solid (cs : List Chunk) : Prop := ∀ c ∈ cs, c ≠ [] ∧ slash ∉ c

theorem Solid.tail {c : Chunk} {cs : List Chunk} (h : Solid (c :: cs)) : Solid cs :=
  fun d hd => h d (by simp [hd])

def lead (cs : List Chunk) : Bytes := cs.flatMap (· ++ [slash])

theorem lead_append_singleton (cs : List Chunk) (c : Chunk) :
    lead (cs ++ [c]) = lead cs ++ (c ++ [slash]) := by
  simp [lead]

theorem join_append_lead (cs : List Chunk) {ds : List Chunk} (h : ds ≠ []) :
    Text.join (cs ++ ds) = lead cs ++ Text.join ds := by
  induction cs with
  | nil => rfl
  | cons c cs ih =>
    rw [List.cons_append, Text.join_cons (by simp [h]), ih]
    simp [lead]

theorem join_eq_nil_iff {cs : List Chunk} (h : Solid cs) : Text.join cs = [] ↔ cs = [] := by
  constructor
  · intro hj
    rcases cs with _ | ⟨c, _ | ⟨d, cs⟩⟩
    · rfl
    · exact absurd (by simpa using hj) (h c (by simp)).1
    · rw [Text.join_cons (by simp)] at hj
      simp at hj
  · rintro rfl
    rfl

theorem findIdx_slash {c : Chunk} (hc : slash ∉ c) (rest : Bytes) :
    (c ++ slash :: rest).findIdx (· == slash) = c.length := by
  induction c with
  | nil => simp [List.findIdx_cons]
  | cons a c ih =>
    have ha : (a == slash) = false := by simpa using fun h => hc (by simp [h])
    rw [List.cons_append, List.findIdx_cons, ha, ih fun h => hc (by simp [h])]
    rfl

theorem chunkEnd_join {front : Bytes} {c : Chunk} {cs : List Chunk} (hc : slash ∉ c) :
    chunkEnd (front ++ Text.join (c :: cs)) front.length = front.length + c.length := by
  unfold chunkEnd
  rw [List.drop_left]
  rcases cs with _ | ⟨d, cs⟩
  · rw [Text.join_singleton, List.findIdx_eq_length.mpr]
    intro b hb
    have hne : b ≠ slash := fun h => hc (by rwa [← h])
    simpa using hne
  · rw [Text.join_cons (by simp), findIdx_slash hc]

section WalkBack

theorem lead_cases (cs : List Chunk) : lead cs = [] ∨ ∃ front, lead cs = front ++ [slash] := by
  rcases List.eq_nil_or_concat cs with rfl | ⟨ds, d, rfl⟩
  · exact .inl rfl
  · refine .inr ⟨lead ds ++ d, ?_⟩
    rw [List.concat_eq_append, lead_append_singleton, List.append_assoc]

theorem walkBack_lead (cs : List Chunk) {chunk : Bytes} (hc : slash ∉ chunk) (rest : Bytes) {j : ℕ}
    (hj : j ≤ chunk.length) :
    walkBack (lead cs ++ (chunk ++ rest)) ((lead cs).length + j) = .ok (lead cs).length := by
  induction j with
  | zero =>
    rcases lead_cases cs with h | ⟨front, h⟩
    · simp [h, walkBack]
    · have hlast : (lead cs ++ (chunk ++ rest))[front.length]? = some slash := by simp [h]
      rw [Nat.add_zero, show (lead cs).length = front.length + 1 by simp [h], walkBack, hlast]
      simp
  | succ j ih =>
    have hget : (lead cs ++ (chunk ++ rest))[(lead cs).length + j]? = chunk[j]? := by
      rw [List.getElem?_append_right (by omega), List.getElem?_append_left (by omega)]
      congr 1
      omega
    obtain ⟨b, hb⟩ : ∃ b, chunk[j]? = some b := ⟨chunk[j], by simp [show j < chunk.length by omega]⟩
    have hne : b ≠ slash := fun h => hc (h ▸ List.mem_of_getElem? hb)
    rw [← Nat.add_assoc, walkBack, hget, hb]
    simp only [hne, if_false]
    exact ih (by omega)

end WalkBack

section BackOff

/-- The chunk lists that start in `front`, from its last chunk to its first. -/
def backs : List Chunk → List Chunk → List (List Chunk)
  | [], _ => []
  | c :: front, back => backs front back ++ [c :: (front ++ back)]

theorem backs_concat (front : List Chunk) (d : Chunk) (back : List Chunk) :
    backs (front ++ [d]) back = (d :: back) :: backs front (d :: back) := by
  induction front with
  | nil => rfl
  | cons c front ih =>
    rw [List.cons_append, backs, ih, backs]
    simp

theorem cuts_append {front : List Chunk} (hfront : ∀ c ∈ front, atSign ∉ c) (back : List Chunk) :
    cuts (front ++ back) = cuts back ++ backs front back := by
  induction front with
  | nil => simp [backs]
  | cons c front ih =>
    rw [List.cons_append, cuts, if_neg (hfront c (by simp)), backs,
      ih fun d hd => hfront d (by simp [hd]), List.append_assoc]

variable {strip : Bytes → Except StripPanic (Option Bytes)} {layRest : List Chunk → Outcome}

/-- What the loop does once the prefix at `p` has been refused. -/
def retreat (strip : Bytes → Except StripPanic (Option Bytes)) (remaining : Bytes) (p : ℕ) :
    Except StripPanic (Option Bytes) :=
  if p = 0 then .ok none
  else if p < 2 then .error .underflow
  else match walkBack remaining (p - 2) with
    | .error e => .error e
    | .ok q => backOff strip remaining q

theorem backOff_step {remaining : Bytes} {p : ℕ} (hp : p ≤ remaining.length) {cut : List Chunk}
    (hstrip : strip (remaining.drop p) = (layRest cut).text) {last : Outcome}
    {rest : List (List Chunk)}
    (hnext : retreat strip remaining p = (tryCuts layRest last rest).text) :
    backOff strip remaining p = (tryCuts layRest last (cut :: rest)).text := by
  rw [backOff, if_pos hp, hstrip, tryCuts]
  rcases layRest cut with tail | _ | _
  · rfl
  · rw [← hnext, retreat]
    split_ifs
    · simp [Outcome.text, *]
    · simp [Outcome.text, *]
    · simp only [Outcome.text, *]
      split <;> simp_all
  · rfl

theorem retreat_concat {front : List Chunk} {d rest : Bytes} (hd : slash ∉ d) {p : ℕ} (hp : 2 ≤ p)
    (hle : (lead front).length ≤ p - 2) (hge : p - 2 ≤ (lead front).length + d.length) :
    retreat strip (lead front ++ (d ++ rest)) p =
      backOff strip (lead front ++ (d ++ rest)) (lead front).length := by
  have hwalk := walkBack_lead front hd rest
    (show p - 2 - (lead front).length ≤ d.length by omega)
  rw [Nat.add_sub_cancel' hle] at hwalk
  rw [retreat, if_neg (by omega), if_neg (by omega), hwalk]

theorem backOff_lead
    (hlay : ∀ cut, cut ≠ [] → Solid cut → strip (Text.join cut) = (layRest cut).text)
    (front : List Chunk) {back : List Chunk} (hback : back ≠ []) (hsolid : Solid (front ++ back)) :
    backOff strip (Text.join (front ++ back)) (lead front).length =
      (tryCuts layRest .refuses (back :: backs front back)).text := by
  induction front using List.reverseRecOn generalizing back with
  | nil =>
    refine backOff_step (by simp [lead]) ?_ (by rfl)
    simpa [lead] using hlay back hback (by simpa using hsolid)
  | append_singleton front d ih =>
    have hd := hsolid d (by simp)
    have hpos := List.length_pos_of_ne_nil hd.1
    have hjoin : Text.join (front ++ [d] ++ back) =
        lead front ++ (d ++ slash :: Text.join back) := by
      rw [join_append_lead _ hback, lead_append_singleton]
      simp
    have hlen : (lead (front ++ [d])).length = (lead front).length + d.length + 1 := by
      rw [lead_append_singleton]
      simp
      omega
    have hdrop : (Text.join (front ++ [d] ++ back)).drop (lead (front ++ [d])).length =
        Text.join back := by
      rw [join_append_lead _ hback, List.drop_left]
    refine backOff_step ?_ ?_ ?_
    · rw [join_append_lead _ hback]
      simp
    · rw [hdrop]
      exact hlay back hback fun c hc => hsolid c (by simp [hc])
    · rw [hjoin, hlen, retreat_concat hd.2 (by omega) (by omega) (by omega), backs_concat]
      have hnext := ih (List.cons_ne_nil d back) (by simpa using hsolid)
      rw [join_append_lead _ (by simp), Text.join_cons hback] at hnext
      exact hnext

theorem takeWhile_append_dropWhile_at {c : Chunk} (h : atSign ∈ c) :
    ∃ u w, c = u ++ atSign :: w ∧ atSign ∉ u ∧ c.takeWhile (· != atSign) = u ∧
      c.dropWhile (· != atSign) = atSign :: w := by
  induction c with
  | nil => simp at h
  | cons a c ih =>
    by_cases ha : a = atSign
    · subst ha
      exact ⟨[], c, by simp⟩
    · obtain ⟨u, w, rfl, hu, htake, hdrop⟩ := ih (by simpa [Ne.symm ha] using h)
      refine ⟨a :: u, w, rfl, by simp [Ne.symm ha, hu], ?_, ?_⟩
      · simpa [ha] using htake
      · simpa [ha] using hdrop

theorem exists_first_at {cs : List Chunk} (h : ¬ ∀ c ∈ cs, atSign ∉ c) :
    ∃ front u w back, cs = front ++ (u ++ atSign :: w) :: back ∧ (∀ c ∈ front, atSign ∉ c) ∧
      atSign ∉ u ∧ cuts ((u ++ atSign :: w) :: back) =
        if 2 ≤ u.length then [(atSign :: w) :: back, (u ++ atSign :: w) :: back]
        else [(atSign :: w) :: back] := by
  induction cs with
  | nil => simp at h
  | cons c cs ih =>
    by_cases hc : atSign ∈ c
    · obtain ⟨u, w, rfl, hu, htake, hdrop⟩ := takeWhile_append_dropWhile_at hc
      exact ⟨[], u, w, cs, rfl, by simp, hu, by rw [cuts, if_pos hc, htake, hdrop]⟩
    · have hcs : ¬ ∀ d ∈ cs, atSign ∉ d := by
        intro hcs
        refine h fun d hd => ?_
        rcases List.mem_cons.mp hd with rfl | hd
        · exact hc
        · exact hcs d hd
      obtain ⟨front, u, w, back, rfl, hfront, hu, hcuts⟩ := ih hcs
      exact ⟨c :: front, u, w, back, rfl, by simpa using ⟨hc, hfront⟩, hu, hcuts⟩

theorem findIdx?_at {u w : Bytes} (hu : atSign ∉ u) :
    (u ++ atSign :: w).findIdx? (· == atSign) = some u.length := by
  induction u with
  | nil => simp [List.findIdx?_cons]
  | cons a u ih =>
    have ha : (a == atSign) = false := by simpa using fun h => hu (by simp [h])
    rw [List.cons_append, List.findIdx?_cons, ha, ih fun h => hu (by simp [h])]
    rfl

theorem at_not_mem_lead {front : List Chunk} (h : ∀ c ∈ front, atSign ∉ c) : atSign ∉ lead front := by
  simp only [lead, List.mem_flatMap, not_exists, not_and, List.mem_append, List.mem_singleton]
  intro c hc hmem
  rcases hmem with hmem | hmem
  · exact h c hc hmem
  · exact absurd hmem (by decide)

theorem join_cons_eq {c : Chunk} (front : Bytes) (back : List Chunk) :
    Text.join ((front ++ c) :: back) = front ++ Text.join (c :: back) := by
  rcases back with _ | ⟨d, back⟩
  · simp
  · rw [Text.join_cons (List.cons_ne_nil d back), Text.join_cons (List.cons_ne_nil d back),
      List.append_assoc]

theorem secondByteAt_append {front : List Chunk} (hfront : ∀ c ∈ front, atSign ∉ c) {u : Bytes}
    (hu : atSign ∉ u) (w : Bytes) (back : List Chunk) :
    secondByteAt (front ++ (u ++ atSign :: w) :: back) = true ↔ front = [] ∧ u.length = 1 := by
  rcases front with _ | ⟨c, front⟩
  · rcases u with _ | ⟨a, _ | ⟨b, u⟩⟩
    · rcases w with _ | ⟨b, w⟩ <;> simp [secondByteAt]
    · have ha : a ≠ atSign := fun h => hu (by simp [h])
      simp [secondByteAt, ha]
    · have hb : b ≠ atSign := fun h => hu (by simp [h])
      simp [secondByteAt, hb]
  · have hc := hfront c (by simp)
    rcases c with _ | ⟨a, _ | ⟨b, c⟩⟩
    · simp [secondByteAt]
    · simp [secondByteAt]
    · have hb : b ≠ atSign := fun h => hc (by simp [h])
      simp [secondByteAt, hb]

/-- Going back from an `@` inside a chunk: to the start of the chunk if the `@` is its third byte or
a later one, else past it to the chunk before, which need not exist. -/
theorem retreat_inner
    (hlay : ∀ cut, cut ≠ [] → Solid cut → strip (Text.join cut) = (layRest cut).text)
    {front : List Chunk} {u w : Bytes} {back : List Chunk} (hfront : ∀ c ∈ front, atSign ∉ c)
    (hu : atSign ∉ u) (hu0 : u ≠ []) (hsolid : Solid (front ++ (u ++ atSign :: w) :: back)) :
    retreat strip (Text.join (front ++ (u ++ atSign :: w) :: back)) (lead front ++ u).length =
      (tryCuts layRest (if secondByteAt (front ++ (u ++ atSign :: w) :: back) then .stumbles
        else .refuses) ((if 2 ≤ u.length then [(u ++ atSign :: w) :: back] else []) ++
          backs front ((u ++ atSign :: w) :: back))).text := by
  have hx := hsolid (u ++ atSign :: w) (by simp)
  have hsecond := secondByteAt_append hfront hu w back
  have hpos := List.length_pos_of_ne_nil hu0
  by_cases hu2 : 2 ≤ u.length
  · rw [if_neg (by rw [hsecond]; omega), if_pos hu2]
    have hjoin : Text.join (front ++ (u ++ atSign :: w) :: back) =
        lead front ++ ((u ++ atSign :: w) ++ (Text.join ([] :: back))) := by
      have hhead := @join_cons_eq [] (u ++ atSign :: w) back
      rw [List.append_nil] at hhead
      rw [join_append_lead _ (by simp), hhead]
    rw [hjoin, retreat_concat hx.2 (by simp; omega) (by simp; omega) (by simp; omega), ← hjoin]
    exact backOff_lead hlay front (List.cons_ne_nil _ _) hsolid
  rw [if_neg hu2, List.nil_append]
  have hu1 : u.length = 1 := by omega
  rcases List.eq_nil_or_concat front with rfl | ⟨front, d, rfl⟩
  · rw [if_pos (hsecond.mpr ⟨rfl, hu1⟩)]
    simp [retreat, lead, hu1, backs, tryCuts, Outcome.text]
  · rw [List.concat_eq_append] at hsecond hsolid ⊢
    have hd := hsolid d (by simp)
    have hjoin : Text.join (front ++ [d] ++ (u ++ atSign :: w) :: back) =
        lead front ++ (d ++ slash :: Text.join ((u ++ atSign :: w) :: back)) := by
      rw [join_append_lead _ (by simp), lead_append_singleton]
      simp
    rw [if_neg (by rw [hsecond]; simp), hjoin, retreat_concat hd.2, backs_concat]
    · have hnext := backOff_lead hlay front (List.cons_ne_nil d ((u ++ atSign :: w) :: back))
        (by simpa using hsolid)
      rw [join_append_lead _ (by simp), Text.join_cons (by simp)] at hnext
      exact hnext
    all_goals
      rw [lead_append_singleton]
      simp only [List.length_append, List.length_cons, List.length_nil, hu1]
      omega

theorem backOff_cuts
    (hlay : ∀ cut, cut ≠ [] → Solid cut → strip (Text.join cut) = (layRest cut).text)
    {cs : List Chunk} (hsolid : Solid cs) (hat : ¬ ∀ c ∈ cs, atSign ∉ c) :
    ∃ p, (Text.join cs).findIdx? (· == atSign) = some p ∧
      backOff strip (Text.join cs) p =
        (tryCuts layRest (if secondByteAt cs then .stumbles else .refuses) (cuts cs)).text := by
  obtain ⟨front, u, w, back, rfl, hfront, hu, hcuts⟩ := exists_first_at hat
  have hx := hsolid (u ++ atSign :: w) (by simp)
  have hjoin : Text.join (front ++ (u ++ atSign :: w) :: back) =
      (lead front ++ u) ++ Text.join ((atSign :: w) :: back) := by
    rw [join_append_lead _ (by simp), join_cons_eq, List.append_assoc]
  have hopen : Text.join ((atSign :: w) :: back) = atSign :: Text.join (w :: back) :=
    join_cons_eq [atSign] back
  have hcut : Solid ((atSign :: w) :: back) := by
    intro c hc
    rcases List.mem_cons.mp hc with rfl | hc
    · exact ⟨by simp, fun h => hx.2 (by simp at h ⊢; tauto)⟩
    · exact hsolid c (by simp [hc])
  have hsecond := secondByteAt_append hfront hu w back
  refine ⟨(lead front ++ u).length, ?_, ?_⟩
  · rw [hjoin, hopen, findIdx?_at]
    exact fun h => (List.mem_append.mp h).elim (at_not_mem_lead hfront) hu
  rw [cuts_append hfront, hcuts]
  by_cases hu0 : u = []
  · subst hu0
    rw [if_neg (by simpa using hsecond)]
    simpa using backOff_lead hlay front (List.cons_ne_nil _ _) hsolid
  have hlen := List.length_pos_of_ne_nil hu0
  have hretreat := retreat_inner hlay hfront hu hu0 hsolid
  have hfirst := backOff_step (by rw [hjoin]; simp) (by
    rw [hjoin, List.drop_left]
    exact hlay _ (by simp) hcut) hretreat
  rw [hfirst]
  split_ifs <;> rfl

end BackOff

end WatchingZenoh.KeyexprPrefixWalk
