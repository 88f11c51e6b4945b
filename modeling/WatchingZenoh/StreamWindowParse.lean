import WatchingZenoh.StreamWindow

/-! The length-prefixed parse of a stream: the payloads of its frames in order, and where it breaks
off. A frame that no carry has room for breaks it off as well, once its payload does not lie whole in
one push. -/

namespace WatchingZenoh.StreamWindow

/-- A byte as it arrived: whether the link was a low-latency one, and with which push. -/
structure Arrived where
  byte : UInt8
  lowlatency : Bool
  push : ℕ
  deriving DecidableEq

inductive Ending
  | boundary
  | inPrefix
  | inPayload
  | oversize (named : ℕ)
  | cramped (named : ℕ)
  deriving DecidableEq, Repr

def Ending.error : Ending → Option WindowError
  | oversize named => some (.oversizeBatch named)
  | cramped named => some (.carryTooSmall named)
  | _ => none

/-- The payload that starts here has begun to arrive, and does not lie whole in one push. -/
def cut (want : ℕ) (body : List Arrived) : Bool :=
  (body.take want).head?.any fun first =>
    decide (body.length < want) || (body.take want).any fun a => a.push != first.push

def bytesOf (l : List Arrived) : Bytes := l.map Arrived.byte

theorem two_le_prefixWidth (lowlatency : Bool) : 2 ≤ prefixWidth lowlatency := by
  cases lowlatency <;> decide

/-- The payloads that are not empty, and where the stream breaks off. The width of a prefix is that of
its first byte. -/
def parse (room : ℕ → Bool) (l : List Arrived) : List Bytes × Ending :=
  match l with
  | [] => ([], .boundary)
  | first :: rest =>
    let width := prefixWidth first.lowlatency
    if (first :: rest).length < width then ([], .inPrefix)
    else
      let want := leValue (bytesOf ((first :: rest).take width))
      let body := (first :: rest).drop width
      if maxFramePayload < want then ([], .oversize want)
      else if !room want && cut want body then ([], .cramped want)
      else if body.length < want then ([], .inPayload)
      else
        let behind := parse room (body.drop want)
        ((if want = 0 then [] else [bytesOf (body.take want)]) ++ behind.1, behind.2)
  termination_by l.length
  decreasing_by
    have := two_le_prefixWidth first.lowlatency
    simp only [List.length_drop, List.length_cons]
    omega

variable {room : ℕ → Bool}

theorem parse_nil : parse room [] = ([], .boundary) := by rw [parse]

theorem parse_short {head : List Arrived} {lowlatency : Bool} (hne : head ≠ [])
    (hlow : ∀ a ∈ head.head?, a.lowlatency = lowlatency) (hlen : head.length < prefixWidth lowlatency) :
    parse room head = ([], .inPrefix) := by
  cases head with
  | nil => exact absurd rfl hne
  | cons first rest =>
    have hfirst : first.lowlatency = lowlatency := hlow first (by simp)
    rw [parse]
    simp only
    rw [hfirst, if_pos hlen]

theorem parse_frame {head body : List Arrived} {lowlatency : Bool}
    (hlow : ∀ a ∈ head.head?, a.lowlatency = lowlatency)
    (hlen : head.length = prefixWidth lowlatency) :
    parse room (head ++ body) =
      if maxFramePayload < leValue (bytesOf head) then ([], .oversize (leValue (bytesOf head)))
      else if !room (leValue (bytesOf head)) && cut (leValue (bytesOf head)) body then
        ([], .cramped (leValue (bytesOf head)))
      else if body.length < leValue (bytesOf head) then ([], .inPayload)
      else
        ((if leValue (bytesOf head) = 0 then []
          else [bytesOf (body.take (leValue (bytesOf head)))]) ++
          (parse room (body.drop (leValue (bytesOf head)))).1,
          (parse room (body.drop (leValue (bytesOf head)))).2) := by
  have hpos := two_le_prefixWidth lowlatency
  cases head with
  | nil =>
    rw [List.length_nil] at hlen
    omega
  | cons first rest =>
    have hfirst : first.lowlatency = lowlatency := hlow first (by simp)
    have htake : (first :: (rest ++ body)).take (prefixWidth lowlatency) = first :: rest := by
      rw [← List.cons_append, ← hlen, List.take_left]
    have hdrop : (first :: (rest ++ body)).drop (prefixWidth lowlatency) = body := by
      rw [← List.cons_append, ← hlen, List.drop_left]
    have hwhole : ¬ (first :: (rest ++ body)).length < prefixWidth lowlatency := by
      rw [← hlen, ← List.cons_append, List.length_append]
      omega
    rw [List.cons_append, parse]
    simp only [hfirst, htake, hdrop, if_neg hwhole]

/-- The same bytes as they would arrive in one push. -/
def atOnce (l : List Arrived) : List Arrived := l.map fun a => { a with push := 0 }

theorem bytesOf_atOnce (l : List Arrived) : bytesOf (atOnce l) = bytesOf l := by
  rw [bytesOf, atOnce, List.map_map]
  rfl

theorem parse_atOnce (l : List Arrived) :
    parse (fun _ => true) (atOnce l) = parse (fun _ => true) l := by
  induction hn : l.length using Nat.strong_induction_on generalizing l with
  | _ n ih =>
    cases l with
    | nil => rfl
    | cons first rest =>
      have hpos := two_le_prefixWidth first.lowlatency
      rcases Nat.lt_or_ge (first :: rest).length (prefixWidth first.lowlatency) with hshort | hwhole
      · have honce : parse (fun _ => true) (atOnce (first :: rest)) = ([], .inPrefix) := by
          refine parse_short (by simp [atOnce]) (fun a ha => ?_)
            (by rw [atOnce, List.length_map]; exact hshort)
          simp only [atOnce, List.map_cons, List.head?_cons, Option.mem_some_iff] at ha
          rw [← ha]
        rw [parse_short (by simp) (by simp) hshort, honce]
      · have hsplit := List.take_append_drop (prefixWidth first.lowlatency) (first :: rest)
        generalize hhead : (first :: rest).take (prefixWidth first.lowlatency) = head at hsplit
        generalize hbody : (first :: rest).drop (prefixWidth first.lowlatency) = body at hsplit
        have hlen : head.length = prefixWidth first.lowlatency := by
          rw [← hhead, List.length_take]
          omega
        have hlow : ∀ a ∈ head.head?, a.lowlatency = first.lowlatency := by
          rw [← hhead, List.head?_take, if_neg (by omega)]
          simp
        have hbodyLen : body.length < n := by
          rw [← hbody, List.length_drop]
          simp only [List.length_cons] at hn hwhole ⊢
          omega
        have hmap : atOnce (head ++ body) = atOnce head ++ atOnce body := List.map_append
        have hlowOnce : ∀ a ∈ (atOnce head).head?, a.lowlatency = first.lowlatency := by
          rw [atOnce, List.head?_map]
          simpa using hlow
        have hlenOnce : (atOnce head).length = prefixWidth first.lowlatency := by
          rw [atOnce, List.length_map, hlen]
        rw [← hsplit, hmap, parse_frame hlow hlen, parse_frame hlowOnce hlenOnce]
        have hrest := ih _ (by rw [List.length_drop]; omega)
          (body.drop (leValue (bytesOf head))) rfl
        have hdrop : (atOnce body).drop (leValue (bytesOf head)) =
            atOnce (body.drop (leValue (bytesOf head))) := (List.map_drop ..).symm
        have htake : (atOnce body).take (leValue (bytesOf head)) =
            atOnce (body.take (leValue (bytesOf head))) := (List.map_take ..).symm
        have hlength : (atOnce body).length = body.length := List.length_map ..
        simp only [bytesOf_atOnce, hdrop, htake, hlength, hrest, Bool.not_true, Bool.false_and,
          Bool.false_eq_true, if_false]

end WatchingZenoh.StreamWindow
