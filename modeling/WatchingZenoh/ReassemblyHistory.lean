import Mathlib.Data.List.Chain
import WatchingZenoh.ReassemblyChain

/-! The fragments a sequence of calls ingests, key by key, the runs among them that spell a message,
and how one fragment continues such a run. -/

namespace WatchingZenoh.ReassemblyHistory

open FrameEncode ReassemblySlot ReassemblyDispatch ReassemblyChain

/-- A fragment as it was ingested: on which ring, and whether the marker rules were on. -/
structure Arrival where
  frag : Fragment
  ring : SnRing
  marked : Bool
  deriving DecidableEq

def markersAfter (on : Bool) : Call → Bool
  | .setFragmentationMarkers on' => on'
  | _ => on

def arrival (on : Bool) : Call → List Arrival
  | .ingest frag ring _ _ => [⟨frag, ring, on⟩]
  | _ => []

/-- The fragments a sequence of calls ingests. -/
def arrivals (on : Bool) : List Call → List Arrival
  | [] => []
  | c :: calls => arrival on c ++ arrivals (markersAfter on c) calls

def onKey (k : ChainKey) (history : List Arrival) : List Arrival :=
  history.filter fun a => a.frag.key = k

theorem arrivals_concat (on : Bool) (calls : List Call) (c : Call) :
    arrivals on (calls ++ [c]) = arrivals on calls ++ arrival (calls.foldl markersAfter on) c := by
  induction calls generalizing on with
  | nil => simp [arrivals]
  | cons c' calls ih => simp [arrivals, ih]

theorem onKey_append (k : ChainKey) (history more : List Arrival) :
    onKey k (history ++ more) = onKey k history ++ onKey k more :=
  List.filter_append ..

/-- The second fragment is one step after the first, on the ring it came with. -/
def Consecutive (a b : Arrival) : Prop :=
  ∀ mask, b.ring = .known mask → Sn.consecutive mask a.frag.sn b.frag.sn = true

/-- With the marker rules on throughout, `First` stands at the start and no marker later. -/
def MarkedOnce (run : List Arrival) : Prop :=
  (∀ a ∈ run, a.marked = true) →
    (∀ a ∈ run.head?, a.frag.markers.first = true) ∧
      ∀ a ∈ run.tail, a.frag.markers.first = false ∧ a.frag.markers.dropped = false

/-- The bytes are the payloads of a run of consecutive fragments. -/
structure Spells (run : List Arrival) (bytes : Bytes) : Prop where
  bytes_eq : bytes = run.flatMap fun a => a.frag.payload
  consecutive : run.IsChain Consecutive
  marked : MarkedOnce run

structure OpenRun (run : List Arrival) (chain : OpenChain) : Prop extends
    Spells run chain.bytes where
  lastSn : run.getLast?.map (fun a => a.frag.sn) = some chain.lastSn
  unfinished : ∀ a ∈ run, a.frag.more ≠ 0

section Runs

variable {run : List Arrival} {bytes : Bytes} {a : Arrival}

theorem spells_single (hfirst : a.marked = true → a.frag.markers.first = true) :
    Spells [a] a.frag.payload := by
  refine ⟨by simp, .singleton a, fun hmarked => ⟨?_, by simp⟩⟩
  intro b hb
  obtain rfl : a = b := by simpa using hb
  exact hfirst (hmarked a (List.mem_singleton_self a))

theorem spells_concat (h : Spells run bytes) {last : Arrival} (hlast : run.getLast? = some last)
    (hstep : Consecutive last a)
    (hplain : a.marked = true → a.frag.markers.first = false ∧ a.frag.markers.dropped = false) :
    Spells (run ++ [a]) (bytes ++ a.frag.payload) := by
  obtain ⟨b, rest, rfl⟩ : ∃ b rest, run = b :: rest := by
    cases run with
    | nil => simp at hlast
    | cons b rest => exact ⟨b, rest, rfl⟩
  refine ⟨by simp [h.bytes_eq], ?_, fun hmarked => ?_⟩
  · refine h.consecutive.append (.singleton a) ?_
    intro x hx y hy
    obtain rfl : last = x := by simpa [hlast] using hx
    obtain rfl : a = y := by simpa using hy
    exact hstep
  · have hpast : ∀ x ∈ b :: rest, x.marked = true := fun x hx =>
      hmarked x (List.mem_append_left _ hx)
    obtain ⟨hhead, htail⟩ := h.marked hpast
    refine ⟨by simpa using hhead, ?_⟩
    intro x hx
    rcases List.mem_append.mp (show x ∈ rest ++ [a] by simpa using hx) with hx | hx
    · exact htail x hx
    · obtain rfl := List.mem_singleton.mp hx
      exact hplain (hmarked x (by simp))

end Runs

section Absorb

variable (markers : Bool) (bound deadlineMs : ℕ) (ring : SnRing) (room : Bool)
  (chain : Option OpenChain) (frag : Fragment)

/-- The payload stands behind nothing, or behind the open chain, as the marker rules and the ring
allow. -/
def Joins (bytes : Bytes) : Prop :=
  (bytes = frag.payload ∧ (chain = none → room = true) ∧
      (markers = true → frag.markers.first = true)) ∨
    ∃ old, chain = some old ∧ bytes = old.bytes ++ frag.payload ∧
      ring.admits old.lastSn frag.sn = .ok () ∧
      (markers = true → frag.markers.first = false ∧ frag.markers.dropped = false)

/-- A fragment leaves its key without a chain, or joins. -/
def Absorbed (r : Option OpenChain × Option Bytes) : Prop :=
  r = (none, none) ∨ ∃ deadlineMs bytes, bytes.length ≤ bound ∧
    Joins markers ring room chain frag bytes ∧
    r = if frag.more = 0 then (none, some bytes) else (some ⟨frag.sn, deadlineMs, bytes⟩, none)

theorem absorbed_beginChain (hfirst : markers = true → frag.markers.first = true) :
    Absorbed markers bound ring room chain frag (beginChain bound deadlineMs room frag) := by
  unfold beginChain
  by_cases hstop : (!room || decide (bound < frag.payload.length)) = true
  · exact .inl (if_pos hstop)
  · rw [if_neg hstop]
    simp only [Bool.or_eq_true, Bool.not_eq_true', decide_eq_true_eq, not_or, Bool.not_eq_false,
      Nat.not_lt] at hstop
    exact .inr ⟨deadlineMs, frag.payload, hstop.2, .inl ⟨rfl, fun _ => hstop.1, hfirst⟩, rfl⟩

theorem absorbed_extendChain (old : OpenChain)
    (hplain : markers = true → frag.markers.first = false ∧ frag.markers.dropped = false) :
    Absorbed markers bound ring room (some old) frag (extendChain bound ring old frag) := by
  unfold extendChain
  rcases hring : ring.admits old.lastSn frag.sn with reason | _
  · exact .inl rfl
  · by_cases hfits : bound < old.bytes.length + frag.payload.length
    · exact .inl (if_pos hfits)
    · refine .inr ⟨old.deadlineMs, old.bytes ++ frag.payload, ?_,
        .inr ⟨old, rfl, rfl, hring, hplain⟩, if_neg hfits⟩
      simpa using hfits

theorem absorbed_absorb :
    Absorbed markers bound ring room chain frag
      (absorb markers bound deadlineMs ring room chain frag) := by
  unfold absorb
  cases hfirst : (markers && frag.markers.first) with
  | true =>
    simp only [Bool.and_eq_true] at hfirst
    exact absorbed_beginChain _ _ _ _ _ _ _ fun _ => hfirst.2
  | false =>
    cases chain with
    | none =>
      cases markers with
      | true => exact .inl rfl
      | false => exact absorbed_beginChain _ _ _ _ _ _ _ (by simp)
    | some old =>
      by_cases hdrop : (markers && frag.markers.dropped) = true
      · exact .inl (if_pos hdrop)
      · simp only [hdrop, Bool.false_eq_true, if_false]
        refine absorbed_extendChain _ _ _ _ _ _ fun hmarkers => ?_
        simpa [hmarkers] using And.intro hfirst hdrop

end Absorb

end WatchingZenoh.ReassemblyHistory
