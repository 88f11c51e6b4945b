import Mathlib
import WatchingZenoh.SubscriberState

/-! One source of an advanced subscriber: what is delivered and reported of it. A list of these acts
follows a last number if every delivery is of a later one; unless jumps are to be silent, it is of the
next one or comes after a report of just the samples in between. -/

namespace WatchingZenoh.Subscriber

variable {α : Type}

inductive Act
  | deliver (sn : UInt32)
  | miss (nb : UInt32)
  deriving DecidableEq

def actOn (key : Key) : Event α → Option Act
  | .sample sample =>
    sample.sequenced.bind fun (source, sn) => if source.key = key then some (.deliver sn) else none
  | .miss miss => if miss.source.key = key then some (.miss miss.nb) else none

def actsOn (key : Key) (events : List (Event α)) : List Act := events.filterMap (actOn key)

def Act.delivered? : Act → Option UInt32
  | .deliver sn => some sn
  | .miss _ => none

def delivers (acts : List Act) : List UInt32 := acts.filterMap Act.delivered?

@[simp] theorem actsOn_nil (key : Key) : actsOn key ([] : List (Event α)) = [] := rfl

theorem actsOn_append (key : Key) (xs ys : List (Event α)) :
    actsOn key (xs ++ ys) = actsOn key xs ++ actsOn key ys := List.filterMap_append

@[simp] theorem delivers_nil : delivers [] = [] := rfl

@[simp] theorem delivers_deliver (sn : UInt32) (acts : List Act) :
    delivers (.deliver sn :: acts) = sn :: delivers acts := rfl

@[simp] theorem delivers_miss (nb : UInt32) (acts : List Act) :
    delivers (.miss nb :: acts) = delivers acts := rfl

@[simp] theorem delivers_append (xs ys : List Act) :
    delivers (xs ++ ys) = delivers xs ++ delivers ys := List.filterMap_append

def Admits (silent : Bool) (last : Option UInt32) (sn : UInt32) : Prop :=
  ∀ l, last = some l → sn.toNat = l.toNat + 1 ∨ (silent = true ∧ l < sn)

/-- Acts after a last number, and the last number after them. -/
inductive Follows (silent : Bool) : Option UInt32 → List Act → Option UInt32 → Prop
  | nil (last : Option UInt32) : Follows silent last [] last
  | deliver {last last' : Option UInt32} {sn : UInt32} {acts : List Act} :
    Admits silent last sn → Follows silent (some sn) acts last' →
      Follows silent last (.deliver sn :: acts) last'
  | missed {last sn nb : UInt32} {last' : Option UInt32} {acts : List Act} :
    0 < nb.toNat → sn.toNat = last.toNat + nb.toNat + 1 → Follows silent (some sn) acts last' →
      Follows silent (some last) (.miss nb :: .deliver sn :: acts) last'

namespace Follows

variable {silent : Bool} {a b c : Option UInt32} {xs ys acts : List Act}

theorem append (h : Follows silent a xs b) (h' : Follows silent b ys c) :
    Follows silent a (xs ++ ys) c := by
  induction h with
  | nil => exact h'
  | deliver hadmits _ ih => exact .deliver hadmits (ih h')
  | missed hpos hnb _ ih => exact .missed hpos hnb (ih h')

theorem rises (h : Follows silent a acts b) :
    (delivers acts).Pairwise (· < ·) ∧ ∀ sn ∈ delivers acts, ∀ l, a = some l → l < sn := by
  induction h with
  | nil => simp
  | @deliver last last' sn acts hadmits _ ih =>
    have hlt : ∀ l, last = some l → l < sn := by
      intro l hl
      rcases hadmits l hl with h | h
      · exact UInt32.lt_iff_toNat_lt.mpr (by omega)
      · exact h.2
    refine ⟨?_, fun x hx l hl => ?_⟩
    · exact List.pairwise_cons.mpr ⟨fun x hx => ih.2 x hx sn rfl, ih.1⟩
    · rcases List.mem_cons.mp hx with rfl | hx
      · exact hlt l hl
      · exact UInt32.lt_trans (hlt l hl) (ih.2 x hx sn rfl)
  | @missed last sn nb last' acts _ hnb _ ih =>
    have hlt : last < sn := UInt32.lt_iff_toNat_lt.mpr (by omega)
    refine ⟨?_, fun x hx l hl => ?_⟩
    · exact List.pairwise_cons.mpr ⟨fun x hx => ih.2 x hx sn rfl, ih.1⟩
    · cases hl
      rcases List.mem_cons.mp hx with rfl | hx
      · exact hlt
      · exact UInt32.lt_trans hlt (ih.2 x hx sn rfl)

theorem last_eq (h : Follows silent a acts b) : b = (delivers acts).getLast?.or a := by
  induction h with
  | nil => rfl
  | deliver _ _ ih => rw [delivers_deliver, List.getLast?_cons, ih]; cases (delivers _).getLast? <;> rfl
  | missed _ _ _ ih =>
    rw [delivers_miss, delivers_deliver, List.getLast?_cons, ih]
    cases (delivers _).getLast? <;> rfl

end Follows

end WatchingZenoh.Subscriber
