import WatchingZenoh.StorageHeld

/-! Puts and deletes without wildcards make a memory storage a convergent map: the newest update of each
key wins, in whatever order and however often the updates arrive. -/

namespace WatchingZenoh.StorageConverge

open Timestamp Backend StorageReplication StorageReplica StorageHeld Newest
open Std (ExtTreeMap)

inductive Update where
  | put (key : Option Bytes) (payload : Bytes) (encoding : Option EncodingHint)
      (timestamp : TimestampHint)
  | delete (key : Option Bytes) (timestamp : TimestampHint)
  deriving DecidableEq, Repr

namespace Update

def key : Update → Option Bytes
  | put key _ _ _ => key
  | delete key _ => key

def timestamp : Update → TimestampHint
  | put _ _ _ timestamp => timestamp
  | delete _ timestamp => timestamp

def held : Update → Held
  | put _ payload encoding timestamp => heldOf .put timestamp payload encoding
  | delete _ timestamp => heldOf .del timestamp [] none

end Update

variable [FingerprintHash]

def apply (s : Memory) : Update → Memory × StorageWriteResult
  | .put key payload encoding timestamp => s.processPut key payload encoding timestamp
  | .delete key timestamp => s.processDelete key timestamp

def applyAll (s : Memory) (updates : List Update) : Memory :=
  updates.foldl (fun s u => (apply s u).1) s

theorem coherent_apply {s : Memory} (h : Coherent s) (u : Update) : Coherent (apply s u).1 := by
  cases u with
  | put key payload encoding timestamp =>
    exact coherent_process key .put timestamp payload encoding h
  | delete key timestamp => exact coherent_process key .del timestamp [] none h

theorem held_apply {s : Memory} (h : Coherent s) (u : Update) (key : Option Bytes) :
    held (apply s u).1 key =
      if u.key = key then offer heldStamp (held s key) u.held else held s key := by
  have hoffer : held (apply s u).1 key =
      if u.key = key then offer heldStamp (held s u.key) u.held else held s key := by
    cases u with
    | put key' payload encoding timestamp =>
      exact held_process key' .put timestamp payload encoding h key
    | delete key' timestamp => exact held_process key' .del timestamp [] none h key
  rw [hoffer]
  split_ifs with hkey
  · rw [hkey]
  · rfl

theorem coherent_applyAll {s : Memory} (h : Coherent s) (updates : List Update) :
    Coherent (applyAll s updates) := by
  induction updates generalizing s with
  | nil => exact h
  | cons u updates ih => exact ih (coherent_apply h u)

theorem held_applyAll {s : Memory} (h : Coherent s) (updates : List Update) (key : Option Bytes) :
    held (applyAll s updates) key =
      offerAll heldStamp (held s key) ((updates.filter (·.key = key)).map Update.held) := by
  induction updates generalizing s with
  | nil => rfl
  | cons u updates ih =>
    refine (ih (coherent_apply h u)).trans ?_
    rw [held_apply h]
    by_cases hkey : u.key = key
    · simp [hkey, offerAll]
    · simp [hkey]

end WatchingZenoh.StorageConverge
