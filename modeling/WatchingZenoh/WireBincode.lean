import Mathlib
import WatchingZenoh.Library.LittleEndian
import WatchingZenoh.Library.Readers
import WatchingZenoh.Library.Utf8
import WatchingZenoh.Text

/-! The fixed-width wire format: little-endian words, length-prefixed strings and containers, one tag
byte for an option. Each reader reads back what its writer wrote, as long as the writing fits into
memory. -/

namespace WatchingZenoh.WireBincode

open LittleEndian Readers Readers.Program
open Std (ExtTreeMap ExtTreeSet)

def pushU64 (v : UInt64) : Bytes := toLe 8 v.toNat
def pushU32 (v : UInt32) : Bytes := toLe 4 v.toNat

/-- `len as u64`. -/
def pushLen (len : ℕ) : Bytes := pushU64 (.ofNat len)

def pushString (s : Bytes) : Bytes := pushLen s.length ++ s

def pushOption {α : Type} (push : α → Bytes) : Option α → Bytes
  | some a => 1 :: push a
  | none => [0]

/-- The items one after another, behind their number. -/
def pushAll {α : Type} (push : α → Bytes) (items : List α) : Bytes :=
  pushLen items.length ++ items.flatMap push

def pushSet (set : ExtTreeSet UInt64) : Bytes := pushAll pushU64 set.toList

def pushMap {α : Type} (push : α → Bytes) (map : ExtTreeMap UInt64 α) : Bytes :=
  pushAll (fun entry => pushU64 entry.1 ++ push entry.2) map.toList

variable {ε α γ : Type}

def readU8 : Program ε UInt8 := do
  let b ← bytes 1
  return b.headD 0

def readU32 : Program ε UInt32 := do
  let b ← bytes 4
  return .ofNat (ofLe b)

def readU64 : Program ε UInt64 := do
  let b ← bytes 8
  return .ofNat (ofLe b)

/-- `check_len`: as many entries of at least so many bytes must be there. -/
def checkLen (len : UInt64) (minEntryBytes : ℕ) (pos : 0 < minEntryBytes) : Program ε Unit :=
  claim len.toNat minEntryBytes pos (done ())

def readLenPrefixedBytes : Program ε Bytes := do
  let len ← readU64
  checkLen len 1 Nat.one_pos
  bytes len.toNat

def readAll (minEntryBytes : ℕ) (pos : 0 < minEntryBytes) (read : Program ε α) :
    Program ε (List α) := do
  let len ← readU64
  checkLen len minEntryBytes pos
  read.times len.toNat

def readSet : Program ε (ExtTreeSet UInt64) := do
  let items ← readAll 8 (by decide) readU64
  return .ofList items

def readEntry (read : Program ε α) : Program ε (UInt64 × α) := do
  let idx ← readU64
  let a ← read
  return (idx, a)

def readMap (read : Program ε α) : Program ε (ExtTreeMap UInt64 α) := do
  let entries ← readAll 16 (by decide) (readEntry read)
  return .ofList entries

@[simp] theorem length_pushU64 (v : UInt64) : (pushU64 v).length = 8 := length_toLe 8 _

@[simp] theorem length_pushU32 (v : UInt32) : (pushU32 v).length = 4 := length_toLe 4 _

@[simp] theorem length_pushLen (len : ℕ) : (pushLen len).length = 8 := length_pushU64 _

section Lengths

variable {push : γ → Bytes} {items : List γ}

theorem length_le_length_pushAll {item : γ} (h : item ∈ items) :
    (push item).length ≤ (pushAll push items).length := by
  rw [pushAll, List.length_append]
  have hsub : (push item).Sublist (items.flatMap push) := by
    rw [List.flatMap_def]
    exact List.sublist_flatten_of_mem (List.mem_map_of_mem h)
  exact hsub.length_le.trans (Nat.le_add_left _ _)

theorem mul_length_le {least : ℕ} (h : ∀ item ∈ items, least ≤ (push item).length) :
    items.length * least ≤ (items.flatMap push).length := by
  induction items with
  | nil => simp
  | cons item items ih =>
    rw [List.flatMap_cons, List.length_append, List.length_cons, Nat.succ_mul, Nat.add_comm]
    exact Nat.add_le_add (h item (by simp)) (ih fun d hd => h d (by simp [hd]))

end Lengths

variable [WireError ε]

theorem decodes_readU8 (b : UInt8) : (readU8 : Program ε UInt8).Decodes [b] b := by
  have hbyte : (bytes 1 : Program ε Bytes).Decodes [b] [b] := decodes_bytes rfl
  exact hbyte.map fun bytes => bytes.headD 0

theorem decodes_readU32 (v : UInt32) : (readU32 : Program ε UInt32).Decodes (pushU32 v) v := by
  have hvalue : UInt32.ofNat (ofLe (pushU32 v)) = v := by
    rw [pushU32, ofLe_toLe, Nat.mod_eq_of_lt (v.toNat_lt.trans_eq (by norm_num)),
      UInt32.ofNat_toNat]
  have hread := (decodes_bytes (ε := ε) (length_pushU32 v)).map fun b => UInt32.ofNat (ofLe b)
  rwa [hvalue] at hread

theorem decodes_readU64 (v : UInt64) : (readU64 : Program ε UInt64).Decodes (pushU64 v) v := by
  have hvalue : UInt64.ofNat (ofLe (pushU64 v)) = v := by
    rw [pushU64, ofLe_toLe, Nat.mod_eq_of_lt (v.toNat_lt.trans_eq (by norm_num)),
      UInt64.ofNat_toNat]
  have hread := (decodes_bytes (ε := ε) (length_pushU64 v)).map fun b => UInt64.ofNat (ofLe b)
  rwa [hvalue] at hread

theorem toNat_ofNat_length {n : ℕ} (h : n < 2 ^ 64) : (UInt64.ofNat n).toNat = n := by
  rw [UInt64.toNat_ofNat', Nat.mod_eq_of_lt h]

theorem decodes_announced {next : UInt64 → Program ε α} {encoding : Bytes} {a : α} {n least : ℕ}
    (hpos : 0 < least) (hn : n < 2 ^ 64) (hfits : n * least ≤ encoding.length)
    (h : (next (.ofNat n)).Decodes encoding a) :
    (readU64.bind fun len => (checkLen len least hpos).bind fun _ => next len).Decodes
      (pushLen n ++ encoding) a := by
  have hchecked : ((checkLen (.ofNat n) least hpos).bind fun _ => next (.ofNat n)).Decodes
      encoding a := by
    refine h.claim hpos ?_
    rwa [toNat_ofNat_length hn]
  exact (decodes_readU64 (.ofNat n)).bind hchecked

theorem decodes_readLenPrefixedBytes {s : Bytes} (h : s.length < 2 ^ 64) :
    (readLenPrefixedBytes : Program ε Bytes).Decodes (pushString s) s := by
  refine decodes_announced Nat.one_pos h (Nat.mul_one _).le (decodes_bytes ?_)
  rw [toNat_ofNat_length h]

theorem decodes_readAll {read : Program ε α} {push : γ → Bytes} {value : γ → α} {items : List γ}
    {least : ℕ} (hpos : 0 < least) (hfits : (pushAll push items).length < 2 ^ 64)
    (hleast : ∀ item ∈ items, least ≤ (push item).length)
    (h : ∀ item ∈ items, read.Decodes (push item) (value item)) :
    (readAll least hpos read).Decodes (pushAll push items) (items.map value) := by
  have hmul := mul_length_le hleast
  have hlen : items.length < 2 ^ 64 := by
    have hle := Nat.le_mul_of_pos_right items.length hpos
    rw [pushAll, List.length_append] at hfits
    omega
  refine decodes_announced hpos hlen hmul ?_
  rw [toNat_ofNat_length hlen]
  exact Decodes.times h

theorem ofList_toList_set (set : ExtTreeSet UInt64) : ExtTreeSet.ofList set.toList = set := by
  refine ExtTreeSet.ext_mem fun k => ?_
  simp [ExtTreeSet.mem_ofList, ExtTreeSet.mem_toList]

theorem ofList_toList_map (map : ExtTreeMap UInt64 α) : ExtTreeMap.ofList map.toList = map := by
  refine ExtTreeMap.ext_getElem? fun k => ?_
  rcases hk : map[k]? with _ | a
  · refine ExtTreeMap.getElem?_ofList_of_contains_eq_false ?_
    rw [List.contains_eq_mem, decide_eq_false_iff_not]
    intro hmem
    obtain ⟨⟨k', a⟩, hin, rfl⟩ := List.mem_map.mp hmem
    rw [ExtTreeMap.mem_toList_iff_getElem?_eq_some, hk] at hin
    simp at hin
  · exact ExtTreeMap.getElem?_ofList_of_mem Std.ReflCmp.compare_self
      ExtTreeMap.distinct_keys_toList (ExtTreeMap.mem_toList_iff_getElem?_eq_some.mpr hk)

theorem decodes_readSet {set : ExtTreeSet UInt64} (hfits : (pushSet set).length < 2 ^ 64) :
    (readSet : Program ε (ExtTreeSet UInt64)).Decodes (pushSet set) set := by
  have hall := decodes_readAll (ε := ε) (by decide : 0 < 8) hfits (by simp)
    (fun v _ => decodes_readU64 v)
  have hset := hall.map fun items => ExtTreeSet.ofList items
  rwa [List.map_id', ofList_toList_set] at hset

theorem decodes_readEntry {read : Program ε α} {push : α → Bytes} {entry : UInt64 × α}
    (h : read.Decodes (push entry.2) entry.2) :
    (readEntry read).Decodes (pushU64 entry.1 ++ push entry.2) entry :=
  (decodes_readU64 entry.1).bind (h.map fun a => (entry.1, a))

theorem decodes_readMap {read : Program ε α} {push : α → Bytes} {map : ExtTreeMap UInt64 α}
    (hfits : (pushMap push map).length < 2 ^ 64)
    (hleast : ∀ entry ∈ map.toList, 8 ≤ (push entry.2).length)
    (h : ∀ entry ∈ map.toList, read.Decodes (push entry.2) entry.2) :
    (readMap read).Decodes (pushMap push map) map := by
  have hentries : ∀ entry ∈ map.toList, 16 ≤ (pushU64 entry.1 ++ push entry.2).length := by
    intro entry hentry
    have := hleast entry hentry
    simp only [List.length_append, length_pushU64]
    omega
  have hall := decodes_readAll (by decide : 0 < 16) hfits hentries
    fun entry hentry => decodes_readEntry (h entry hentry)
  have hmap := hall.map fun entries => ExtTreeMap.ofList entries
  rwa [List.map_id', ofList_toList_map] at hmap

theorem length_le_length_pushMap {push : α → Bytes} {map : ExtTreeMap UInt64 α} {entry : UInt64 × α}
    (h : entry ∈ map.toList) : (push entry.2).length ≤ (pushMap push map).length := by
  have hle := @length_le_length_pushAll _ (fun entry => pushU64 entry.1 ++ push entry.2) _ _ h
  rw [List.length_append] at hle
  exact (Nat.le_add_left _ _).trans hle

end WatchingZenoh.WireBincode
