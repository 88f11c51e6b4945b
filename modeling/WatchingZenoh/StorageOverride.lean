import WatchingZenoh.StorageHeld

/-! The wildcard override of an update to one key. Which registered update overrides it is read off two
loops over the registries; laid over a key, an update is an offer to its register under the timestamp
of its override. -/

namespace WatchingZenoh.StorageOverride

open Timestamp Backend StorageReplication StorageAligner StorageReplica StorageCalls StorageHeld
open Newest
open Std (ExtTreeMap)

abbrev orderOf (wu : WildcardUpdate) : ℕ ×ₗ List ℕ := timestampOrderKey wu.data.timestamp

section Phases

variable {registry : ExtTreeMap Bytes WildcardUpdate} {fullKey : Bytes} {incoming : TimestampHint}

/-- A registered update that covers the key. -/
def Covering (registry : ExtTreeMap Bytes WildcardUpdate) (fullKey : Bytes) (wu : WildcardUpdate) :
    Prop :=
  ∃ ke, registry[ke]? = some wu ∧ StorageState.overlays ke fullKey = true

theorem covering_iff {wu : WildcardUpdate} :
    Covering registry fullKey wu ↔
      ∃ entry ∈ registry.toList, StorageState.overlays entry.1 fullKey = true ∧ entry.2 = wu := by
  constructor
  · rintro ⟨ke, hke, hover⟩
    exact ⟨(ke, wu), ExtTreeMap.mem_toList_iff_getElem?_eq_some.mpr hke, hover, rfl⟩
  · rintro ⟨⟨ke, wu⟩, hentry, hover, rfl⟩
    exact ⟨ke, ExtTreeMap.mem_toList_iff_getElem?_eq_some.mp hentry, hover⟩

def lowestTurn (fullKey : Bytes) (incoming : TimestampHint) (lowest : Option WildcardUpdate)
    (entry : Bytes × WildcardUpdate) : Option WildcardUpdate :=
  if StorageState.overlays entry.1 fullKey &&
      !timestampStrictlyNewer incoming entry.2.data.timestamp then
    match lowest with
    | none => some entry.2
    | some cur =>
      if timestampStrictlyNewer cur.data.timestamp entry.2.data.timestamp then some entry.2
      else some cur
  else lowest

/-- What the loop may have found among the entries it has seen. -/
def Lowest (fullKey : Bytes) (incoming : TimestampHint) (seen : List (Bytes × WildcardUpdate))
    (found : Option WildcardUpdate) : Prop :=
  match found with
  | none => ∀ entry ∈ seen, StorageState.overlays entry.1 fullKey = true →
      orderOf entry.2 < timestampOrderKey incoming
  | some lowest =>
    (∃ entry ∈ seen, StorageState.overlays entry.1 fullKey = true ∧ entry.2 = lowest) ∧
      timestampOrderKey incoming ≤ orderOf lowest ∧
      ∀ entry ∈ seen, StorageState.overlays entry.1 fullKey = true →
        timestampOrderKey incoming ≤ orderOf entry.2 → orderOf lowest ≤ orderOf entry.2

theorem Lowest.turn {seen : List (Bytes × WildcardUpdate)} {found : Option WildcardUpdate}
    (h : Lowest fullKey incoming seen found) (entry : Bytes × WildcardUpdate) :
    Lowest fullKey incoming (seen ++ [entry]) (lowestTurn fullKey incoming found entry) := by
  by_cases hcovers : StorageState.overlays entry.1 fullKey = true ∧
      timestampOrderKey incoming ≤ orderOf entry.2
  · obtain ⟨hover, hle⟩ := hcovers
    have hnew : timestampStrictlyNewer incoming entry.2.data.timestamp = false :=
      timestampStrictlyNewer_eq_false.mpr hle
    rcases found with _ | cur
    · have hturn : lowestTurn fullKey incoming none entry = some entry.2 := by
        simp [lowestTurn, hover, hnew]
      rw [hturn]
      refine ⟨⟨entry, by simp, hover, rfl⟩, hle, fun e he hcov hge => ?_⟩
      rcases List.mem_append.mp he with he | he
      · exact absurd hge (h e he hcov).not_ge
      · rw [List.mem_singleton.mp he]
    · obtain ⟨⟨e₀, he₀, hover₀, hcur⟩, hge₀, hlow⟩ := h
      by_cases hlt : orderOf entry.2 < orderOf cur
      · have hturn : lowestTurn fullKey incoming (some cur) entry = some entry.2 := by
          simp [lowestTurn, hover, hnew, timestampStrictlyNewer_eq_true.mpr hlt]
        rw [hturn]
        refine ⟨⟨entry, by simp, hover, rfl⟩, hle, fun e he hcov hge => ?_⟩
        rcases List.mem_append.mp he with he | he
        · exact hlt.le.trans (hlow e he hcov hge)
        · rw [List.mem_singleton.mp he]
      · have hturn : lowestTurn fullKey incoming (some cur) entry = some cur := by
          simp [lowestTurn, hover, hnew, timestampStrictlyNewer_eq_false.mpr (not_lt.mp hlt)]
        rw [hturn]
        refine ⟨⟨e₀, by simp [he₀], hover₀, hcur⟩, hge₀, fun e he hcov hge => ?_⟩
        rcases List.mem_append.mp he with he | he
        · exact hlow e he hcov hge
        · rw [List.mem_singleton.mp he]
          exact not_lt.mp hlt
  · have hturn : lowestTurn fullKey incoming found entry = found := by
      unfold lowestTurn
      rw [if_neg]
      simpa [Bool.and_eq_true] using hcovers
    rw [hturn]
    have hskip : ∀ e ∈ seen ++ [entry], StorageState.overlays e.1 fullKey = true →
        timestampOrderKey incoming ≤ orderOf e.2 → e ∈ seen := by
      intro e he hcov hge
      rcases List.mem_append.mp he with he | he
      · exact he
      · rw [List.mem_singleton.mp he] at hcov hge
        exact absurd ⟨hcov, hge⟩ hcovers
    rcases found with _ | cur
    · intro e he hcov
      by_contra hge
      exact hge (h e (hskip e he hcov (not_lt.mp hge)) hcov)
    · obtain ⟨⟨e₀, he₀, hover₀, hcur⟩, hge₀, hlow⟩ := h
      exact ⟨⟨e₀, by simp [he₀], hover₀, hcur⟩, hge₀,
        fun e he hcov hge => hlow e (hskip e he hcov hge) hcov hge⟩

theorem lowestDelete_lowest (registry : ExtTreeMap Bytes WildcardUpdate) (fullKey : Bytes)
    (incoming : TimestampHint) :
    Lowest fullKey incoming registry.toList
      (StorageState.lowestDelete registry fullKey incoming) := by
  have hfold : ∀ entries : List (Bytes × WildcardUpdate), Lowest fullKey incoming entries
      (entries.foldl (lowestTurn fullKey incoming) none) := by
    intro entries
    induction entries using List.reverseRecOn with
    | nil => exact fun entry h => absurd h (by simp)
    | append_singleton entries entry ih =>
      rw [List.foldl_append, List.foldl_cons, List.foldl_nil]
      exact ih.turn entry
  rw [StorageState.lowestDelete, ExtTreeMap.foldl_eq_foldl_toList]
  exact hfold registry.toList

theorem lowestDelete_none (h : StorageState.lowestDelete registry fullKey incoming = none)
    {wu : WildcardUpdate} (hwu : Covering registry fullKey wu) :
    orderOf wu < timestampOrderKey incoming := by
  have hlow := lowestDelete_lowest registry fullKey incoming
  rw [h] at hlow
  obtain ⟨entry, hentry, hover, rfl⟩ := covering_iff.mp hwu
  exact hlow entry hentry hover

theorem lowestDelete_some {lowest : WildcardUpdate}
    (h : StorageState.lowestDelete registry fullKey incoming = some lowest) :
    Covering registry fullKey lowest ∧ timestampOrderKey incoming ≤ orderOf lowest ∧
      ∀ wu, Covering registry fullKey wu → timestampOrderKey incoming ≤ orderOf wu →
        orderOf lowest ≤ orderOf wu := by
  have hlow := lowestDelete_lowest registry fullKey incoming
  rw [h] at hlow
  refine ⟨covering_iff.mpr hlow.1, hlow.2.1, fun wu hwu hge => ?_⟩
  obtain ⟨entry, hentry, hover, rfl⟩ := covering_iff.mp hwu
  exact hlow.2.2 entry hentry hover hge

def latestTurn (fullKey : Bytes) (latest : TimestampHint × Option WildcardUpdate)
    (entry : Bytes × WildcardUpdate) : TimestampHint × Option WildcardUpdate :=
  if StorageState.overlays entry.1 fullKey &&
      !timestampStrictlyNewer latest.1 entry.2.data.timestamp then
    (entry.2.data.timestamp, some entry.2)
  else latest

def Latest (fullKey : Bytes) (incoming : TimestampHint) (seen : List (Bytes × WildcardUpdate))
    (found : TimestampHint × Option WildcardUpdate) : Prop :=
  (∀ entry ∈ seen, StorageState.overlays entry.1 fullKey = true →
    orderOf entry.2 < timestampOrderKey found.1 ∨
      (found.2.isSome ∧ orderOf entry.2 ≤ timestampOrderKey found.1)) ∧
  match found.2 with
  | none => found.1 = incoming
  | some latest =>
    (∃ entry ∈ seen, StorageState.overlays entry.1 fullKey = true ∧ entry.2 = latest) ∧
      timestampOrderKey incoming ≤ orderOf latest ∧ found.1 = latest.data.timestamp

theorem Latest.turn {seen : List (Bytes × WildcardUpdate)}
    {found : TimestampHint × Option WildcardUpdate}
    (h : Latest fullKey incoming seen found) (entry : Bytes × WildcardUpdate) :
    Latest fullKey incoming (seen ++ [entry]) (latestTurn fullKey found entry) := by
  obtain ⟨hseen, hfound⟩ := h
  have hincoming : timestampOrderKey incoming ≤ timestampOrderKey found.1 := by
    rcases hlatest : found.2 with _ | latest
    · rw [hlatest] at hfound
      rw [hfound]
    · rw [hlatest] at hfound
      rw [hfound.2.2]
      exact hfound.2.1
  by_cases hcovers : StorageState.overlays entry.1 fullKey = true ∧
      timestampOrderKey found.1 ≤ orderOf entry.2
  · obtain ⟨hover, hle⟩ := hcovers
    have hturn : latestTurn fullKey found entry = (entry.2.data.timestamp, some entry.2) := by
      simp [latestTurn, hover, timestampStrictlyNewer_eq_false.mpr hle]
    rw [hturn]
    refine ⟨fun e he hcov => .inr ⟨rfl, ?_⟩, ⟨entry, by simp, hover, rfl⟩, hincoming.trans hle, rfl⟩
    rcases List.mem_append.mp he with he | he
    · rcases hseen e he hcov with hlt | ⟨-, hle'⟩
      · exact hlt.le.trans hle
      · exact hle'.trans hle
    · rw [List.mem_singleton.mp he]
  · have hturn : latestTurn fullKey found entry = found := by
      rw [latestTurn, if_neg]
      simpa [Bool.and_eq_true] using hcovers
    rw [hturn]
    constructor
    · intro e he hcov
      rcases List.mem_append.mp he with he | he
      · exact hseen e he hcov
      · rw [List.mem_singleton.mp he] at hcov ⊢
        exact .inl (not_le.mp fun hge => hcovers ⟨hcov, hge⟩)
    · rcases hlatest : found.2 with _ | latest
      · rwa [hlatest] at hfound
      · rw [hlatest] at hfound
        obtain ⟨⟨e₀, he₀, hover₀, hcur⟩, hrest⟩ := hfound
        exact ⟨⟨e₀, by simp [he₀], hover₀, hcur⟩, hrest⟩

theorem latestPut_latest (registry : ExtTreeMap Bytes WildcardUpdate) (fullKey : Bytes)
    (incoming : TimestampHint) :
    ∃ found, Latest fullKey incoming registry.toList found ∧
      StorageState.latestPut registry fullKey incoming = found.2 := by
  have hfold : ∀ entries : List (Bytes × WildcardUpdate), Latest fullKey incoming entries
      (entries.foldl (latestTurn fullKey) (incoming, none)) := by
    intro entries
    induction entries using List.reverseRecOn with
    | nil => exact ⟨fun entry h => absurd h (by simp), rfl⟩
    | append_singleton entries entry ih =>
      rw [List.foldl_append, List.foldl_cons, List.foldl_nil]
      exact ih.turn entry
  refine ⟨_, hfold registry.toList, ?_⟩
  rw [StorageState.latestPut, ExtTreeMap.foldl_eq_foldl_toList]
  rfl

theorem latestPut_none (h : StorageState.latestPut registry fullKey incoming = none)
    {wu : WildcardUpdate} (hwu : Covering registry fullKey wu) :
    orderOf wu < timestampOrderKey incoming := by
  obtain ⟨⟨stamp, found⟩, ⟨hseen, hfound⟩, hput⟩ := latestPut_latest registry fullKey
    incoming
  obtain rfl : found = none := hput.symm.trans h
  obtain rfl : stamp = incoming := hfound
  obtain ⟨entry, hentry, hover, rfl⟩ := covering_iff.mp hwu
  rcases hseen entry hentry hover with hlt | ⟨hsome, -⟩
  · exact hlt
  · simp at hsome

theorem latestPut_some {latest : WildcardUpdate}
    (h : StorageState.latestPut registry fullKey incoming = some latest) :
    Covering registry fullKey latest ∧ timestampOrderKey incoming ≤ orderOf latest ∧
      ∀ wu, Covering registry fullKey wu → orderOf wu ≤ orderOf latest := by
  obtain ⟨⟨stamp, found⟩, ⟨hseen, hfound⟩, hput⟩ := latestPut_latest registry fullKey
    incoming
  obtain rfl : found = some latest := hput.symm.trans h
  obtain ⟨hmem, hge, rfl⟩ := hfound
  refine ⟨covering_iff.mpr hmem, hge, fun wu hwu => ?_⟩
  obtain ⟨entry, hentry, hover, rfl⟩ := covering_iff.mp hwu
  rcases hseen entry hentry hover with hlt | ⟨-, hle⟩
  · exact hlt.le
  · exact hle

end Phases

end WatchingZenoh.StorageOverride
