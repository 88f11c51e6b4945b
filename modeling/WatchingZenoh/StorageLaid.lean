import WatchingZenoh.Library.TreeMaps
import WatchingZenoh.StorageOverride

/-! An update laid over the keys of a memory storage, read key by key. A concrete update is one offer to
the register of its key, under the timestamp and with the value of its override; a wildcard update is
one offer to each key it covers that holds a value. -/

namespace WatchingZenoh.StorageLaid

open Timestamp Backend StorageReplication StorageReplica StorageCalls StorageHeld
open StorageOverride Newest
open Std (ExtTreeMap)

/-- Each registry holds updates of its own kind. -/
structure Kinds (s : Memory) : Prop where
  puts : ∀ (ke : Bytes) wu, s.wildcardPuts[ke]? = some wu → wu.kind = .put
  deletes : ∀ (ke : Bytes) wu, s.wildcardDeletes[ke]? = some wu → wu.kind = .del

/-- What an update to a key offers its register, once it is overridden. -/
def laid (s : Memory) (full : Bytes) (kind : SampleKind) (timestamp : TimestampHint)
    (payload : Bytes) (encoding : Option EncodingHint) : Held :=
  match s.overridingWildUpdate full timestamp true (kind == .put) with
  | some update =>
    match update.kind with
    | .put => heldOf kind update.data.timestamp update.data.payload update.data.encoding
    | .del => heldOf kind update.data.timestamp [] none
  | none => heldOf kind timestamp payload encoding

theorem laid_congr {s s' : Memory} (hputs : s'.wildcardPuts = s.wildcardPuts)
    (hdeletes : s'.wildcardDeletes = s.wildcardDeletes) : laid s' = laid s := by
  funext full kind timestamp payload encoding
  simp [laid, StorageState.overridingWildUpdate, hputs, hdeletes]

section Override

variable {s : Memory} (hkinds : Kinds s) (full : Bytes) (timestamp : TimestampHint)
  (payload : Bytes) (encoding : Option EncodingHint)
include hkinds

/-- A put takes an empty value from the oldest covering delete that is not older, else the value of
the newest covering put that is not older, else its own. -/
theorem laid_put_cases :
    (∃ wu, Covering s.wildcardDeletes full wu ∧ timestampOrderKey timestamp ≤ orderOf wu ∧
      (∀ wu', Covering s.wildcardDeletes full wu' → timestampOrderKey timestamp ≤ orderOf wu' →
        orderOf wu ≤ orderOf wu') ∧
      laid s full .put timestamp payload encoding = ⟨wu.data.timestamp, some ([], none)⟩) ∨
    ((∀ wu, Covering s.wildcardDeletes full wu → orderOf wu < timestampOrderKey timestamp) ∧
      ∃ wu, Covering s.wildcardPuts full wu ∧ timestampOrderKey timestamp ≤ orderOf wu ∧
        (∀ wu', Covering s.wildcardPuts full wu' → orderOf wu' ≤ orderOf wu) ∧
        laid s full .put timestamp payload encoding =
          ⟨wu.data.timestamp, some (wu.data.payload, wu.data.encoding)⟩) ∨
    ((∀ wu, Covering s.wildcardDeletes full wu → orderOf wu < timestampOrderKey timestamp) ∧
      (∀ wu, Covering s.wildcardPuts full wu → orderOf wu < timestampOrderKey timestamp) ∧
      laid s full .put timestamp payload encoding = ⟨timestamp, some (payload, encoding)⟩) := by
  rcases hlowest : StorageState.lowestDelete s.wildcardDeletes full timestamp with _ | lowest
  · have hdeletes := fun wu => @lowestDelete_none s.wildcardDeletes full timestamp hlowest wu
    rcases hlatest : StorageState.latestPut s.wildcardPuts full timestamp with _ | latest
    · refine .inr (.inr ⟨hdeletes, fun wu => latestPut_none hlatest, ?_⟩)
      simp [laid, StorageState.overridingWildUpdate, hlowest, hlatest, heldOf]
    · obtain ⟨hcovering, hle, hnewest⟩ := latestPut_some hlatest
      refine .inr (.inl ⟨hdeletes, latest, hcovering, hle, hnewest, ?_⟩)
      obtain ⟨ke, hke, -⟩ := hcovering
      simp [laid, StorageState.overridingWildUpdate, hlowest, hlatest, hkinds.puts ke latest hke,
        heldOf]
  · obtain ⟨hcovering, hle, holdest⟩ := lowestDelete_some hlowest
    refine .inl ⟨lowest, hcovering, hle, holdest, ?_⟩
    obtain ⟨ke, hke, -⟩ := hcovering
    simp [laid, StorageState.overridingWildUpdate, hlowest, hkinds.deletes ke lowest hke, heldOf]

theorem laid_del_cases :
    (∃ wu, Covering s.wildcardDeletes full wu ∧ timestampOrderKey timestamp ≤ orderOf wu ∧
      (∀ wu', Covering s.wildcardDeletes full wu' → timestampOrderKey timestamp ≤ orderOf wu' →
        orderOf wu ≤ orderOf wu') ∧
      laid s full .del timestamp payload encoding = ⟨wu.data.timestamp, none⟩) ∨
    ((∀ wu, Covering s.wildcardDeletes full wu → orderOf wu < timestampOrderKey timestamp) ∧
      laid s full .del timestamp payload encoding = ⟨timestamp, none⟩) := by
  rcases hlowest : StorageState.lowestDelete s.wildcardDeletes full timestamp with _ | lowest
  · refine .inr ⟨fun wu => lowestDelete_none hlowest, ?_⟩
    simp [laid, StorageState.overridingWildUpdate, hlowest, heldOf]
  · obtain ⟨hcovering, hle, holdest⟩ := lowestDelete_some hlowest
    refine .inl ⟨lowest, hcovering, hle, holdest, ?_⟩
    obtain ⟨ke, hke, -⟩ := hcovering
    simp [laid, StorageState.overridingWildUpdate, hlowest, hkinds.deletes ke lowest hke, heldOf]

theorem laid_content (kind : SampleKind) :
    (laid s full kind timestamp payload encoding).content = none ↔ kind = .del := by
  cases kind with
  | put =>
    rcases laid_put_cases hkinds full timestamp payload encoding with
      ⟨wu, -, -, -, hlaid⟩ | ⟨-, wu, -, -, -, hlaid⟩ | ⟨-, -, hlaid⟩ <;> simp [hlaid]
  | del =>
    rcases laid_del_cases hkinds full timestamp payload encoding with
      ⟨wu, -, -, -, hlaid⟩ | ⟨-, hlaid⟩ <;> simp [hlaid]

theorem le_heldStamp_laid (kind : SampleKind) :
    timestampOrderKey timestamp ≤ heldStamp (laid s full kind timestamp payload encoding) := by
  cases kind with
  | put =>
    rcases laid_put_cases hkinds full timestamp payload encoding with
      ⟨wu, -, hle, -, hlaid⟩ | ⟨-, wu, -, hle, -, hlaid⟩ | ⟨-, -, hlaid⟩ <;> rw [hlaid]
    · exact hle
    · exact hle
    · exact le_rfl
  | del =>
    rcases laid_del_cases hkinds full timestamp payload encoding with
      ⟨wu, -, hle, -, hlaid⟩ | ⟨-, hlaid⟩ <;> rw [hlaid]
    · exact hle
    · exact le_rfl

end Override

variable [FingerprintHash]

section Register

variable (s : Memory) (wildcardKe : Bytes) (kind : SampleKind) (timestamp : TimestampHint)
  (payload : Bytes) (encoding : Option EncodingHint)

theorem kinds_register {s : Memory} (h : Kinds s) :
    Kinds (s.registerWildcardUpdate wildcardKe kind timestamp payload encoding) := by
  cases kind with
  | put =>
    refine ⟨fun ke wu hwu => ?_, h.deletes⟩
    simp only [StorageState.registerWildcardUpdate, ExtTreeMap.getElem?_insert] at hwu
    split_ifs at hwu
    · rw [← Option.some.inj hwu]
    · exact h.puts ke wu hwu
  | del =>
    refine ⟨h.puts, fun ke wu hwu => ?_⟩
    simp only [StorageState.registerWildcardUpdate, ExtTreeMap.getElem?_insert] at hwu
    split_ifs at hwu
    · rw [← Option.some.inj hwu]
    · exact h.deletes ke wu hwu

omit [FingerprintHash] in
theorem kinds_congr {s s' : Memory} (h : Kinds s) (hputs : s'.wildcardPuts = s.wildcardPuts)
    (hdeletes : s'.wildcardDeletes = s.wildcardDeletes) : Kinds s' :=
  ⟨fun ke wu hwu => h.puts ke wu (hputs ▸ hwu), fun ke wu hwu => h.deletes ke wu (hdeletes ▸ hwu)⟩

theorem register_rest :
    let s' := s.registerWildcardUpdate wildcardKe kind timestamp payload encoding
    s'.backend = s.backend ∧ s'.latest = s.latest ∧ s'.stripPrefix = s.stripPrefix := by
  cases kind <;> exact ⟨rfl, rfl, rfl⟩

theorem held_register (key : Option Bytes) :
    held (s.registerWildcardUpdate wildcardKe kind timestamp payload encoding) key = held s key := by
  cases kind <;> rfl

end Register

section One

variable {s : Memory} (stored : Option Bytes) (full : Bytes) (kind : SampleKind)
  (timestamp : TimestampHint) (payload : Bytes) (encoding : Option EncodingHint)

theorem applyOne_eq_process :
    ∃ timestamp' payload' encoding',
      (s.applyOneWithOverride stored full kind timestamp payload encoding).1 =
        (s.process stored kind timestamp' payload' encoding').1 ∧
      laid s full kind timestamp payload encoding = heldOf kind timestamp' payload' encoding' := by
  cases kind with
  | put =>
    have hphases : (SampleKind.put == SampleKind.put) = true := rfl
    rcases hover : s.overridingWildUpdate full timestamp true true with _ | ⟨_ | _, data⟩ <;>
      simp only [StorageState.applyOneWithOverride, laid, hphases, hover] <;>
      exact ⟨_, _, _, rfl, rfl⟩
  | del =>
    have hphases : (SampleKind.del == SampleKind.put) = false := rfl
    rcases hover : s.overridingWildUpdate full timestamp true false with _ | ⟨_ | _, data⟩ <;>
      simp only [StorageState.applyOneWithOverride, laid, hphases, hover] <;>
      exact ⟨_, _, _, rfl, rfl⟩

theorem applyOne_rest :
    let s' := (s.applyOneWithOverride stored full kind timestamp payload encoding).1
    s'.wildcardPuts = s.wildcardPuts ∧ s'.wildcardDeletes = s.wildcardDeletes ∧
      s'.stripPrefix = s.stripPrefix := by
  obtain ⟨_, _, _, hprocess, -⟩ := @applyOne_eq_process _ s stored full kind timestamp payload encoding
  dsimp only
  rw [hprocess]
  exact process_rest s stored kind _ _ _

theorem coherent_applyOne (h : Coherent s) :
    Coherent (s.applyOneWithOverride stored full kind timestamp payload encoding).1 := by
  obtain ⟨_, _, _, hprocess, -⟩ := @applyOne_eq_process _ s stored full kind timestamp payload encoding
  rw [hprocess]
  exact coherent_process _ _ _ _ _ h

theorem held_applyOne (h : Coherent s) (key : Option Bytes) :
    held (s.applyOneWithOverride stored full kind timestamp payload encoding).1 key =
      if stored = key then
        offer heldStamp (held s key) (laid s full kind timestamp payload encoding)
      else held s key := by
  obtain ⟨_, _, _, hprocess, hlaid⟩ :=
    @applyOne_eq_process _ s stored full kind timestamp payload encoding
  rw [hprocess, hlaid, held_process _ _ _ _ _ h]
  split_ifs with hkey
  · rw [hkey]
  · rfl

end One

section Each

variable (kind : SampleKind) (timestamp : TimestampHint) (payload : Bytes)
  (encoding : Option EncodingHint)

theorem applyEach_rest (keys : List (Option Bytes × Bytes)) {s : Memory} :
    let s' := (StorageState.applyEach kind timestamp payload encoding s keys).1
    s'.wildcardPuts = s.wildcardPuts ∧ s'.wildcardDeletes = s.wildcardDeletes ∧
      s'.stripPrefix = s.stripPrefix := by
  induction keys generalizing s with
  | nil => exact ⟨rfl, rfl, rfl⟩
  | cons key keys ih =>
    obtain ⟨hputs, hdeletes, hstrip⟩ :=
      @applyOne_rest _ s key.1 key.2 kind timestamp payload encoding
    obtain ⟨hputs', hdeletes', hstrip'⟩ :=
      @ih (s.applyOneWithOverride key.1 key.2 kind timestamp payload encoding).1
    exact ⟨hputs'.trans hputs, hdeletes'.trans hdeletes, hstrip'.trans hstrip⟩

theorem coherent_applyEach (keys : List (Option Bytes × Bytes)) {s : Memory} (h : Coherent s) :
    Coherent (StorageState.applyEach kind timestamp payload encoding s keys).1 := by
  induction keys generalizing s with
  | nil => exact h
  | cons key keys ih => exact ih (coherent_applyOne key.1 key.2 kind timestamp payload encoding h)

theorem held_applyEach_of_notMem {keys : List (Option Bytes × Bytes)} {key : Option Bytes}
    (hkey : key ∉ keys.map Prod.fst) {s : Memory} (h : Coherent s) :
    held (StorageState.applyEach kind timestamp payload encoding s keys).1 key = held s key := by
  induction keys generalizing s with
  | nil => rfl
  | cons first keys ih =>
    simp only [List.map_cons, List.mem_cons, not_or] at hkey
    refine (ih hkey.2 (coherent_applyOne first.1 first.2 kind timestamp payload encoding h)).trans ?_
    rw [held_applyOne first.1 first.2 kind timestamp payload encoding h,
      if_neg (Ne.symm hkey.1)]

theorem held_applyEach_of_mem {keys : List (Option Bytes × Bytes)}
    (hnodup : (keys.map Prod.fst).Nodup) {key : Option Bytes} {full : Bytes}
    (hkey : (key, full) ∈ keys) {s : Memory} (h : Coherent s) :
    held (StorageState.applyEach kind timestamp payload encoding s keys).1 key =
      offer heldStamp (held s key) (laid s full kind timestamp payload encoding) := by
  induction keys generalizing s with
  | nil => simp at hkey
  | cons first keys ih =>
    rw [List.map_cons, List.nodup_cons] at hnodup
    have hcoherent := coherent_applyOne first.1 first.2 kind timestamp payload encoding h
    rcases List.mem_cons.mp hkey with rfl | hkey
    · refine (held_applyEach_of_notMem kind timestamp payload encoding hnodup.1 hcoherent).trans ?_
      rw [held_applyOne _ _ kind timestamp payload encoding h, if_pos rfl]
    · have hne : first.1 ≠ key := by
        rintro rfl
        exact hnodup.1 (List.mem_map.mpr ⟨_, hkey, rfl⟩)
      obtain ⟨hputs, hdeletes, -⟩ :=
        @applyOne_rest _ s first.1 first.2 kind timestamp payload encoding
      refine (ih hnodup.2 hkey hcoherent).trans ?_
      rw [held_applyOne first.1 first.2 kind timestamp payload encoding h, if_neg hne,
        laid_congr hputs hdeletes]

end Each

section Materialize

variable {s : Memory} (wildcardKe : Bytes) (kind : SampleKind) (timestamp : TimestampHint)
  (payload : Bytes) (encoding : Option EncodingHint)

omit [FingerprintHash] in
theorem nodup_matching (s : Memory) :
    ((s.matching wildcardKe s.backend.getAllEntries).map Prod.fst).Nodup := by
  have hsublist : ∀ listed : List (Option Bytes × TimestampHint),
      ((s.matching wildcardKe listed).map Prod.fst).Sublist (listed.map Prod.fst) := by
    intro listed
    induction listed with
    | nil => exact .slnil
    | cons entry listed ih =>
      unfold StorageState.matching at ih ⊢
      rw [List.filterMap_cons]
      split
      · exact ih.cons entry.1
      · next found hfound =>
        rcases hfull : s.fullKeyFor entry.1 with _ | full <;> simp only [hfull] at hfound
        · simp at hfound
        · split_ifs at hfound
          rw [← Option.some.inj hfound]
          exact ih.cons_cons entry.1
  refine (hsublist _).nodup ?_
  rw [MemoryStorage.getAllEntries, List.map_map, List.Nodup, List.pairwise_map]
  refine ExtTreeMap.distinct_keys_toList.imp ?_
  intro a b hab heq
  exact hab (Std.LawfulEqCmp.compare_eq_iff_eq.mpr heq)

omit [FingerprintHash] in
theorem mem_matching {s : Memory} {key : Option Bytes} {full : Bytes} :
    (key, full) ∈ s.matching wildcardKe s.backend.getAllEntries ↔
      s.fullKeyFor key = some full ∧ StorageState.overlays wildcardKe full = true ∧
        ∃ data, s.backend.map[key]? = some data := by
  simp only [StorageState.matching, List.mem_filterMap]
  constructor
  · rintro ⟨⟨stored, t⟩, hentry, hfound⟩
    rcases hfull : s.fullKeyFor stored with _ | full' <;> simp only [hfull] at hfound
    · simp at hfound
    · split_ifs at hfound with hover
      obtain ⟨rfl, rfl⟩ := Prod.mk.inj (Option.some.inj hfound)
      obtain ⟨data, hdata, -⟩ := mem_getAllEntries.mp hentry
      exact ⟨hfull, hover, data, hdata⟩
  · rintro ⟨hfull, hover, data, hdata⟩
    exact ⟨(key, data.timestamp), mem_getAllEntries.mpr ⟨data, hdata, rfl⟩, by simp [hfull, hover]⟩

theorem materialize_eq (s : Memory) :
    s.materializeWildcard wildcardKe kind timestamp payload encoding =
      StorageState.applyEach kind timestamp payload encoding
        (s.registerWildcardUpdate wildcardKe kind timestamp payload encoding)
        (s.matching wildcardKe s.backend.getAllEntries) := by
  cases kind <;> rfl

theorem materialize_rest (s : Memory) :
    let registered := s.registerWildcardUpdate wildcardKe kind timestamp payload encoding
    let s' := (s.materializeWildcard wildcardKe kind timestamp payload encoding).1
    s'.wildcardPuts = registered.wildcardPuts ∧ s'.wildcardDeletes = registered.wildcardDeletes ∧
      s'.stripPrefix = s.stripPrefix := by
  dsimp only
  rw [materialize_eq]
  obtain ⟨hputs, hdeletes, hstrip⟩ := @applyEach_rest _ kind timestamp payload encoding
    (s.matching wildcardKe s.backend.getAllEntries)
    (s.registerWildcardUpdate wildcardKe kind timestamp payload encoding)
  exact ⟨hputs, hdeletes,
    hstrip.trans (register_rest s wildcardKe kind timestamp payload encoding).2.2⟩

theorem coherent_register (h : Coherent s) :
    Coherent (s.registerWildcardUpdate wildcardKe kind timestamp payload encoding) := by
  cases kind <;> exact h

theorem coherent_materialize (h : Coherent s) :
    Coherent (s.materializeWildcard wildcardKe kind timestamp payload encoding).1 := by
  rw [materialize_eq]
  exact coherent_applyEach _ _ _ _ _ (coherent_register _ _ _ _ _ h)

theorem held_materialize_of_covered (h : Coherent s) {key : Option Bytes} {full : Bytes}
    {data : StoredData} (hfull : s.fullKeyFor key = some full)
    (hover : StorageState.overlays wildcardKe full = true) (hdata : s.backend.map[key]? = some data) :
    held (s.materializeWildcard wildcardKe kind timestamp payload encoding).1 key =
      offer heldStamp (held s key)
        (laid (s.registerWildcardUpdate wildcardKe kind timestamp payload encoding) full kind
          timestamp payload encoding) := by
  rw [materialize_eq, held_applyEach_of_mem _ _ _ _ (nodup_matching wildcardKe s)
    ((mem_matching wildcardKe).mpr ⟨hfull, hover, data, hdata⟩) (coherent_register _ _ _ _ _ h),
    held_register]

theorem held_materialize_of_not (h : Coherent s) (key : Option Bytes)
    (hnot : ∀ full data, s.fullKeyFor key = some full →
      StorageState.overlays wildcardKe full = true → s.backend.map[key]? ≠ some data) :
    held (s.materializeWildcard wildcardKe kind timestamp payload encoding).1 key = held s key := by
  have hkey : key ∉ (s.matching wildcardKe s.backend.getAllEntries).map Prod.fst := by
    intro hin
    obtain ⟨⟨key', full⟩, hmem, rfl⟩ := List.mem_map.mp hin
    obtain ⟨hfull, hover, data, hdata⟩ := (mem_matching wildcardKe).mp hmem
    exact hnot full data hfull hover hdata
  rw [materialize_eq, held_applyEach_of_notMem _ _ _ _ hkey (coherent_register _ _ _ _ _ h),
    held_register]

end Materialize

end WatchingZenoh.StorageLaid
