import WatchingZenoh.StorageRegistry
import WatchingZenoh.StorageSteps

/-! No value comes back past a wildcard update. In a run whose registrations of one key expression and
kind go forward in time, whatever is visible under a key is at least as new as every wildcard processed
so far that covers the key, or it is the empty value that a covering wildcard delete has left, under
that delete's own timestamp. -/

namespace WatchingZenoh.StorageNoResurrection

open Timestamp Backend StorageReplication StorageAligner StorageReplica StorageCalls StorageHeld
open StorageOverride StorageLaid StorageRegistry StorageSteps Newest
open Std (ExtTreeMap)

/-- What a key holds, seen against the registries: a tombstone, a value no older than any covering
registration, or the empty value of a covering delete. -/
def Settled (s : Memory) (full : Bytes) (b : Held) : Prop :=
  b.content = none ∨
    (∀ keyexpr kind t, registeredAt s keyexpr kind = some t →
      StorageState.overlays keyexpr full = true → timestampOrderKey t ≤ heldStamp b) ∨
    (b.content = some ([], none) ∧ ∃ keyexpr, registeredAt s keyexpr .del = some b.timestamp ∧
      StorageState.overlays keyexpr full = true)

theorem Settled.congr {s s' : Memory} {full : Bytes} {b : Held} (h : Settled s full b)
    (hregistered : registeredAt s' = registeredAt s) : Settled s' full b := by
  rw [Settled, hregistered]
  exact h

theorem covering_of_registeredAt {s : Memory} {keyexpr full : Bytes} {kind : SampleKind}
    {t : TimestampHint} (hregistered : registeredAt s keyexpr kind = some t)
    (hover : StorageState.overlays keyexpr full = true) :
    ∃ wu, Covering (registry s kind) full wu ∧ wu.data.timestamp = t := by
  obtain ⟨wu, hwu, rfl⟩ := Option.map_eq_some_iff.mp hregistered
  exact ⟨wu, ⟨keyexpr, hwu, hover⟩, rfl⟩

theorem settled_laid {s : Memory} (hkinds : Kinds s) (full : Bytes) (kind : SampleKind)
    (timestamp : TimestampHint) (payload : Bytes) (encoding : Option EncodingHint) :
    Settled s full (laid s full kind timestamp payload encoding) := by
  cases kind with
  | del => exact .inl ((laid_content hkinds full timestamp payload encoding .del).mpr rfl)
  | put =>
    rcases laid_put_cases hkinds full timestamp payload encoding with
      ⟨wu, ⟨ke, hke, hover⟩, -, -, hlaid⟩ | ⟨hdeletes, wu, -, hle, hnewest, hlaid⟩ |
      ⟨hdeletes, hputs, hlaid⟩ <;> rw [hlaid]
    · exact .inr (.inr ⟨rfl, ke, by simp [registeredAt, registry, hke], hover⟩)
    · refine .inr (.inl fun keyexpr kind t hregistered hover => ?_)
      obtain ⟨wu', hcovering, rfl⟩ := covering_of_registeredAt hregistered hover
      cases kind with
      | put => exact hnewest wu' hcovering
      | del => exact ((hdeletes wu' hcovering).trans_le hle).le
    · refine .inr (.inl fun keyexpr kind t hregistered hover => ?_)
      obtain ⟨wu', hcovering, rfl⟩ := covering_of_registeredAt hregistered hover
      cases kind with
      | put => exact (hputs wu' hcovering).le
      | del => exact (hdeletes wu' hcovering).le

theorem settled_offer {s : Memory} {full : Bytes} {held : Option Held} {a b : Held}
    (hheld : ∀ c, held = some c → heldStamp a < heldStamp c → Settled s full c)
    (ha : Settled s full a) (hb : offer heldStamp held a = some b) : Settled s full b := by
  rcases eq_or_kept_of_offer hb with rfl | ⟨hkept, hlt⟩
  · exact ha
  · exact hheld b hkept hlt

theorem fullKeyFor_congr {s s' : Memory} (hstrip : s'.stripPrefix = s.stripPrefix)
    (key : Option Bytes) : s'.fullKeyFor key = s.fullKeyFor key := by
  simp [StorageState.fullKeyFor, hstrip]

theorem registeredAt_congr {s s' : Memory} (hputs : s'.wildcardPuts = s.wildcardPuts)
    (hdeletes : s'.wildcardDeletes = s.wildcardDeletes) : registeredAt s' = registeredAt s := by
  funext keyexpr kind
  cases kind <;> simp [registeredAt, registry, hputs, hdeletes]

variable [FingerprintHash]

/-- A value that a registration does not cover, or that is newer, stays settled: were it the empty value
of the very delete that is displaced, it would not be newer than the one that takes its place. -/
theorem Settled.register {s : Memory} {full : Bytes} {b : Held} (h : Settled s full b)
    (wildcardKe : Bytes) (kind : SampleKind) (timestamp : TimestampHint) (payload : Bytes)
    (encoding : Option EncodingHint)
    (hforward : ∀ before, registeredAt s wildcardKe kind = some before →
      timestampOrderKey before ≤ timestampOrderKey timestamp)
    (hnewer : StorageState.overlays wildcardKe full = true →
      timestampOrderKey timestamp < heldStamp b) :
    Settled (s.registerWildcardUpdate wildcardKe kind timestamp payload encoding) full b := by
  rcases h with htombstone | hall | ⟨hempty, ke, hke, hover⟩
  · exact .inl htombstone
  · refine .inr (.inl fun keyexpr kind' t hregistered hcovers => ?_)
    rw [registeredAt_register] at hregistered
    split_ifs at hregistered with heq
    · obtain ⟨rfl, rfl⟩ := Prod.mk.inj heq
      rw [← Option.some.inj hregistered]
      exact (hnewer hcovers).le
    · exact hall keyexpr kind' t hregistered hcovers
  · refine .inr (.inr ⟨hempty, ke, ?_, hover⟩)
    rw [registeredAt_register]
    split_ifs with heq
    · obtain ⟨rfl, rfl⟩ := Prod.mk.inj heq
      exact absurd (hforward _ hke) (hnewer hover).not_ge
    · exact hke

theorem registeredAt_step_concrete (s : Memory) (stored full : Option Bytes) (kind : SampleKind)
    (timestamp : TimestampHint) (payload : Bytes) (encoding : Option EncodingHint) :
    registeredAt (step s (.concrete stored full kind timestamp payload encoding)) =
      registeredAt s := by
  obtain ⟨hputs, hdeletes⟩ := step_concrete_rest s stored full kind timestamp payload encoding
  exact registeredAt_congr hputs hdeletes

theorem registeredAt_step_wildcard (s : Memory) (wildcardKe : Bytes) (kind : SampleKind)
    (timestamp : TimestampHint) (payload : Bytes) (encoding : Option EncodingHint) :
    registeredAt (step s (.wildcard wildcardKe kind timestamp payload encoding)) =
      registeredAt (s.registerWildcardUpdate wildcardKe kind timestamp payload encoding) := by
  obtain ⟨hputs, hdeletes, -⟩ := materialize_rest wildcardKe kind timestamp payload encoding s
  exact registeredAt_congr hputs hdeletes

/-- Every key is settled, and the registries are what the registrations so far have left. -/
structure Shadowed (stripPrefix : Option Bytes) (past : List Step) (s : Memory) : Prop where
  coherent : Coherent s
  kinds : Kinds s
  mounted : s.stripPrefix = stripPrefix
  settled : ∀ key full b, s.fullKeyFor key = some full → held s key = some b → Settled s full b
  known : ∀ keyexpr kind t, registeredAt s keyexpr kind = some t →
    (keyexpr, kind, t) ∈ past.filterMap Step.registration
  kept : ∀ w ∈ past.filterMap Step.registration, ∃ t, registeredAt s w.1 w.2.1 = some t ∧
    timestampOrderKey w.2.2 ≤ timestampOrderKey t

section Step

variable {stripPrefix : Option Bytes} {past : List Step} {s : Memory}

theorem Shadowed.concrete (h : Shadowed stripPrefix past s) (stored full : Option Bytes)
    (kind : SampleKind) (timestamp : TimestampHint) (payload : Bytes)
    (encoding : Option EncodingHint)
    (hmounted : (Step.concrete stored full kind timestamp payload encoding).Mounted stripPrefix) :
    Shadowed stripPrefix (past ++ [.concrete stored full kind timestamp payload encoding])
      (step s (.concrete stored full kind timestamp payload encoding)) := by
  have hregistered := registeredAt_step_concrete s stored full kind timestamp payload encoding
  have hpast : (past ++ [Step.concrete stored full kind timestamp payload encoding]).filterMap
      Step.registration = past.filterMap Step.registration := by
    simp [Step.registration]
  refine ⟨coherent_step h.coherent _, kinds_step h.kinds _, (stripPrefix_step s _).trans h.mounted,
    ?_, ?_, ?_⟩
  · intro key f b hfull hheld
    rw [fullKeyFor_congr (stripPrefix_step s _)] at hfull
    refine Settled.congr ?_ hregistered
    by_cases hkey : stored = key
    · subst hkey
      obtain rfl : some f = full := by
        rw [← hfull, StorageState.fullKeyFor, h.mounted]
        exact hmounted
      have hoffer := held_applyOne stored f kind timestamp payload encoding h.coherent stored
      rw [if_pos rfl] at hoffer
      exact settled_offer (fun c hc _ => h.settled stored f c hfull hc)
        (settled_laid h.kinds f kind timestamp payload encoding) (hoffer.symm.trans hheld)
    · have hsame : held (step s (.concrete stored full kind timestamp payload encoding)) key =
          held s key := by
        rcases full with _ | full
        · refine (held_process stored kind timestamp payload encoding h.coherent key).trans ?_
          rw [if_neg hkey]
        · refine (held_applyOne stored full kind timestamp payload encoding h.coherent key).trans ?_
          rw [if_neg hkey]
      exact h.settled key f b hfull (hsame.symm.trans hheld)
  · rw [hregistered, hpast]
    exact h.known
  · rw [hregistered, hpast]
    exact h.kept

theorem Shadowed.wildcard (h : Shadowed stripPrefix past s) (wildcardKe : Bytes) (kind : SampleKind)
    (timestamp : TimestampHint) (payload : Bytes) (encoding : Option EncodingHint)
    (hforward : ∀ before, registeredAt s wildcardKe kind = some before →
      timestampOrderKey before ≤ timestampOrderKey timestamp) :
    Shadowed stripPrefix (past ++ [.wildcard wildcardKe kind timestamp payload encoding])
      (step s (.wildcard wildcardKe kind timestamp payload encoding)) := by
  have hregistered := registeredAt_step_wildcard s wildcardKe kind timestamp payload encoding
  have hkinds := kinds_register wildcardKe kind timestamp payload encoding h.kinds
  refine ⟨coherent_step h.coherent _, kinds_step h.kinds _, (stripPrefix_step s _).trans h.mounted,
    ?_, ?_, ?_⟩
  · intro key full b hfull hheld
    rw [fullKeyFor_congr (stripPrefix_step s _)] at hfull
    refine Settled.congr ?_ hregistered
    by_cases hover : StorageState.overlays wildcardKe full = true
    · rcases hdata : s.backend.map[key]? with _ | data
      · -- nothing is visible under the key, so the wildcard is not laid over it
        have hsame := held_materialize_of_not wildcardKe kind timestamp payload encoding h.coherent
          key fun _ _ _ _ => by simp [hdata]
        have hb := hsame.symm.trans hheld
        left
        obtain ⟨event, -, rfl⟩ := Option.map_eq_some_iff.mp hb
        simp [hdata]
      · have hoffer := held_materialize_of_covered wildcardKe kind timestamp payload encoding
          h.coherent hfull hover hdata
        refine settled_offer (fun c hc hlt => ?_)
          (settled_laid hkinds full kind timestamp payload encoding) (hoffer.symm.trans hheld)
        refine (h.settled key full c hfull hc).register _ _ _ _ _ hforward fun _ => ?_
        exact (le_heldStamp_laid hkinds full timestamp payload encoding kind).trans_lt hlt
    · have hsame := held_materialize_of_not wildcardKe kind timestamp payload encoding h.coherent
        key fun f _ hf hf' => by
          obtain rfl : full = f := Option.some.inj (hfull.symm.trans hf)
          exact absurd hf' hover
      exact (h.settled key full b hfull (hsame.symm.trans hheld)).register _ _ _ _ _ hforward
        fun hcovers => absurd hcovers hover
  · intro keyexpr kind' t ht
    rw [hregistered, registeredAt_register] at ht
    split_ifs at ht with heq
    · obtain ⟨rfl, rfl⟩ := Prod.mk.inj heq
      obtain rfl := Option.some.inj ht
      simp [Step.registration]
    · rw [List.filterMap_append]
      exact List.mem_append_left _ (h.known keyexpr kind' t ht)
  · intro w hw
    rw [hregistered, registeredAt_register]
    rw [List.filterMap_append] at hw
    split_ifs with heq
    · refine ⟨timestamp, rfl, ?_⟩
      rcases List.mem_append.mp hw with hw | hw
      · obtain ⟨t, ht, hle⟩ := h.kept w hw
        obtain ⟨rfl, rfl⟩ := Prod.mk.inj heq
        exact hle.trans (hforward t ht)
      · obtain rfl : w = (wildcardKe, kind, timestamp) := by simpa [Step.registration] using hw
        exact le_rfl
    · rcases List.mem_append.mp hw with hw | hw
      · exact h.kept w hw
      · obtain rfl : w = (wildcardKe, kind, timestamp) := by simpa [Step.registration] using hw
        exact absurd rfl heq

end Step

theorem Shadowed.foldl {stripPrefix : Option Bytes} (sts : List Step) {past : List Step} {s : Memory}
    (h : Shadowed stripPrefix past s) (hmounted : ∀ st ∈ sts, st.Mounted stripPrefix)
    (hordered : ((past ++ sts).filterMap Step.registration).Pairwise fun v w =>
      v.1 = w.1 → v.2.1 = w.2.1 → timestampStrictlyNewer v.2.2 w.2.2 = false) :
    Shadowed stripPrefix (past ++ sts) (sts.foldl step s) := by
  induction sts generalizing past s with
  | nil => simpa using h
  | cons st sts ih =>
    have hnext : Shadowed stripPrefix (past ++ [st]) (step s st) := by
      rcases st with ⟨stored, full, kind, timestamp, payload, encoding⟩ |
        ⟨wildcardKe, kind, timestamp, payload, encoding⟩
      · exact h.concrete stored full kind timestamp payload encoding (hmounted _ (by simp))
      · refine h.wildcard wildcardKe kind timestamp payload encoding fun before hbefore => ?_
        rw [List.filterMap_append, List.pairwise_append] at hordered
        have hle := hordered.2.2 _ (h.known wildcardKe kind before hbefore)
          (wildcardKe, kind, timestamp) (by simp [Step.registration]) rfl rfl
        exact timestampStrictlyNewer_eq_false.mp hle
    have hassoc : past ++ st :: sts = past ++ [st] ++ sts := by simp
    rw [hassoc] at hordered ⊢
    exact ih hnext (fun d hd => hmounted d (by simp [hd])) hordered

theorem shadowed_opened {backend : MemoryStorage} {stripPrefix : Option Bytes} {s : Memory}
    (hnew : StorageState.withStripPrefix backend stripPrefix = .ok s) :
    Shadowed stripPrefix [] s := by
  obtain ⟨hcoherent, hstrip, hputs, hdeletes⟩ := coherent_withStripPrefix hnew
  have hnone : ∀ keyexpr kind, registeredAt s keyexpr kind = none := by
    intro keyexpr kind
    cases kind <;> simp [registeredAt, registry, hputs, hdeletes]
  refine ⟨hcoherent, ⟨?_, ?_⟩, hstrip, ?_, ?_, ?_⟩
  · simp [hputs]
  · simp [hdeletes]
  · exact fun key full b _ _ => .inr (.inl fun keyexpr kind t ht => by simp [hnone] at ht)
  · exact fun keyexpr kind t ht => by simp [hnone] at ht
  · simp

def registrations (s : Memory) (calls : List Call) : List WildcardStamp :=
  (runSteps s calls).filterMap Step.registration

/-- Under a key that a processed wildcard covers, nothing strictly older is visible, except for the
empty value of a processed wildcard delete that covers the key and has that very timestamp. -/
theorem visible_past_wildcard (backend : MemoryStorage) (stripPrefix : Option Bytes) (s : Memory)
    (hnew : StorageState.withStripPrefix backend stripPrefix = .ok s) (calls : List Call)
    (hcalls : ∀ c ∈ calls, received c = true) (hkeyed : ∀ c ∈ calls, keyed stripPrefix c = true)
    (hordered : (registrations s calls).Pairwise fun v w =>
      v.1 = w.1 → v.2.1 = w.2.1 → timestampStrictlyNewer v.2.2 w.2.2 = false)
    (w : WildcardStamp) (hw : w ∈ registrations s calls) (key : Option Bytes) (full : Bytes)
    (hfull : s.fullKeyFor key = some full) (hover : StorageState.overlays w.1 full = true)
    (data : StoredData) (hdata : (run s calls).backend.map[key]? = some data)
    (holder : timestampStrictlyNewer w.2.2 data.timestamp = true) :
    data.payload = [] ∧ data.encoding = none ∧
      ∃ v ∈ registrations s calls, v.2.1 = .del ∧ StorageState.overlays v.1 full = true ∧
        v.2.2 = data.timestamp := by
  have hopened := shadowed_opened hnew
  have hrun : Shadowed stripPrefix (runSteps s calls) (run s calls) := by
    rw [run_eq_steps hcalls]
    refine hopened.foldl (runSteps s calls) ?_ hordered
    rw [← hopened.mounted] at hkeyed ⊢
    exact mounted_runSteps hcalls hkeyed
  have hheld : held (run s calls) key =
      some ⟨data.timestamp, some (data.payload, data.encoding)⟩ := by
    have hrecord := (hrun.coherent.put_iff key data.timestamp).mpr ⟨data, hdata, rfl⟩
    simp [held, hrecord, hdata]
  have hfull' : (run s calls).fullKeyFor key = some full := by
    rw [← hfull]
    exact fullKeyFor_congr (hrun.mounted.trans hopened.mounted.symm) key
  obtain ⟨t, ht, hle⟩ := hrun.kept w hw
  rcases hrun.settled key full _ hfull' hheld with hnone | hall | ⟨hempty, ke, hke, hcovers⟩
  · simp at hnone
  · have hge := hle.trans (hall w.1 w.2.1 t ht hover)
    exact absurd (timestampStrictlyNewer_eq_true.mp holder) hge.not_gt
  · obtain ⟨hpayload, hencoding⟩ := Prod.mk.inj (Option.some.inj hempty)
    exact ⟨hpayload, hencoding, _, hrun.known ke .del _ hke, rfl, hcovers, rfl⟩

/-- Captures on the wildcard of everything and on one key. -/
def captured (keyexpr : Bytes) (kind : SampleKind) (time : UInt64) (payload : Bytes) : Call :=
  .sample ⟨keyexpr, kind, some ⟨time, [1]⟩, payload, none⟩ ⟨0, []⟩

omit [FingerprintHash] in
/-- An older put that comes late, behind a wildcard delete and a wildcard put. -/
theorem visible_past_wildcard_late :
    letI := timeHash
    let key : Option Bytes := some [0x61]
    let s : Memory := .empty .new none
    let calls := [captured doubleStar .del 5 [], captured doubleStar .put 10 [2],
      captured [0x61] .put 4 [3]]
    let data : StoredData := ⟨[], none, ⟨5, [1]⟩⟩
    (run s calls).backend.map[key]? = some data ∧ data.payload = [] ∧ data.encoding = none ∧
      ∃ v ∈ registrations s calls, v.2.1 = .del ∧ StorageState.overlays v.1 [0x61] = true ∧
        v.2.2 = data.timestamp := by
  let _ := timeHash
  intro key s calls data
  have hdata : (run s calls).backend.map[key]? = some data := by decide +kernel
  exact ⟨hdata, visible_past_wildcard .new none s rfl calls (by decide) (by decide)
    (by decide +kernel) (doubleStar, .put, ⟨10, [1]⟩) (by decide +kernel) key [0x61] (by decide)
    (by decide +kernel) data hdata (by decide)⟩

omit [FingerprintHash] in
/-- A put at the very time of an earlier wildcard delete, with an empty payload, is visible as it was
sent, past a newer wildcard put. -/
theorem visible_at_tie :
    letI := timeHash
    let key : Option Bytes := some [0x61]
    let s : Memory := .empty .new none
    let calls := [captured doubleStar .del 5 [], captured doubleStar .put 10 [2],
      captured [0x61] .put 5 []]
    let data : StoredData := ⟨[], none, ⟨5, [1]⟩⟩
    (registrations s calls).Pairwise (fun v w =>
      v.1 = w.1 → v.2.1 = w.2.1 → timestampStrictlyNewer v.2.2 w.2.2 = false) ∧
    (doubleStar, .put, ⟨10, [1]⟩) ∈ registrations s calls ∧
    StorageState.overlays doubleStar [0x61] = true ∧
    timestampStrictlyNewer ⟨10, [1]⟩ data.timestamp = true ∧
    (run s calls).backend.map[key]? = some data := by
  let _ := timeHash
  decide +kernel

end WatchingZenoh.StorageNoResurrection
