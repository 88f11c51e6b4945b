import WatchingZenoh.StorageRegistry
import WatchingZenoh.StorageSteps

/-! Captured samples seen from one key. What a capture does to the key is one of four things; from those,
where the value of the key and the registered wildcards come from after any number of captures, in any
order. -/

namespace WatchingZenoh.StorageCaptures

open Timestamp Backend StorageReplication StorageReplica StorageCalls StorageHeld
open StorageOverride StorageLaid StorageRegistry StorageSteps Newest
open Std (ExtTreeMap)

/-- A sample, and the timestamp that it is given if it brings none. -/
abbrev Capture := Sample × TimestampHint

def stampOf (u : Capture) : TimestampHint := u.1.timestamp.getD u.2

def timeOf (u : Capture) : ℕ ×ₗ List ℕ := timestampOrderKey (stampOf u)

def heldBy (u : Capture) : Held := heldOf u.1.kind (stampOf u) u.1.payload u.1.encoding

def heldData (u : Capture) : StoredData := ⟨u.1.payload, u.1.encoding, stampOf u⟩

/-- A wildcard capture of a kind that covers a key. -/
def Lays (full : Bytes) (kind : SampleKind) (u : Capture) : Prop :=
  KeyexprMatch.isWild u.1.keyexpr = true ∧ u.1.kind = kind ∧
    StorageState.overlays u.1.keyexpr full = true

instance (full : Bytes) (kind : SampleKind) (u : Capture) : Decidable (Lays full kind u) :=
  inferInstanceAs (Decidable (_ ∧ _ ∧ _))

variable [FingerprintHash]

def captureAll (s : Memory) (us : List Capture) : Memory :=
  us.foldl (fun s u => s.applySample u.1 u.2) s

theorem captureAll_concat (s : Memory) (us : List Capture) (u : Capture) :
    captureAll s (us ++ [u]) = (captureAll s us).applySample u.1 u.2 := by
  simp [captureAll]

def registerCapture (s : Memory) (u : Capture) : Memory :=
  s.registerWildcardUpdate u.1.keyexpr u.1.kind (stampOf u) u.1.payload u.1.encoding

def laidBy (s : Memory) (full : Bytes) (u : Capture) : Held :=
  laid s full u.1.kind (stampOf u) u.1.payload u.1.encoding

/-- The key is stored for its full key, a concrete one, and restored to it. -/
structure Mount (stripPrefix key : Option Bytes) (full : Bytes) : Prop where
  nonwild : KeyexprMatch.isWild full = false
  stored : KeyexprPrefix.stripPrefix stripPrefix full = .ok (.ok key)
  restored : KeyexprPrefix.restorePrefix stripPrefix key = some full

/-- Seen from one key, a capture is of that key, of another one, a wildcard that is laid over it, or a
wildcard that is only registered. -/
inductive Seen (s : Memory) (key : Option Bytes) (full : Bytes) (u : Capture) (s' : Memory) : Prop
  | own (hkey : u.1.keyexpr = full)
      (hregistries : s'.wildcardPuts = s.wildcardPuts ∧ s'.wildcardDeletes = s.wildcardDeletes)
      (hheld : held s' key = offer heldStamp (held s key) (laidBy s full u))
  | other (hkey : u.1.keyexpr ≠ full) (hwild : KeyexprMatch.isWild u.1.keyexpr = false)
      (hregistries : s'.wildcardPuts = s.wildcardPuts ∧ s'.wildcardDeletes = s.wildcardDeletes)
      (hheld : held s' key = held s key)
  | laidOver (hlays : Lays full u.1.kind u) (hvisible : ∃ b, held s key = some b ∧ b.content ≠ none)
      (hregistries : s'.wildcardPuts = (registerCapture s u).wildcardPuts ∧
        s'.wildcardDeletes = (registerCapture s u).wildcardDeletes)
      (hheld : held s' key = offer heldStamp (held s key) (laidBy (registerCapture s u) full u))
  | registered (hwild : KeyexprMatch.isWild u.1.keyexpr = true)
      (hhidden : Lays full u.1.kind u → ∀ b, held s key = some b → b.content = none)
      (hregistries : s'.wildcardPuts = (registerCapture s u).wildcardPuts ∧
        s'.wildcardDeletes = (registerCapture s u).wildcardDeletes)
      (hheld : held s' key = held s key)

section Seen

variable {s : Memory} {key : Option Bytes} {full : Bytes}

theorem seen_wildcard (hcoherent : Coherent s) (hmount : Mount s.stripPrefix key full) {u : Capture}
    (hwild : KeyexprMatch.isWild u.1.keyexpr = true) :
    Seen s key full u (s.applySample u.1 u.2) := by
  have hsample : s.applySample u.1 u.2 = (s.materializeWildcard u.1.keyexpr u.1.kind (stampOf u)
      u.1.payload u.1.encoding).1 := by
    simp [StorageState.applySample, StorageState.applySampleInner, hwild, stampOf]
  obtain ⟨hputs, hdeletes, -⟩ :=
    materialize_rest u.1.keyexpr u.1.kind (stampOf u) u.1.payload u.1.encoding s
  rw [hsample]
  by_cases hover : StorageState.overlays u.1.keyexpr full = true
  · rcases hdata : s.backend.map[key]? with _ | data
    · refine .registered hwild (fun _ b hb => ?_) ⟨hputs, hdeletes⟩ ?_
      · obtain ⟨event, -, rfl⟩ := Option.map_eq_some_iff.mp hb
        simp [hdata]
      · exact held_materialize_of_not _ _ _ _ _ hcoherent key fun _ _ _ _ => by simp [hdata]
    · have hrecord := (hcoherent.put_iff key data.timestamp).mpr ⟨data, hdata, rfl⟩
      refine .laidOver ⟨hwild, rfl, hover⟩ ⟨_, by rw [held, hrecord]; rfl, by simp [hdata]⟩
        ⟨hputs, hdeletes⟩ ?_
      exact held_materialize_of_covered _ _ _ _ _ hcoherent hmount.restored hover hdata
  · refine .registered hwild (fun hlays => absurd hlays.2.2 hover) ⟨hputs, hdeletes⟩ ?_
    refine held_materialize_of_not _ _ _ _ _ hcoherent key fun f _ hf hcovers => ?_
    obtain rfl : full = f := Option.some.inj (hmount.restored.symm.trans hf)
    exact absurd hcovers hover

theorem seen_concrete (hcoherent : Coherent s) (hmount : Mount s.stripPrefix key full) {u : Capture}
    (hwild : KeyexprMatch.isWild u.1.keyexpr = false)
    (hkeyed : keyed s.stripPrefix (.sample u.1 u.2) = true) :
    Seen s key full u (s.applySample u.1 u.2) := by
  have hmounted := mounted_sampleSteps hkeyed
  rw [applySample_eq_steps]
  unfold sampleSteps at hmounted ⊢
  simp only [hwild, Bool.false_eq_true, if_false] at hmounted ⊢
  by_cases hkey : u.1.keyexpr = full
  · have hstored : s.storedKeyFor u.1.keyexpr = some key := by
      simp [StorageState.storedKeyFor, hkey, hmount.stored]
    rw [hstored]
    refine .own hkey ?_ ?_
    · exact step_concrete_rest s key (some u.1.keyexpr) u.1.kind (stampOf u) u.1.payload u.1.encoding
    · refine (held_applyOne key u.1.keyexpr u.1.kind (stampOf u) u.1.payload u.1.encoding hcoherent
        key).trans ?_
      rw [if_pos rfl, hkey]
      rfl
  · rcases hstored : s.storedKeyFor u.1.keyexpr with _ | stored <;> rw [hstored] at hmounted
    · exact .other hkey hwild ⟨rfl, rfl⟩ rfl
    · refine .other hkey hwild ?_ ?_
      · exact step_concrete_rest s stored (some u.1.keyexpr) u.1.kind (stampOf u) u.1.payload
          u.1.encoding
      · refine (held_applyOne stored u.1.keyexpr u.1.kind (stampOf u) u.1.payload u.1.encoding
          hcoherent key).trans (if_neg ?_)
        rintro rfl
        have hrestored : KeyexprPrefix.restorePrefix s.stripPrefix stored = some u.1.keyexpr :=
          hmounted (.concrete stored (some u.1.keyexpr) u.1.kind (stampOf u) u.1.payload
            u.1.encoding) (List.mem_singleton.mpr rfl)
        exact hkey (Option.some.inj (hrestored.symm.trans hmount.restored))

theorem seen_capture (hcoherent : Coherent s) (hmount : Mount s.stripPrefix key full) {u : Capture}
    (hkeyed : keyed s.stripPrefix (.sample u.1 u.2) = true) :
    Seen s key full u (s.applySample u.1 u.2) := by
  rcases hwild : KeyexprMatch.isWild u.1.keyexpr with _ | _
  · exact seen_concrete hcoherent hmount hwild hkeyed
  · exact seen_wildcard hcoherent hmount hwild

end Seen

def From (full : Bytes) (past : List Capture) (b : Held) : Prop :=
  (∃ u ∈ past, u.1.keyexpr = full ∧ b = heldBy u) ∨
    (∃ w ∈ past, Lays full .put w ∧ b = heldBy w) ∨
    ∃ d ∈ past, Lays full .del d ∧ b.timestamp = stampOf d

/-- The registered wildcards are captures of the past. -/
def RegisteredFrom (past : List Capture) (s : Memory) : Prop :=
  ∀ kind (keyexpr : Bytes) wu, (registry s kind)[keyexpr]? = some wu →
    ∃ u ∈ past, KeyexprMatch.isWild u.1.keyexpr = true ∧ u.1.keyexpr = keyexpr ∧ u.1.kind = kind ∧
      wu.data = heldData u

omit [FingerprintHash] in
theorem RegisteredFrom.covering {past : List Capture} {s : Memory} (h : RegisteredFrom past s)
    {full : Bytes} {kind : SampleKind} {wu : WildcardUpdate}
    (hwu : Covering (registry s kind) full wu) :
    ∃ u ∈ past, Lays full kind u ∧ wu.data = heldData u := by
  obtain ⟨keyexpr, hke, hover⟩ := hwu
  obtain ⟨u, hu, hwild, rfl, hkind, hdata⟩ := h kind keyexpr wu hke
  exact ⟨u, hu, ⟨hwild, hkind, hover⟩, hdata⟩

omit [FingerprintHash] in
theorem from_laidBy {past : List Capture} {s : Memory} (hkinds : Kinds s)
    (hregistered : RegisteredFrom past s) {full : Bytes} {u : Capture} (hu : u ∈ past)
    (hlays : u.1.keyexpr = full ∨ Lays full u.1.kind u) : From full past (laidBy s full u) := by
  have hown : laidBy s full u = heldBy u → From full past (laidBy s full u) := by
    intro heq
    rw [heq]
    rcases hlays with hkey | hlays
    · exact .inl ⟨u, hu, hkey, rfl⟩
    · rcases hkind : u.1.kind with _ | _ <;> rw [hkind] at hlays
      · exact .inr (.inl ⟨u, hu, hlays, rfl⟩)
      · exact .inr (.inr ⟨u, hu, hlays, by simp [heldBy, heldOf]⟩)
  unfold laidBy at hown ⊢
  rcases hkind : u.1.kind with _ | _ <;> rw [hkind] at hown
  · rcases laid_put_cases hkinds full (stampOf u) u.1.payload u.1.encoding with
      ⟨wu, hwu, -, -, hlaid⟩ | ⟨-, wu, hwu, -, -, hlaid⟩ | ⟨-, -, hlaid⟩
    · obtain ⟨d, hd, hlays, hdata⟩ := @RegisteredFrom.covering past s hregistered full .del wu hwu
      exact .inr (.inr ⟨d, hd, hlays, by rw [hlaid, hdata]; rfl⟩)
    · obtain ⟨w, hw, hlays, hdata⟩ := @RegisteredFrom.covering past s hregistered full .put wu hwu
      refine .inr (.inl ⟨w, hw, hlays, ?_⟩)
      rw [hlaid, hdata, heldBy, hlays.2.1]
      rfl
    · exact hown (by rw [hlaid, heldBy, hkind]; rfl)
  · rcases laid_del_cases hkinds full (stampOf u) u.1.payload u.1.encoding with
      ⟨wu, hwu, -, -, hlaid⟩ | ⟨-, hlaid⟩
    · obtain ⟨d, hd, hlays, hdata⟩ := @RegisteredFrom.covering past s hregistered full .del wu hwu
      exact .inr (.inr ⟨d, hd, hlays, by rw [hlaid, hdata]; rfl⟩)
    · exact hown (by rw [hlaid, heldBy, hkind]; rfl)

/-- What is known of a key and of the registries after some captures. -/
structure Tracked (stripPrefix key : Option Bytes) (full : Bytes) (past : List Capture) (s : Memory) :
    Prop where
  coherent : Coherent s
  kinds : Kinds s
  mounted : s.stripPrefix = stripPrefix
  registered : RegisteredFrom past s
  source : ∀ b, held s key = some b → From full past b
  newest : ∀ u ∈ past, u.1.keyexpr = full → AtLeast heldStamp (timeOf u) (held s key)

section Past

variable {stripPrefix key : Option Bytes} {full : Bytes} {past : List Capture} {s : Memory}

omit [FingerprintHash] in
theorem From.append {b : Held} (h : From full past b) (u : Capture) : From full (past ++ [u]) b := by
  rcases h with ⟨v, hv, hkey, hb⟩ | ⟨w, hw, hlays, hb⟩ | ⟨d, hd, hlays, hb⟩
  · exact .inl ⟨v, by simp [hv], hkey, hb⟩
  · exact .inr (.inl ⟨w, by simp [hw], hlays, hb⟩)
  · exact .inr (.inr ⟨d, by simp [hd], hlays, hb⟩)

omit [FingerprintHash] in
theorem RegisteredFrom.congr {s' : Memory} (h : RegisteredFrom past s)
    (hregistries : s'.wildcardPuts = s.wildcardPuts ∧ s'.wildcardDeletes = s.wildcardDeletes) :
    RegisteredFrom past s' := by
  intro kind keyexpr wu hwu
  have hregistry : registry s' kind = registry s kind := by
    cases kind
    · exact hregistries.1
    · exact hregistries.2
  exact h kind keyexpr wu (hregistry ▸ hwu)

omit [FingerprintHash] in
theorem RegisteredFrom.append (h : RegisteredFrom past s) (u : Capture) :
    RegisteredFrom (past ++ [u]) s := by
  intro kind keyexpr wu hwu
  obtain ⟨v, hv, hrest⟩ := h kind keyexpr wu hwu
  exact ⟨v, by simp [hv], hrest⟩

theorem getElem?_registerCapture (s : Memory) (u : Capture) (kind : SampleKind) (keyexpr : Bytes) :
    (registry (registerCapture s u) kind)[keyexpr]? =
      if u.1.keyexpr = keyexpr ∧ u.1.kind = kind then some ⟨u.1.kind, heldData u⟩
      else (registry s kind)[keyexpr]? := by
  by_cases hke : u.1.keyexpr = keyexpr <;> rcases hkind : u.1.kind with _ | _ <;> cases kind <;>
    simp [registerCapture, StorageState.registerWildcardUpdate, registry, hkind, hke, heldData,
      ExtTreeMap.getElem?_insert]

theorem RegisteredFrom.register (h : RegisteredFrom past s) {u : Capture}
    (hwild : KeyexprMatch.isWild u.1.keyexpr = true) :
    RegisteredFrom (past ++ [u]) (registerCapture s u) := by
  intro kind keyexpr wu hwu
  rw [getElem?_registerCapture] at hwu
  split_ifs at hwu with heq
  · exact ⟨u, by simp, hwild, heq.1, heq.2, by rw [← Option.some.inj hwu]⟩
  · exact h.append u kind keyexpr wu hwu

omit [FingerprintHash] in
theorem from_offer {held : Option Held} {a b : Held} (hheld : ∀ c, held = some c → From full past c)
    (ha : From full past a) (hb : offer heldStamp held a = some b) : From full past b := by
  rcases eq_or_kept_of_offer hb with rfl | ⟨hkept, -⟩
  · exact ha
  · exact hheld b hkept

theorem kinds_registerCapture (h : Kinds s) (u : Capture) : Kinds (registerCapture s u) :=
  kinds_register _ _ _ _ _ h

theorem Tracked.capture (h : Tracked stripPrefix key full past s)
    (hmount : Mount stripPrefix key full) {u : Capture}
    (hkeyed : keyed stripPrefix (.sample u.1 u.2) = true) :
    Tracked stripPrefix key full (past ++ [u]) (s.applySample u.1 u.2) := by
  have hseen : Seen s key full u (s.applySample u.1 u.2) := by
    refine seen_capture h.coherent ?_ ?_
    · rwa [h.mounted]
    · rwa [h.mounted]
  have hpast : ∀ b, held s key = some b → From full (past ++ [u]) b :=
    fun b hb => (h.source b hb).append u
  have hcoherent : Coherent (s.applySample u.1 u.2) := by
    rw [applySample_eq_steps]
    exact List.foldlRecOn _ step h.coherent fun s hs st _ => coherent_step hs st
  have hkinds : Kinds (s.applySample u.1 u.2) := by
    rw [applySample_eq_steps]
    exact List.foldlRecOn _ step h.kinds fun s hs st _ => kinds_step hs st
  have hmounted : (s.applySample u.1 u.2).stripPrefix = stripPrefix := by
    rw [applySample_eq_steps, stripPrefix_foldl_step, h.mounted]
  have hold : ∀ v ∈ past ++ [u], v.1.keyexpr = full → v ∈ past ∨ v = u := by
    intro v hv _
    simpa using hv
  cases hseen with
  | own hkey hregistries hheld =>
    refine ⟨hcoherent, hkinds, hmounted, (h.registered.append u).congr hregistries, ?_, ?_⟩
    · intro b hb
      exact from_offer hpast (from_laidBy h.kinds (h.registered.append u) (by simp) (.inl hkey))
        (hheld ▸ hb)
    · intro v hv hvkey
      rw [hheld]
      rcases hold v hv hvkey with hv | rfl
      · exact (h.newest v hv hvkey).offer _
      · obtain ⟨b, hb, hle⟩ := @atLeast_offer_self _ _ _ heldStamp (held s key) (laidBy s full v)
        exact ⟨b, hb, (le_heldStamp_laid h.kinds full (stampOf v) _ _ v.1.kind).trans hle⟩
  | other hkey hwild hregistries hheld =>
    refine ⟨hcoherent, hkinds, hmounted, (h.registered.append u).congr hregistries, ?_, ?_⟩
    · rw [hheld]
      exact hpast
    · intro v hv hvkey
      rw [hheld]
      rcases hold v hv hvkey with hv | rfl
      · exact h.newest v hv hvkey
      · exact absurd hvkey hkey
  | laidOver hlays hvisible hregistries hheld =>
    have hregistered := h.registered.register hlays.1
    refine ⟨hcoherent, hkinds, hmounted, hregistered.congr hregistries, ?_, ?_⟩
    · intro b hb
      exact from_offer hpast (from_laidBy (kinds_registerCapture h.kinds u) hregistered (by simp)
        (.inr hlays)) (hheld ▸ hb)
    · intro v hv hvkey
      rw [hheld]
      rcases hold v hv hvkey with hv | rfl
      · exact (h.newest v hv hvkey).offer _
      · exact absurd hlays.1 (by simp [hvkey, hmount.nonwild])
  | registered hwild hhidden hregistries hheld =>
    refine ⟨hcoherent, hkinds, hmounted, (h.registered.register hwild).congr hregistries, ?_, ?_⟩
    · rw [hheld]
      exact hpast
    · intro v hv hvkey
      rw [hheld]
      rcases hold v hv hvkey with hv | rfl
      · exact h.newest v hv hvkey
      · exact absurd hwild (by simp [hvkey, hmount.nonwild])

omit [FingerprintHash] in
theorem tracked_empty : Tracked stripPrefix key full [] (.empty .new stripPrefix) := by
  refine ⟨fun key => ?_, ⟨?_, ?_⟩, rfl, ?_, ?_, ?_⟩
  · simp [RecordAgrees, StorageState.empty, MemoryStorage.new]
  · simp [StorageState.empty]
  · simp [StorageState.empty]
  · intro kind keyexpr wu hwu
    cases kind <;> simp [registry, StorageState.empty] at hwu
  · simp [held, StorageState.empty]
  · simp

theorem tracked_captureAll (hmount : Mount stripPrefix key full) (us : List Capture)
    (hkeyed : ∀ u ∈ us, keyed stripPrefix (.sample u.1 u.2) = true) :
    Tracked stripPrefix key full us (captureAll (.empty .new stripPrefix) us) := by
  induction us using List.reverseRecOn with
  | nil => exact tracked_empty
  | append_singleton us u ih =>
    rw [captureAll_concat]
    exact (ih fun v hv => hkeyed v (by simp [hv])).capture hmount (hkeyed u (by simp))

end Past

end WatchingZenoh.StorageCaptures
