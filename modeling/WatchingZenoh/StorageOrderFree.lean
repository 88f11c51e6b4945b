import WatchingZenoh.StorageCaptures

/-! When the order of captures does not matter to a key. A wildcard delete newer than everything concrete
leaves a tombstone or an empty value, by whether it finds the key or the key finds it; a wildcard put is
lost to an older one of its key expression, or brings a deleted key back. Without those, every order
ends with the same: the newest capture of the key, or the newest wildcard put over it. -/

namespace WatchingZenoh.StorageOrderFree

open Timestamp Backend StorageReplication StorageReplica StorageCalls StorageHeld
open StorageOverride StorageLaid StorageRegistry StorageSteps StorageCaptures Newest
open Std (ExtTreeMap)

/-- With `x` the newest capture of the key: no covering wildcard delete is newer, and if a covering
wildcard put is, the newest such is the only put on its key expression, or, where `x` is a delete, the
key is never put. -/
def OrderFree (us : List Capture) (full : Bytes) : Prop :=
  ∃ x ∈ us, x.1.keyexpr = full ∧ (∀ u ∈ us, u.1.keyexpr = full → timeOf u ≤ timeOf x) ∧
    (∀ d ∈ us, Lays full .del d → timeOf d < timeOf x) ∧
    ∀ w ∈ us, Lays full .put w → timeOf x < timeOf w →
      (∀ v ∈ us, Lays full .put v → timeOf v ≤ timeOf w) →
      match x.1.kind with
      | .put => ∀ v ∈ us, v.1.kind = .put → v.1.keyexpr = w.1.keyexpr → v = w
      | .del => ∀ u ∈ us, u.1.keyexpr = full → u.1.kind = .del

variable [FingerprintHash] {stripPrefix key : Option Bytes} {full : Bytes}

section Raised

variable {all past : List Capture} {x w : Capture} {s : Memory}

/-- The newest capture of the key is a put, and no covering wildcard delete is newer. -/
structure PutNewest (full : Bytes) (all : List Capture) (x : Capture) : Prop where
  key : x.1.keyexpr = full
  put : x.1.kind = .put
  newest : ∀ u ∈ all, u.1.keyexpr = full → timeOf u ≤ timeOf x
  deletes : ∀ d ∈ all, Lays full .del d → timeOf d < timeOf x
  distinct : ∀ u ∈ all, ∀ v ∈ all, timeOf u = timeOf v → u = v
  here : x ∈ all

/-- The assumptions under which a newest put `x` of the key ends under the wildcard put `w`. -/
structure Overlaid (full : Bytes) (all : List Capture) (x w : Capture) : Prop extends
    PutNewest full all x where
  lays : Lays full .put w
  newer : timeOf x < timeOf w
  unique : ∀ v ∈ all, v.1.kind = .put → v.1.keyexpr = w.1.keyexpr → v = w

omit [FingerprintHash] in
theorem PutNewest.visible (h : PutNewest full all x) (hpast : past ⊆ all) {b : Held}
    (hsource : From full past b) (hle : timeOf x ≤ heldStamp b) : b.content ≠ none := by
  rcases hsource with ⟨u, hu, hkey, rfl⟩ | ⟨v, -, hlays, rfl⟩ | ⟨d, hd, hlays, hstamp⟩
  · obtain rfl := h.distinct u (hpast hu) x h.here (le_antisymm (h.newest u (hpast hu) hkey) hle)
    simp [heldBy, heldOf, h.put]
  · simp [heldBy, heldOf, hlays.2.1]
  · rw [heldStamp, hstamp] at hle
    exact absurd hle (h.deletes d (hpast hd) hlays).not_ge

omit [FingerprintHash] in
theorem le_laidBy_put (hkinds : Kinds s) (hregistered : RegisteredFrom past s)
    (hput : x.1.kind = .put) (hdeletes : ∀ d ∈ past, Lays full .del d → timeOf d < timeOf x)
    (hlays : Lays full .put w) (hnewer : timeOf x < timeOf w)
    (hw : s.wildcardPuts[w.1.keyexpr]? = some ⟨.put, heldData w⟩) :
    timeOf w ≤ heldStamp (laidBy s full x) := by
  have hcovering : Covering s.wildcardPuts full ⟨.put, heldData w⟩ := ⟨_, hw, hlays.2.2⟩
  unfold laidBy
  rw [hput]
  rcases laid_put_cases hkinds full (stampOf x) x.1.payload x.1.encoding with
    ⟨wu, hwu, hle, -, -⟩ | ⟨-, wu, -, -, hnewest, hlaid⟩ | ⟨-, hputs, -⟩
  · obtain ⟨d, hd, hlays, hdata⟩ := @RegisteredFrom.covering past s hregistered full .del wu hwu
    have hlt := hdeletes d hd hlays
    rw [timeOf, show stampOf d = wu.data.timestamp by rw [hdata]; rfl] at hlt
    exact absurd hle hlt.not_ge
  · rw [hlaid]
    exact hnewest _ hcovering
  · exact absurd (hputs _ hcovering) hnewer.not_gt

/-- Once registered, `w` stays, and once `x` is there too, the key holds nothing older than `w`. -/
def Raised (key : Option Bytes) (past : List Capture) (x w : Capture) (s : Memory) : Prop :=
  (w ∈ past → s.wildcardPuts[w.1.keyexpr]? = some ⟨.put, heldData w⟩) ∧
    (x ∈ past → w ∈ past → AtLeast heldStamp (timeOf w) (held s key))

theorem raised_registered (h : Overlaid full all x w) {u : Capture} {s' : Memory} (hu : u ∈ all)
    (hraised : w ∈ past → s.wildcardPuts[w.1.keyexpr]? = some ⟨.put, heldData w⟩)
    (hputs : s'.wildcardPuts = (registerCapture s u).wildcardPuts) (hw : w ∈ past ++ [u]) :
    s'.wildcardPuts[w.1.keyexpr]? = some ⟨.put, heldData w⟩ := by
  have hregistered := getElem?_registerCapture s u .put w.1.keyexpr
  rw [hputs]
  refine hregistered.trans ?_
  split_ifs with heq
  · rw [h.unique u hu heq.2 heq.1, h.lays.2.1]
  · rcases List.mem_append.mp hw with hw | hw
    · exact hraised hw
    · rw [List.mem_singleton] at hw
      exact absurd ⟨by rw [hw], hw ▸ h.lays.2.1⟩ heq

theorem raised_capture (h : Overlaid full all x w) (hmount : Mount stripPrefix key full)
    (htracked : Tracked stripPrefix key full past s) (hraised : Raised key past x w s) {u : Capture}
    (hpast : past ⊆ all) (hu : u ∈ all) (hkeyed : keyed stripPrefix (.sample u.1 u.2) = true) :
    Raised key (past ++ [u]) x w (s.applySample u.1 u.2) := by
  have hseen : Seen s key full u (s.applySample u.1 u.2) := by
    refine seen_capture htracked.coherent ?_ ?_
    · rwa [htracked.mounted]
    · rwa [htracked.mounted]
  have hold : ∀ {v : Capture}, v ∈ past ++ [u] → v ∈ past ∨ v = u := by simp
  have hwild := h.lays.1
  cases hseen with
  | own hkey hregistries hheld =>
    have hwu : w ≠ u := by
      rintro rfl
      rw [hkey, hmount.nonwild] at hwild
      simp at hwild
    refine ⟨fun hw => ?_, fun hx hw => ?_⟩
    · rw [hregistries.1]
      exact hraised.1 ((hold hw).resolve_right hwu)
    · have hin := (hold hw).resolve_right hwu
      rw [hheld]
      rcases hold hx with hx | rfl
      · exact (hraised.2 hx hin).offer _
      · obtain ⟨b, hb, hle⟩ := @atLeast_offer_self _ _ _ heldStamp (held s key) (laidBy s full x)
        have hge := le_laidBy_put htracked.kinds htracked.registered h.put
          (fun d hd => h.deletes d (hpast hd)) h.lays h.newer (hraised.1 hin)
        exact ⟨b, hb, hge.trans hle⟩
  | other hkey hnot hregistries hheld =>
    have hwu : w ≠ u := by
      rintro rfl
      simp [hwild] at hnot
    have hxu : x ≠ u := by
      rintro rfl
      exact hkey h.key
    refine ⟨fun hw => ?_, fun hx hw => ?_⟩
    · rw [hregistries.1]
      exact hraised.1 ((hold hw).resolve_right hwu)
    · rw [hheld]
      exact hraised.2 ((hold hx).resolve_right hxu) ((hold hw).resolve_right hwu)
  | laidOver hlays hvisible hregistries hheld =>
    refine ⟨raised_registered h hu hraised.1 hregistries.1, fun hx hw => ?_⟩
    have hxu : x ≠ u := by
      rintro rfl
      simp [Lays, h.key, hmount.nonwild] at hlays
    rw [hheld]
    rcases hold hw with hw | rfl
    · exact (hraised.2 ((hold hx).resolve_right hxu) hw).offer _
    · obtain ⟨b, hb, hle⟩ := @atLeast_offer_self _ _ _ heldStamp (held s key)
        (laidBy (registerCapture s w) full w)
      have hkinds := kinds_registerCapture htracked.kinds w
      exact ⟨b, hb, (le_heldStamp_laid hkinds full (stampOf w) _ _ w.1.kind).trans hle⟩
  | registered hnot hhidden hregistries hheld =>
    refine ⟨raised_registered h hu hraised.1 hregistries.1, fun hx hw => ?_⟩
    have hxu : x ≠ u := by
      rintro rfl
      simp [h.key, hmount.nonwild] at hnot
    have hin := (hold hx).resolve_right hxu
    rw [hheld]
    rcases hold hw with hw | rfl
    · exact hraised.2 hin hw
    · -- `x` is there, so the key is visible and the wildcard would have been laid over it
      obtain ⟨b, hb, hle⟩ := htracked.newest x hin h.key
      have hlays : Lays full w.1.kind w := ⟨hwild, rfl, h.lays.2.2⟩
      exact absurd (hhidden hlays b hb) (h.visible hpast (htracked.source b hb) hle)

theorem raised_captureAll (h : Overlaid full all x w) (hmount : Mount stripPrefix key full)
    (us : List Capture) (hus : us ⊆ all)
    (hkeyed : ∀ u ∈ us, keyed stripPrefix (.sample u.1 u.2) = true) :
    Raised key us x w (captureAll (.empty .new stripPrefix) us) := by
  induction us using List.reverseRecOn with
  | nil => exact ⟨by simp, by simp⟩
  | append_singleton us u ih =>
    have hprev : us ⊆ all := fun v hv => hus (by simp [hv])
    have hkeyed' : ∀ v ∈ us, keyed stripPrefix (.sample v.1 v.2) = true :=
      fun v hv => hkeyed v (by simp [hv])
    rw [captureAll_concat]
    exact raised_capture h hmount (tracked_captureAll hmount us hkeyed') (ih hprev hkeyed') hprev
      (hus (by simp)) (hkeyed u (by simp))

end Raised

theorem hidden_captureAll (hmount : Mount stripPrefix key full) (us : List Capture)
    (hkeyed : ∀ u ∈ us, keyed stripPrefix (.sample u.1 u.2) = true)
    (hdeletes : ∀ u ∈ us, u.1.keyexpr = full → u.1.kind = .del) (b : Held)
    (hb : held (captureAll (.empty .new stripPrefix) us) key = some b) : b.content = none := by
  induction us using List.reverseRecOn generalizing b with
  | nil => simp [captureAll, held, StorageState.empty] at hb
  | append_singleton us u ih =>
    have hkeyed' : ∀ v ∈ us, keyed stripPrefix (.sample v.1 v.2) = true :=
      fun v hv => hkeyed v (by simp [hv])
    have htracked := tracked_captureAll hmount us hkeyed'
    have hold := ih hkeyed' fun v hv => hdeletes v (by simp [hv])
    have hseen : Seen (captureAll (.empty .new stripPrefix) us) key full u
        ((captureAll (.empty .new stripPrefix) us).applySample u.1 u.2) := by
      refine seen_capture htracked.coherent ?_ ?_
      · rwa [htracked.mounted]
      · rw [htracked.mounted]
        exact hkeyed u (by simp)
    rw [captureAll_concat] at hb
    cases hseen with
    | own hkey hregistries hheld =>
      rw [hheld] at hb
      have hcontent : (laidBy (captureAll (.empty .new stripPrefix) us) full u).content = none :=
        (laid_content htracked.kinds full _ _ _ u.1.kind).mpr (hdeletes u (by simp) hkey)
      rcases eq_or_kept_of_offer hb with rfl | ⟨hkept, -⟩
      · exact hcontent
      · exact hold b hkept
    | other hkey hnot hregistries hheld => exact hold b (hheld ▸ hb)
    | laidOver hlays hvisible hregistries hheld =>
      obtain ⟨c, hc, hcontent⟩ := hvisible
      exact absurd (hold c hc) hcontent
    | registered hwild hhidden hregistries hheld => exact hold b (hheld ▸ hb)

section Winner

variable {us : List Capture} {x w : Capture} {b : Held}

omit [FingerprintHash] in
theorem eq_heldBy_own (hx : x ∈ us) (hdistinct : ∀ u ∈ us, ∀ v ∈ us, timeOf u = timeOf v → u = v)
    (hnewest : ∀ u ∈ us, u.1.keyexpr = full → timeOf u ≤ timeOf x)
    (hdeletes : ∀ d ∈ us, Lays full .del d → timeOf d < timeOf x)
    (hputs : ∀ v ∈ us, Lays full .put v → b = heldBy v → timeOf v < timeOf x)
    (hsource : From full us b) (hle : timeOf x ≤ heldStamp b) : b = heldBy x := by
  rcases hsource with ⟨u, hu, hkey, rfl⟩ | ⟨v, hv, hlays, rfl⟩ | ⟨d, hd, hlays, hstamp⟩
  · rw [hdistinct u hu x hx (le_antisymm (hnewest u hu hkey) hle)]
  · exact absurd hle (hputs v hv hlays rfl).not_ge
  · rw [heldStamp, hstamp] at hle
    exact absurd hle (hdeletes d hd hlays).not_ge

omit [FingerprintHash] in
theorem eq_heldBy_wildcard (hw : w ∈ us)
    (hdistinct : ∀ u ∈ us, ∀ v ∈ us, timeOf u = timeOf v → u = v)
    (hnewest : ∀ u ∈ us, u.1.keyexpr = full → timeOf u < timeOf w)
    (hdeletes : ∀ d ∈ us, Lays full .del d → timeOf d < timeOf w)
    (hputs : ∀ v ∈ us, Lays full .put v → timeOf v ≤ timeOf w)
    (hsource : From full us b) (hle : timeOf w ≤ heldStamp b) : b = heldBy w := by
  rcases hsource with ⟨u, hu, hkey, rfl⟩ | ⟨v, hv, hlays, rfl⟩ | ⟨d, hd, hlays, hstamp⟩
  · exact absurd hle (hnewest u hu hkey).not_ge
  · rw [hdistinct v hv w hw (le_antisymm (hputs v hv hlays) hle)]
  · rw [heldStamp, hstamp] at hle
    exact absurd hle (hdeletes d hd hlays).not_ge

omit [FingerprintHash] in
theorem exists_newest_put (hw : w ∈ us) (hlays : Lays full .put w) :
    ∃ v ∈ us, Lays full .put v ∧ timeOf w ≤ timeOf v ∧
      ∀ u ∈ us, Lays full .put u → timeOf u ≤ timeOf v := by
  have hne : (us.toFinset.filter (Lays full .put)).Nonempty := ⟨w, by simp [hw, hlays]⟩
  obtain ⟨v, hv, hmax⟩ := Finset.exists_max_image _ timeOf hne
  simp only [Finset.mem_filter, List.mem_toFinset] at hv hmax
  exact ⟨v, hv.1, hv.2, hmax w ⟨hw, hlays⟩, fun u hu hu' => hmax u ⟨hu, hu'⟩⟩

omit [FingerprintHash] in
theorem from_of_same {vs : List Capture} (h : From full vs b) (hsame : ∀ u, u ∈ us ↔ u ∈ vs) :
    From full us b := by
  simpa only [From, hsame] using h

theorem held_of_orderFree (hmount : Mount stripPrefix key full)
    (hdistinct : ∀ u ∈ us, ∀ v ∈ us, timeOf u = timeOf v → u = v) (hfree : OrderFree us full) :
    ∃ b, ∀ vs : List Capture, (∀ u, u ∈ us ↔ u ∈ vs) →
      (∀ u ∈ us, keyed stripPrefix (.sample u.1 u.2) = true) →
      held (captureAll (.empty .new stripPrefix) vs) key = some b := by
  obtain ⟨x, hx, hkey, hnewest, hdeletes, hputs⟩ := hfree
  have hends : ∀ vs : List Capture, (∀ u, u ∈ us ↔ u ∈ vs) →
      (∀ u ∈ us, keyed stripPrefix (.sample u.1 u.2) = true) →
      ∃ b, held (captureAll (.empty .new stripPrefix) vs) key = some b ∧ From full us b ∧
        timeOf x ≤ heldStamp b := by
    intro vs hsame hkeyed
    have htracked := tracked_captureAll hmount vs fun u hu => hkeyed u ((hsame u).mpr hu)
    obtain ⟨b, hb, hle⟩ := htracked.newest x ((hsame x).mp hx) hkey
    exact ⟨b, hb, from_of_same (htracked.source b hb) hsame, hle⟩
  by_cases hnewer : ∃ w ∈ us, Lays full .put w ∧ timeOf x < timeOf w
  · obtain ⟨w₀, hw₀, hlays₀, hlt₀⟩ := hnewer
    obtain ⟨w, hw, hlays, hle₀, hmax⟩ := exists_newest_put hw₀ hlays₀
    have hlt := hlt₀.trans_le hle₀
    have hcase := hputs w hw hlays hlt hmax
    rcases hkind : x.1.kind with _ | _ <;> rw [hkind] at hcase
    · have hover : Overlaid full us x w :=
        ⟨⟨hkey, hkind, hnewest, hdeletes, hdistinct, hx⟩, hlays, hlt, hcase⟩
      refine ⟨heldBy w, fun vs hsame hkeyed => ?_⟩
      obtain ⟨b, hb, hsource, -⟩ := hends vs hsame hkeyed
      obtain ⟨b', hb', hle⟩ := (raised_captureAll hover hmount vs (fun u hu => (hsame u).mpr hu)
        fun u hu => hkeyed u ((hsame u).mpr hu)).2 ((hsame x).mp hx) ((hsame w).mp hw)
      obtain rfl : b = b' := Option.some.inj (hb.symm.trans hb')
      rw [hb, eq_heldBy_wildcard hw hdistinct (fun u hu hu' => (hnewest u hu hu').trans_lt hlt)
        (fun d hd hd' => (hdeletes d hd hd').trans hlt) hmax hsource hle]
    · refine ⟨heldBy x, fun vs hsame hkeyed => ?_⟩
      obtain ⟨b, hb, hsource, hle⟩ := hends vs hsame hkeyed
      have hcontent := hidden_captureAll hmount vs (fun u hu => hkeyed u ((hsame u).mpr hu))
        (fun u hu => hcase u ((hsame u).mpr hu)) b hb
      rw [hb, eq_heldBy_own hx hdistinct hnewest hdeletes (fun v _ hlays hbv => ?_) hsource hle]
      rw [hbv] at hcontent
      simp [heldBy, heldOf, hlays.2.1] at hcontent
  · push Not at hnewer
    refine ⟨heldBy x, fun vs hsame hkeyed => ?_⟩
    obtain ⟨b, hb, hsource, hle⟩ := hends vs hsame hkeyed
    rw [hb, eq_heldBy_own hx hdistinct hnewest hdeletes (fun v hv hlays _ => ?_) hsource hle]
    refine lt_of_le_of_ne (hnewer v hv hlays) fun heq => ?_
    obtain rfl := hdistinct v hv x hx heq
    simp [Lays, hkey, hmount.nonwild] at hlays

end Winner

omit [FingerprintHash] in
theorem mount_of_named {us : List Capture} (hnonwild : KeyexprMatch.isWild full = false)
    (hstored : KeyexprPrefix.stripPrefix stripPrefix full = .ok (.ok key))
    (hkeyed : ∀ u ∈ us, keyed stripPrefix (.sample u.1 u.2) = true)
    (hnamed : ∃ u ∈ us, u.1.keyexpr = full) : Mount stripPrefix key full := by
  refine ⟨hnonwild, hstored, ?_⟩
  obtain ⟨u, hu, rfl⟩ := hnamed
  rcases stripPrefix with _ | pre
  · obtain rfl : some u.1.keyexpr = key := Except.ok.inj (Except.ok.inj hstored)
    rfl
  · refine KeyexprPrefixRoundTrip.restorePrefix_of_plain (fun hin => ?_) ?_ hstored
    · have hwild : KeyexprMatch.isWild u.1.keyexpr = true :=
        List.any_eq_true.mpr ⟨star, hin, by simp⟩
      simp [hwild] at hnonwild
    · simpa [keyed, hnonwild] using hkeyed u hu

end WatchingZenoh.StorageOrderFree
