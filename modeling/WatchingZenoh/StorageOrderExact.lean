import WatchingZenoh.StorageOrderBound

/-! The keys on which all orders of a set of captures agree are exactly the order-free ones. -/

namespace WatchingZenoh.StorageOrderExact

open Timestamp Backend StorageReplication StorageReplica StorageCalls StorageHeld
open StorageSteps StorageCaptures StorageOrderFree StorageOrderBound Newest
open Std (ExtTreeMap)

variable [FingerprintHash]

/-- Any two orders of the captures, from an empty storage, leave the same record and the same value. -/
def Agree (stripPrefix : Option Bytes) (us : List Capture) (key : Option Bytes) : Prop :=
  ∀ vs ws : List Capture, us.Perm vs → us.Perm ws →
    let s : Memory := .empty .new stripPrefix
    (captureAll s vs).latest[key]? = (captureAll s ws).latest[key]? ∧
      (captureAll s vs).backend.map[key]? = (captureAll s ws).backend.map[key]?

section Exact

variable {stripPrefix key : Option Bytes} {full : Bytes} {us cs ws : List Capture} {x : Capture}

theorem Agree.held (h : Agree stripPrefix us key) {vs ws : List Capture} (hvs : us.Perm vs)
    (hws : us.Perm ws) :
    held (captureAll (.empty .new stripPrefix) vs) key =
      held (captureAll (.empty .new stripPrefix) ws) key := by
  obtain ⟨hlatest, hbackend⟩ := h vs ws hvs hws
  simp only [StorageHeld.held, hlatest, hbackend]

omit [FingerprintHash] in
theorem exists_parted (hnodup : us.Nodup)
    (hdistinct : ∀ u ∈ us, ∀ v ∈ us, timeOf u = timeOf v → u = v)
    (hnonwild : KeyexprMatch.isWild full = false) (hnamed : ∃ u ∈ us, u.1.keyexpr = full) :
    ∃ cs ws x, Parted full us cs ws x := by
  obtain ⟨u₀, hu₀, hkey₀⟩ := hnamed
  have hne : (us.toFinset.filter fun u => u.1.keyexpr = full).Nonempty :=
    ⟨u₀, by simp [hu₀, hkey₀]⟩
  obtain ⟨x, hx, hmax⟩ := Finset.exists_max_image _ timeOf hne
  simp only [Finset.mem_filter, List.mem_toFinset] at hx hmax
  refine ⟨us.filter fun u => !KeyexprMatch.isWild u.1.keyexpr,
    us.filter fun u => KeyexprMatch.isWild u.1.keyexpr, x, hnodup, ?_, ?_, ?_, hx.2, ?_, ?_,
    hdistinct⟩
  · have hperm := List.filter_append_perm (fun u : Capture => !KeyexprMatch.isWild u.1.keyexpr) us
    simpa using hperm.symm
  · intro u hu
    simpa using (List.mem_filter.mp hu).2
  · exact fun u hu => (List.mem_filter.mp hu).2
  · simp [hx.1, hx.2, hnonwild]
  · exact fun u hu hkey => hmax u ⟨hu, hkey⟩

variable (hmount : Mount stripPrefix key full) (h : Parted full us cs ws x)
  (hkeyed : ∀ u ∈ us, keyed stripPrefix (.sample u.1 u.2) = true)
  (hagree : Agree stripPrefix us key)
include hmount h hkeyed hagree

theorem deletes_older_of_agree {d : Capture} (hd : d ∈ us) (hlays : Lays full .del d) :
    timeOf d < timeOf x := by
  by_contra hnot
  have hne : timeOf x ≠ timeOf d := by
    intro heq
    obtain rfl := h.distinct x (h.mem_of_concrete h.here) d hd heq
    simp [Lays, h.key, hmount.nonwild] at hlays
  have hnewer : timeOf x < timeOf d := lt_of_le_of_ne (not_lt.mp hnot) hne
  have hdws : d ∈ ws := by
    rcases List.mem_append.mp (h.perm.mem_iff.mp hd) with hin | hin
    · simp [Lays, h.concrete d hin] at hlays
    · exact hin
  have hws := List.perm_cons_erase hdws
  have hws' : ws.Perm (ws.erase d ++ [d]) := hws.trans (List.perm_append_singleton d _).symm
  have hcs' : cs.Perm (cs.erase x ++ [x]) :=
    (List.perm_cons_erase h.here).trans (List.perm_append_singleton x _).symm
  have hlast : us.Perm (ws.erase d ++ [d] ++ cs.erase x ++ [x]) := by
    refine h.perm.trans (List.perm_append_comm.trans ?_)
    rw [List.append_assoc (ws.erase d ++ [d])]
    exact hws'.append hcs'
  obtain ⟨b, hb, hcontent, hlt⟩ := laid_of_delete_before hmount h hkeyed hws' hcs' hlays hnewer
  rcases hkind : x.1.kind with _ | _
  · have hfirst : us.Perm (cs ++ d :: ws.erase d) := h.perm.trans (hws.append_left cs)
    obtain ⟨b', hb', hnone⟩ := tombstone_of_delete_after hmount h hkeyed hws hkind hlays hnewer
    obtain rfl := Option.some.inj (hb.symm.trans ((hagree.held hlast hfirst).trans hb'))
    exact absurd (hcontent.mp hnone) (by simp [hkind])
  · have hfirst := held_delete_first hmount h hkeyed hkind
    obtain rfl := Option.some.inj (hb.symm.trans ((hagree.held hlast h.perm).trans hfirst))
    exact absurd hlt (lt_irrefl _)

theorem unique_of_agree (hput : PutNewest full us x) {w v : Capture} (hw : w ∈ us)
    (hlays : Lays full .put w) (hnewer : timeOf x < timeOf w)
    (hmax : ∀ u ∈ us, Lays full .put u → timeOf u ≤ timeOf w) (hv : v ∈ us)
    (hkind : v.1.kind = .put) (hke : v.1.keyexpr = w.1.keyexpr) : v = w := by
  by_contra hne
  have hwws : w ∈ ws := by
    rcases List.mem_append.mp (h.perm.mem_iff.mp hw) with hin | hin
    · simp [Lays, h.concrete w hin] at hlays
    · exact hin
  have hws : ws.Perm (ws.erase w ++ [w]) :=
    (List.perm_cons_erase hwws).trans (List.perm_append_singleton w _).symm
  have hlast : us.Perm (cs ++ ws.erase w ++ [w]) := by
    rw [List.append_assoc]
    exact h.perm.trans (hws.append_left cs)
  have hfirst : us.Perm ([w, v] ++ (us.erase w).erase v) :=
    (List.perm_cons_erase hw).trans
      ((List.perm_cons_erase ((List.mem_erase_of_ne hne).mpr hv)).cons w)
  have hrest : ∀ u ∈ [v] ++ (us.erase w).erase v, u ∈ us :=
    fun u hu => hfirst.mem_iff.mpr (by
      rcases List.mem_append.mp hu with hu | hu
      · simp [List.mem_singleton.mp hu]
      · exact List.mem_append_right _ hu)
  obtain ⟨b, hb, hle⟩ := atLeast_of_put_last hmount h hkeyed hws hput hlays
  have htracked := tracked_append (tracked_displaced hmount (hkeyed w hw) hlays.1 (hkeyed v hv) hke
    (hkind.trans hlays.2.1.symm)) hmount ((us.erase w).erase v)
    fun u hu => hkeyed u (hrest u (List.mem_append_right _ hu))
  have happend : captureAll (.empty .new stripPrefix) ([w, v] ++ (us.erase w).erase v) =
      captureAll (captureAll (.empty .new stripPrefix) [w, v]) ((us.erase w).erase v) :=
    List.foldl_append
  have hsource := htracked.source b (by rw [← happend, ← hagree.held hlast hfirst, hb])
  have habsent : w ∉ [v] ++ (us.erase w).erase v := by
    intro hin
    rcases List.mem_append.mp hin with hin | hin
    · exact hne (List.mem_singleton.mp hin).symm
    · exact h.nodup.not_mem_erase (List.mem_of_mem_erase hin)
  rcases hsource with ⟨u, hu, hkey, rfl⟩ | ⟨u, hu, hlaysU, rfl⟩ | ⟨d, hd, hlaysD, hstamp⟩
  · exact absurd hle ((h.newest u (hrest u hu) hkey).trans_lt hnewer).not_ge
  · have hle' := hmax u (hrest u hu) hlaysU
    obtain rfl := h.distinct u (hrest u hu) w hw (le_antisymm hle' hle)
    exact habsent hu
  · rw [heldStamp, hstamp] at hle
    exact absurd hle ((hput.deletes d (hrest d hd) hlaysD).trans hnewer).not_ge

/-- Where all orders agree and the newest capture of the key is a delete that a wildcard put is newer
than, the key is never put. -/
theorem deleted_of_agree (hdel : x.1.kind = .del) {w : Capture} (hw : w ∈ us)
    (hlays : Lays full .put w) (hnewer : timeOf x < timeOf w) {y : Capture} (hy : y ∈ us)
    (hkey : y.1.keyexpr = full) : y.1.kind = .del := by
  by_contra hnot
  have hput : y.1.kind = .put := by
    rcases hkind : y.1.kind with _ | _
    · rfl
    · exact absurd hkind hnot
  have hne : y ≠ w := by
    rintro rfl
    simp [Lays, hkey, hmount.nonwild] at hlays
  have hfirst : us.Perm ([w, y] ++ (us.erase w).erase y) :=
    (List.perm_cons_erase hw).trans
      ((List.perm_cons_erase ((List.mem_erase_of_ne hne).mpr hy)).cons w)
  have hlt : timeOf y < timeOf w := (h.newest y hy hkey).trans_lt hnewer
  have hbehind := atLeast_of_put_behind hmount (hkeyed w hw) hlays.1 (hkeyed y hy) hlays hkey hput hlt
  have htwo := tracked_captureAll hmount [w, y] (by simp [hkeyed w hw, hkeyed y hy])
  have happend : captureAll (.empty .new stripPrefix) ([w, y] ++ (us.erase w).erase y) =
      captureAll (captureAll (.empty .new stripPrefix) [w, y]) ((us.erase w).erase y) :=
    List.foldl_append
  obtain ⟨b, hb, hle⟩ := atLeast_captureAll htwo hmount ((us.erase w).erase y)
    (fun u hu => hkeyed u (hfirst.mem_iff.mpr (List.mem_append_right _ hu))) hbehind
  have hlast := held_delete_first hmount h hkeyed hdel
  rw [← happend, hagree.held hfirst h.perm, hlast] at hb
  obtain rfl := Option.some.inj hb
  exact absurd hle hnewer.not_ge

end Exact

/-- All orders of a set of captures with different timestamps agree on a key that some of them name if
and only if the key is order-free. -/
theorem captures_agree_iff (stripPrefix : Option Bytes) (us : List Capture)
    (hdistinct : us.Pairwise fun u v =>
      timestampOrderKey (stampOf u) ≠ timestampOrderKey (stampOf v))
    (hkeyed : ∀ u ∈ us, keyed stripPrefix (.sample u.1 u.2) = true) (full : Bytes)
    (key : Option Bytes) (hnonwild : KeyexprMatch.isWild full = false)
    (hstored : KeyexprPrefix.stripPrefix stripPrefix full = .ok (.ok key))
    (hnamed : ∃ u ∈ us, u.1.keyexpr = full) :
    Agree stripPrefix us key ↔ OrderFree us full := by
  have hsame : ∀ u ∈ us, ∀ v ∈ us, timeOf u = timeOf v → u = v := by
    have htimes : (us.map timeOf).Nodup := List.pairwise_map.mpr hdistinct
    exact fun u hu v hv heq => List.inj_on_of_nodup_map htimes hu hv heq
  have hnodup : us.Nodup := hdistinct.imp fun hne heq => hne (by rw [heq])
  have hmount := mount_of_named hnonwild hstored hkeyed hnamed
  constructor
  · intro hagree
    obtain ⟨cs, ws, x, h⟩ := exists_parted hnodup hsame hnonwild hnamed
    have hdeletes : ∀ d ∈ us, Lays full .del d → timeOf d < timeOf x :=
      fun d hd => deletes_older_of_agree hmount h hkeyed hagree hd
    refine ⟨x, h.mem_of_concrete h.here, h.key, h.newest, hdeletes, fun w hw hlays hnewer hmax => ?_⟩
    rcases hkind : x.1.kind with _ | _
    · have hput : PutNewest full us x :=
        ⟨h.key, hkind, h.newest, hdeletes, hsame, h.mem_of_concrete h.here⟩
      exact fun v hv => unique_of_agree hmount h hkeyed hagree hput hw hlays hnewer hmax hv
    · exact fun y hy => deleted_of_agree hmount h hkeyed hagree hkind hw hlays hnewer hy
  · intro hfree vs ws hvs hws
    obtain ⟨b, hb⟩ := held_of_orderFree hmount hsame hfree
    have hcoherent : ∀ vs : List Capture, us.Perm vs →
        Coherent (captureAll (.empty .new stripPrefix) vs) :=
      fun vs hvs => (tracked_captureAll hmount vs fun u hu =>
        hkeyed u (hvs.mem_iff.mpr hu)).coherent
    refine eq_of_held (hcoherent vs hvs) (hcoherent ws hws) ?_
    rw [hb vs (fun _ => hvs.mem_iff) hkeyed, hb ws (fun _ => hws.mem_iff) hkeyed]

def captureAt (keyexpr : Bytes) (kind : SampleKind) (time : UInt64) (payload : Bytes) : Capture :=
  (⟨keyexpr, kind, some ⟨time, [1]⟩, payload, none⟩, ⟨0, []⟩)

omit [FingerprintHash] in
/-- An older wildcard delete, a put and a newer wildcard put: every order agrees. -/
theorem captures_agree_iff_covered :
    letI := timeHash
    Agree none [captureAt doubleStar .del 3 [], captureAt [0x61] .put 5 [1],
      captureAt doubleStar .put 7 [2]] (some [0x61]) := by
  let _ := timeHash
  refine (captures_agree_iff none _ (by decide) (by decide) [0x61] _ (by decide) rfl
    (by decide)).mpr ⟨captureAt [0x61] .put 5 [1], by decide, rfl, by decide, by decide +kernel, ?_⟩
  intro w hw hlays hnewer hmax
  change ∀ v ∈ _, v.1.kind = .put → v.1.keyexpr = w.1.keyexpr → v = w
  revert w
  decide +kernel

omit [FingerprintHash] in
/-- A put and a newer wildcard delete: behind the put it leaves a tombstone, before it an empty value. -/
theorem captures_disagree :
    letI := timeHash
    let put := captureAt [0x61] .put 1 [7]
    let gone := captureAt doubleStar .del 2 []
    let s : Memory := .empty .new none
    let key : Option Bytes := some [0x61]
    timestampOrderKey (stampOf put) ≠ timestampOrderKey (stampOf gone) ∧
      (captureAll s [put, gone]).latest[key]? = some ⟨⟨2, [1]⟩, .del⟩ ∧
      (captureAll s [gone, put]).latest[key]? = some ⟨⟨2, [1]⟩, .put⟩ ∧
      (captureAll s [put, gone]).backend.map[key]? = none ∧
      (captureAll s [gone, put]).backend.map[key]? = some ⟨[], none, ⟨2, [1]⟩⟩ := by
  let _ := timeHash
  decide +kernel

end WatchingZenoh.StorageOrderExact
