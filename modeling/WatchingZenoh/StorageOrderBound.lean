import WatchingZenoh.StorageOrderFree

/-! The order of captures matters to every other key: for each way a key can fail to be order-free there
are two orders of the same captures that leave the key in different states. One of them takes the
concrete captures first and the wildcards last, the other the wildcards first. -/

namespace WatchingZenoh.StorageOrderBound

open Timestamp Backend StorageReplication StorageReplica StorageCalls StorageHeld
open StorageOverride StorageLaid StorageRegistry StorageSteps StorageCaptures StorageOrderFree Newest
open Std (ExtTreeMap)

variable [FingerprintHash] {stripPrefix key : Option Bytes} {full : Bytes} {past : List Capture}
  {s : Memory}

theorem seen_of_tracked (h : Tracked stripPrefix key full past s) (hmount : Mount stripPrefix key full)
    {u : Capture} (hkeyed : keyed stripPrefix (.sample u.1 u.2) = true) :
    Seen s key full u (s.applySample u.1 u.2) := by
  refine seen_capture h.coherent ?_ ?_
  · rwa [h.mounted]
  · rwa [h.mounted]

theorem tracked_append (h : Tracked stripPrefix key full past s)
    (hmount : Mount stripPrefix key full) (us : List Capture)
    (hkeyed : ∀ u ∈ us, keyed stripPrefix (.sample u.1 u.2) = true) :
    Tracked stripPrefix key full (past ++ us) (captureAll s us) := by
  induction us using List.reverseRecOn with
  | nil => simpa [captureAll] using h
  | append_singleton us u ih =>
    rw [captureAll_concat, ← List.append_assoc]
    exact (ih fun v hv => hkeyed v (by simp [hv])).capture hmount (hkeyed u (by simp))

theorem held_captureAll_of_hidden (h : Tracked stripPrefix key full past s)
    (hmount : Mount stripPrefix key full) (ws : List Capture)
    (hkeyed : ∀ u ∈ ws, keyed stripPrefix (.sample u.1 u.2) = true)
    (hwild : ∀ u ∈ ws, KeyexprMatch.isWild u.1.keyexpr = true)
    (hhidden : ∀ b, held s key = some b → b.content = none) :
    held (captureAll s ws) key = held s key := by
  induction ws using List.reverseRecOn with
  | nil => rfl
  | append_singleton ws u ih =>
    have hkeyed' : ∀ v ∈ ws, keyed stripPrefix (.sample v.1 v.2) = true :=
      fun v hv => hkeyed v (by simp [hv])
    have hsame := ih hkeyed' fun v hv => hwild v (by simp [hv])
    have hu := hwild u (by simp)
    rw [captureAll_concat]
    cases seen_of_tracked (tracked_append h hmount ws hkeyed') hmount (hkeyed u (by simp)) with
    | own hkey => simp [hkey, hmount.nonwild] at hu
    | other hkey hnot => simp [hnot] at hu
    | laidOver hlays hvisible =>
      obtain ⟨b, hb, hcontent⟩ := hvisible
      exact absurd (hhidden b (hsame ▸ hb)) hcontent
    | registered _ _ _ hheld => rw [hheld, hsame]

theorem atLeast_captureAll (h : Tracked stripPrefix key full past s)
    (hmount : Mount stripPrefix key full) (us : List Capture)
    (hkeyed : ∀ u ∈ us, keyed stripPrefix (.sample u.1 u.2) = true) {t : ℕ ×ₗ List ℕ}
    (ht : AtLeast heldStamp t (held s key)) : AtLeast heldStamp t (held (captureAll s us) key) := by
  induction us using List.reverseRecOn with
  | nil => exact ht
  | append_singleton us u ih =>
    have hkeyed' : ∀ v ∈ us, keyed stripPrefix (.sample v.1 v.2) = true :=
      fun v hv => hkeyed v (by simp [hv])
    have hbefore := ih hkeyed'
    rw [captureAll_concat]
    cases seen_of_tracked (tracked_append h hmount us hkeyed') hmount (hkeyed u (by simp)) with
    | own _ _ hheld => exact hheld ▸ hbefore.offer _
    | other _ _ _ hheld => exact hheld ▸ hbefore
    | laidOver _ _ _ hheld => exact hheld ▸ hbefore.offer _
    | registered _ _ _ hheld => exact hheld ▸ hbefore

theorem registry_captureAll (h : Tracked stripPrefix key full past s)
    (hmount : Mount stripPrefix key full) (cs : List Capture)
    (hkeyed : ∀ u ∈ cs, keyed stripPrefix (.sample u.1 u.2) = true)
    (hconcrete : ∀ u ∈ cs, KeyexprMatch.isWild u.1.keyexpr = false) :
    (captureAll s cs).wildcardPuts = s.wildcardPuts ∧
      (captureAll s cs).wildcardDeletes = s.wildcardDeletes := by
  induction cs using List.reverseRecOn with
  | nil => exact ⟨rfl, rfl⟩
  | append_singleton cs u ih =>
    have hkeyed' : ∀ v ∈ cs, keyed stripPrefix (.sample v.1 v.2) = true :=
      fun v hv => hkeyed v (by simp [hv])
    obtain ⟨hputs, hdeletes⟩ := ih hkeyed' fun v hv => hconcrete v (by simp [hv])
    have hu := hconcrete u (by simp)
    rw [captureAll_concat]
    cases seen_of_tracked (tracked_append h hmount cs hkeyed') hmount (hkeyed u (by simp)) with
    | own _ hregistries => exact ⟨hregistries.1.trans hputs, hregistries.2.trans hdeletes⟩
    | other _ _ hregistries => exact ⟨hregistries.1.trans hputs, hregistries.2.trans hdeletes⟩
    | laidOver hlays => simp [hlays.1] at hu
    | registered hwild => simp [hwild] at hu

section Below

omit [FingerprintHash] in
theorem laidBy_at_delete (hkinds : Kinds s) {u : Capture} {wu : WildcardUpdate}
    (hwu : Covering s.wildcardDeletes full wu) (hle : timeOf u ≤ StorageOverride.orderOf wu) :
    ∃ lowest, Covering s.wildcardDeletes full lowest ∧
      timeOf u ≤ StorageOverride.orderOf lowest ∧
      StorageOverride.orderOf lowest ≤ StorageOverride.orderOf wu ∧
      (laidBy s full u).timestamp = lowest.data.timestamp := by
  unfold laidBy
  rcases hkind : u.1.kind with _ | _
  · rcases laid_put_cases hkinds full (stampOf u) u.1.payload u.1.encoding with
      ⟨lowest, hlowest, hge, hmin, hlaid⟩ | ⟨hnone, -⟩ | ⟨hnone, -⟩
    · exact ⟨lowest, hlowest, hge, hmin wu hwu hle, by rw [hlaid]⟩
    · exact absurd hle (hnone wu hwu).not_ge
    · exact absurd hle (hnone wu hwu).not_ge
  · rcases laid_del_cases hkinds full (stampOf u) u.1.payload u.1.encoding with
      ⟨lowest, hlowest, hge, hmin, hlaid⟩ | ⟨hnone, -⟩
    · exact ⟨lowest, hlowest, hge, hmin wu hwu hle, by rw [hlaid]⟩
    · exact absurd hle (hnone wu hwu).not_ge

theorem held_below_delete (h : Tracked stripPrefix key full past s)
    (hmount : Mount stripPrefix key full) {wu : WildcardUpdate}
    (hwu : Covering s.wildcardDeletes full wu) (cs : List Capture)
    (hkeyed : ∀ u ∈ cs, keyed stripPrefix (.sample u.1 u.2) = true)
    (hconcrete : ∀ u ∈ cs, KeyexprMatch.isWild u.1.keyexpr = false)
    (holder : ∀ u ∈ cs, u.1.keyexpr = full → timeOf u ≤ StorageOverride.orderOf wu)
    (hnone : held s key = none) (b : Held) (hb : held (captureAll s cs) key = some b) :
    heldStamp b ≤ StorageOverride.orderOf wu := by
  induction cs using List.reverseRecOn generalizing b with
  | nil => simp [captureAll, hnone] at hb
  | append_singleton cs u ih =>
    have hkeyed' : ∀ v ∈ cs, keyed stripPrefix (.sample v.1 v.2) = true :=
      fun v hv => hkeyed v (by simp [hv])
    have hconcrete' : ∀ v ∈ cs, KeyexprMatch.isWild v.1.keyexpr = false :=
      fun v hv => hconcrete v (by simp [hv])
    have hbefore := ih hkeyed' hconcrete' fun v hv => holder v (by simp [hv])
    have htracked := tracked_append h hmount cs hkeyed'
    have hu := hconcrete u (by simp)
    rw [captureAll_concat] at hb
    cases seen_of_tracked htracked hmount (hkeyed u (by simp)) with
    | own hkey _ hheld =>
      have hcovering : Covering (captureAll s cs).wildcardDeletes full wu := by
        rwa [(registry_captureAll h hmount cs hkeyed' hconcrete').2]
      obtain ⟨lowest, -, -, hle, hstamp⟩ :=
        laidBy_at_delete htracked.kinds hcovering (holder u (by simp) hkey)
      rw [hheld] at hb
      rcases eq_or_kept_of_offer hb with rfl | ⟨hkept, -⟩
      · rw [heldStamp, hstamp]
        exact hle
      · exact hbefore b hkept
    | other _ _ _ hheld => exact hbefore b (hheld ▸ hb)
    | laidOver hlays => simp [hlays.1] at hu
    | registered hwild => simp [hwild] at hu

end Below

section Orders

variable {us cs ws : List Capture} {x : Capture}

/-- The captures of a set, its newest one of the key, and the two kinds apart. -/
structure Parted (full : Bytes) (us cs ws : List Capture) (x : Capture) : Prop where
  nodup : us.Nodup
  perm : us.Perm (cs ++ ws)
  concrete : ∀ u ∈ cs, KeyexprMatch.isWild u.1.keyexpr = false
  wild : ∀ u ∈ ws, KeyexprMatch.isWild u.1.keyexpr = true
  key : x.1.keyexpr = full
  here : x ∈ cs
  newest : ∀ u ∈ us, u.1.keyexpr = full → timeOf u ≤ timeOf x
  distinct : ∀ u ∈ us, ∀ v ∈ us, timeOf u = timeOf v → u = v

omit [FingerprintHash] in
theorem Parted.mem_of_concrete (h : Parted full us cs ws x) {u : Capture} (hu : u ∈ cs) : u ∈ us :=
  h.perm.mem_iff.mpr (List.mem_append_left _ hu)

omit [FingerprintHash] in
theorem Parted.mem_of_wild (h : Parted full us cs ws x) {u : Capture} (hu : u ∈ ws) : u ∈ us :=
  h.perm.mem_iff.mpr (List.mem_append_right _ hu)

variable (hmount : Mount stripPrefix key full) (h : Parted full us cs ws x)
  (hkeyed : ∀ u ∈ us, keyed stripPrefix (.sample u.1 u.2) = true)
include hmount h hkeyed

theorem held_concretes :
    held (captureAll (.empty .new stripPrefix) cs) key = some (heldBy x) := by
  have htracked := tracked_captureAll hmount cs fun u hu => hkeyed u (h.mem_of_concrete hu)
  obtain ⟨b, hb, hle⟩ := htracked.newest x h.here h.key
  have hin : ∀ u ∈ cs, u ∈ us := fun u hu => h.mem_of_concrete hu
  have hnot : ∀ kind, ∀ u ∈ cs, ¬ Lays full kind u :=
    fun kind u hu hlays => by simp [Lays, h.concrete u hu] at hlays
  rw [hb, eq_heldBy_own h.here (fun u hu v hv => h.distinct u (hin u hu) v (hin v hv))
    (fun u hu => h.newest u (hin u hu)) (fun d hd hlays => absurd hlays (hnot _ d hd))
    (fun v hv hlays _ => absurd hlays (hnot _ v hv)) (htracked.source b hb) hle]

theorem held_delete_first (hdel : x.1.kind = .del) :
    held (captureAll (.empty .new stripPrefix) (cs ++ ws)) key = some (heldBy x) := by
  have hcs := held_concretes hmount h hkeyed
  have happend : captureAll (.empty .new stripPrefix) (cs ++ ws) =
      captureAll (captureAll (.empty .new stripPrefix) cs) ws := List.foldl_append
  rw [happend, held_captureAll_of_hidden
    (tracked_captureAll hmount cs fun u hu => hkeyed u (h.mem_of_concrete hu)) hmount ws
    (fun u hu => hkeyed u (h.mem_of_wild hu)) h.wild, hcs]
  intro b hb
  obtain rfl := Option.some.inj (hcs.symm.trans hb)
  simp [heldBy, heldOf, hdel]

/-- A newest put, then a newer wildcard delete: a tombstone, whatever wildcards follow. -/
theorem tombstone_of_delete_after {d : Capture} {rest : List Capture}
    (hws : ws.Perm (d :: rest)) (hput : x.1.kind = .put) (hlays : Lays full .del d)
    (hnewer : timeOf x < timeOf d) :
    ∃ b, held (captureAll (.empty .new stripPrefix) (cs ++ d :: rest)) key = some b ∧
      b.content = none := by
  have hcs := held_concretes hmount h hkeyed
  have htracked := tracked_captureAll hmount cs fun u hu => hkeyed u (h.mem_of_concrete hu)
  have hin : ∀ u ∈ d :: rest, u ∈ us := fun u hu => h.mem_of_wild (hws.mem_iff.mpr hu)
  have hnext := htracked.capture hmount (hkeyed d (hin d (by simp)))
  have hd : ∃ b, held ((captureAll (.empty .new stripPrefix) cs).applySample d.1 d.2) key = some b ∧
      b.content = none := by
    cases seen_of_tracked htracked hmount (hkeyed d (hin d (by simp))) with
    | own hkey => simp [Lays, hkey, hmount.nonwild] at hlays
    | other _ hnot => simp [Lays, hnot] at hlays
    | laidOver hlays' _ _ hheld =>
      have hkinds := kinds_registerCapture htracked.kinds d
      refine ⟨_, hheld.trans (offer_of_le fun b hb => ?_), ?_⟩
      · obtain rfl := Option.some.inj (hcs.symm.trans hb)
        exact hnewer.le.trans (le_heldStamp_laid hkinds full (stampOf d) _ _ d.1.kind)
      · exact (laid_content hkinds full _ _ _ d.1.kind).mpr hlays.2.1
    | registered _ hhidden _ hheld =>
      have hnone := hhidden ⟨hlays.1, rfl, hlays.2.2⟩ _ hcs
      simp [heldBy, heldOf, hput] at hnone
  obtain ⟨b, hb, hnone⟩ := hd
  refine ⟨b, ?_, hnone⟩
  have happend : captureAll (.empty .new stripPrefix) (cs ++ d :: rest) =
      captureAll ((captureAll (.empty .new stripPrefix) cs).applySample d.1 d.2) rest :=
    List.foldl_append
  rw [happend, held_captureAll_of_hidden hnext hmount rest
    (fun u hu => hkeyed u (hin u (by simp [hu])))
    (fun u hu => h.wild u (hws.mem_iff.mpr (by simp [hu]))) fun c hc => ?_, hb]
  obtain rfl := Option.some.inj (hb.symm.trans hc)
  exact hnone

/-- The newest capture of the key last, behind a newer wildcard delete: it is laid under the timestamp
of a delete, and nothing is newer. -/
theorem laid_of_delete_before {d : Capture} {front cs' : List Capture}
    (hws : ws.Perm (front ++ [d])) (hcs : cs.Perm (cs' ++ [x])) (hlays : Lays full .del d)
    (hnewer : timeOf x < timeOf d) :
    ∃ b, held (captureAll (.empty .new stripPrefix) (front ++ [d] ++ cs' ++ [x])) key = some b ∧
      (b.content = none ↔ x.1.kind = .del) ∧ timeOf x < heldStamp b := by
  have hwild : ∀ u ∈ front ++ [d], KeyexprMatch.isWild u.1.keyexpr = true :=
    fun u hu => h.wild u (hws.mem_iff.mpr hu)
  have hkeyedFront : ∀ u ∈ front ++ [d], keyed stripPrefix (.sample u.1 u.2) = true :=
    fun u hu => hkeyed u (h.mem_of_wild (hws.mem_iff.mpr hu))
  have hin : ∀ u ∈ cs', u ∈ cs := fun u hu => hcs.mem_iff.mpr (by simp [hu])
  have hkeyedRest : ∀ u ∈ cs', keyed stripPrefix (.sample u.1 u.2) = true :=
    fun u hu => hkeyed u (h.mem_of_concrete (hin u hu))
  have hconcrete : ∀ u ∈ cs', KeyexprMatch.isWild u.1.keyexpr = false :=
    fun u hu => h.concrete u (hin u hu)
  have hfront := tracked_captureAll hmount (front ++ [d]) hkeyedFront
  -- the wildcards alone leave nothing under the key and the delete in the registry
  have hnone : held (captureAll (.empty .new stripPrefix) (front ++ [d])) key = none :=
    held_captureAll_of_hidden tracked_empty hmount (front ++ [d]) hkeyedFront hwild
      fun b hb => by simp [held, StorageState.empty] at hb
  have hd : Covering (captureAll (.empty .new stripPrefix) (front ++ [d])).wildcardDeletes full
      ⟨.del, heldData d⟩ := by
    have hregistered : ∀ s, (registerCapture s d).wildcardDeletes[d.1.keyexpr]? =
        some ⟨.del, heldData d⟩ := by
      intro s
      have hat := getElem?_registerCapture s d .del d.1.keyexpr
      rw [if_pos ⟨rfl, hlays.2.1⟩, hlays.2.1] at hat
      exact hat
    refine ⟨d.1.keyexpr, ?_, hlays.2.2⟩
    have hbefore := tracked_captureAll hmount front fun u hu => hkeyedFront u (by simp [hu])
    rw [captureAll_concat]
    cases seen_of_tracked hbefore hmount (hkeyedFront d (by simp)) with
    | own hkey => simp [Lays, hkey, hmount.nonwild] at hlays
    | other _ hnot => simp [Lays, hnot] at hlays
    | laidOver _ _ hregistries => rw [hregistries.2, hregistered]
    | registered _ _ hregistries => rw [hregistries.2, hregistered]
  have hrest := tracked_append hfront hmount cs' hkeyedRest
  have hregistry := (registry_captureAll hfront hmount cs' hkeyedRest hconcrete).2
  have happend : captureAll (.empty .new stripPrefix) (front ++ [d] ++ cs') =
      captureAll (captureAll (.empty .new stripPrefix) (front ++ [d])) cs' := List.foldl_append
  have hcovering : Covering (captureAll (captureAll (.empty .new stripPrefix) (front ++ [d]))
      cs').wildcardDeletes full ⟨.del, heldData d⟩ := by
    rwa [hregistry]
  obtain ⟨lowest, hlowest, hge, -, hlaid⟩ :=
    laidBy_at_delete (u := x) hrest.kinds hcovering hnewer.le
  have hstamp : heldStamp (laidBy (captureAll (captureAll (.empty .new stripPrefix) (front ++ [d]))
      cs') full x) = StorageOverride.orderOf lowest := by
    rw [heldStamp, hlaid]
  have hlt : timeOf x < StorageOverride.orderOf lowest := by
    obtain ⟨e, he, helays, hdata⟩ :=
      @RegisteredFrom.covering _ _ hrest.registered full .del lowest hlowest
    have htime : StorageOverride.orderOf lowest = timeOf e := by
      rw [StorageOverride.orderOf, hdata]
      rfl
    refine lt_of_le_of_ne hge fun heq => ?_
    have heus : e ∈ us := by
      rcases List.mem_append.mp he with he | he
      · exact h.mem_of_wild (hws.mem_iff.mpr he)
      · exact h.mem_of_concrete (hin e he)
    obtain rfl := h.distinct x (h.mem_of_concrete h.here) e heus (heq.trans htime)
    simp [Lays, h.key, hmount.nonwild] at helays
  rw [captureAll_concat, happend]
  have hkeyedX := hkeyed x (h.mem_of_concrete h.here)
  have hxwild := h.concrete x h.here
  cases seen_of_tracked hrest hmount hkeyedX with
  | own _ _ hheld =>
    refine ⟨_, hheld.trans (offer_of_le fun b hb => ?_), ?_, hstamp ▸ hlt⟩
    · rw [hstamp]
      refine held_below_delete hfront hmount (by rwa [← hregistry]) cs' hkeyedRest hconcrete
        (fun u hu hkey => ?_) hnone b hb
      exact (h.newest u (h.mem_of_concrete (hin u hu)) hkey).trans hge
    · exact laid_content hrest.kinds full _ _ _ x.1.kind
  | other hkey => exact absurd h.key hkey
  | laidOver hlays' => simp [hlays'.1] at hxwild
  | registered hnot => simp [hnot] at hxwild

theorem atLeast_of_put_last {w : Capture} {rest : List Capture} (hws : ws.Perm (rest ++ [w]))
    (hput : PutNewest full us x) (hlays : Lays full .put w) :
    AtLeast heldStamp (timeOf w)
      (held (captureAll (.empty .new stripPrefix) (cs ++ rest ++ [w])) key) := by
  have hin : ∀ u ∈ cs ++ rest, u ∈ us := by
    intro u hu
    rcases List.mem_append.mp hu with hu | hu
    · exact h.mem_of_concrete hu
    · exact h.mem_of_wild (hws.mem_iff.mpr (by simp [hu]))
  have htracked := tracked_captureAll hmount (cs ++ rest) fun u hu => hkeyed u (hin u hu)
  have hw : w ∈ us := h.mem_of_wild (hws.mem_iff.mpr (by simp))
  rw [captureAll_concat]
  cases seen_of_tracked htracked hmount (hkeyed w hw) with
  | own hkey => simp [Lays, hkey, hmount.nonwild] at hlays
  | other _ hnot => simp [Lays, hnot] at hlays
  | laidOver _ _ _ hheld =>
    obtain ⟨b, hb, hle⟩ := @atLeast_offer_self _ _ _ heldStamp
      (held (captureAll (.empty .new stripPrefix) (cs ++ rest)) key)
      (laidBy (registerCapture (captureAll (.empty .new stripPrefix) (cs ++ rest)) w) full w)
    have hkinds := kinds_registerCapture htracked.kinds w
    exact ⟨b, hheld.trans hb, (le_heldStamp_laid hkinds full (stampOf w) _ _ w.1.kind).trans hle⟩
  | registered _ hhidden _ _ =>
    obtain ⟨b, hb, hle⟩ := htracked.newest x (List.mem_append_left _ h.here) h.key
    exact absurd (hhidden ⟨hlays.1, rfl, hlays.2.2⟩ b hb)
      (hput.visible hin (htracked.source b hb) hle)

end Orders

section Wildcards

variable (hmount : Mount stripPrefix key full) {w : Capture}
  (hkeyed : keyed stripPrefix (.sample w.1 w.2) = true)
  (hwild : KeyexprMatch.isWild w.1.keyexpr = true)
include hmount hkeyed hwild

theorem captured_wildcard (h : Tracked stripPrefix key full past s) (hnone : held s key = none) :
    held (s.applySample w.1 w.2) key = none ∧
      (s.applySample w.1 w.2).wildcardPuts = (registerCapture s w).wildcardPuts ∧
      (s.applySample w.1 w.2).wildcardDeletes = (registerCapture s w).wildcardDeletes := by
  cases seen_of_tracked h hmount hkeyed with
  | own hkey => simp [hkey, hmount.nonwild] at hwild
  | other _ hnot => simp [hnot] at hwild
  | laidOver _ hvisible =>
    obtain ⟨b, hb, -⟩ := hvisible
    simp [hnone] at hb
  | registered _ _ hregistries hheld => exact ⟨hheld.trans hnone, hregistries.1, hregistries.2⟩

theorem tracked_displaced {v : Capture} (hkeyedV : keyed stripPrefix (.sample v.1 v.2) = true)
    (hke : v.1.keyexpr = w.1.keyexpr) (hkind : v.1.kind = w.1.kind) :
    Tracked stripPrefix key full [v] (captureAll (.empty .new stripPrefix) [w, v]) := by
  have hfirst := tracked_captureAll hmount [w] (by simpa using hkeyed)
  have hboth := tracked_captureAll hmount [w, v] (by simp [hkeyed, hkeyedV])
  obtain ⟨hnone, hputs, hdeletes⟩ := captured_wildcard hmount hkeyed hwild
    (@tracked_empty stripPrefix key full) (by simp [held, StorageState.empty])
  obtain ⟨hnone', hputs', hdeletes'⟩ := captured_wildcard hmount hkeyedV (hke ▸ hwild) hfirst hnone
  refine ⟨hboth.coherent, hboth.kinds, hboth.mounted, ?_, ?_, ?_⟩
  · have hregistered : RegisteredFrom [v] (registerCapture
        (captureAll (.empty .new stripPrefix) [w]) v) := by
      intro kind keyexpr wu hwu
      rw [getElem?_registerCapture] at hwu
      split_ifs at hwu with heq
      · exact ⟨v, by simp, hke ▸ hwild, heq.1, heq.2, by rw [← Option.some.inj hwu]⟩
      · have hregistry : registry (captureAll (.empty .new stripPrefix) [w]) kind =
            registry (registerCapture (.empty .new stripPrefix) w) kind := by
          cases kind
          · exact hputs
          · exact hdeletes
        rw [hregistry, getElem?_registerCapture, if_neg (by rwa [← hke, ← hkind])] at hwu
        cases kind <;> simp [registry, StorageState.empty] at hwu
    exact hregistered.congr ⟨hputs', hdeletes'⟩
  · intro b hb
    simp [show held (captureAll (.empty .new stripPrefix) [w, v]) key = none from hnone'] at hb
  · intro u hu hkey
    rw [List.mem_singleton.mp hu] at hkey
    simp [← hke, hkey, hmount.nonwild] at hwild

theorem atLeast_of_put_behind {y : Capture} (hkeyedY : keyed stripPrefix (.sample y.1 y.2) = true)
    (hlays : Lays full .put w) (hkey : y.1.keyexpr = full) (hput : y.1.kind = .put)
    (hnewer : timeOf y < timeOf w) :
    AtLeast heldStamp (timeOf w) (held (captureAll (.empty .new stripPrefix) [w, y]) key) := by
  have hfirst := tracked_captureAll hmount [w] (by simpa using hkeyed)
  obtain ⟨-, hputs, -⟩ := captured_wildcard hmount hkeyed hwild
    (@tracked_empty stripPrefix key full) (by simp [held, StorageState.empty])
  have hregistered : (captureAll (.empty .new stripPrefix) [w]).wildcardPuts[w.1.keyexpr]? =
      some ⟨.put, heldData w⟩ := by
    have hat := getElem?_registerCapture (.empty .new stripPrefix) w .put w.1.keyexpr
    rw [if_pos ⟨rfl, hlays.2.1⟩, hlays.2.1] at hat
    rw [← hat]
    exact congrArg (fun registry => registry[w.1.keyexpr]?) hputs
  have hge : timeOf w ≤ heldStamp (laidBy (captureAll (.empty .new stripPrefix) [w]) full y) := by
    refine le_laidBy_put hfirst.kinds hfirst.registered hput (fun d hd hdel => ?_) hlays hnewer
      hregistered
    rw [List.mem_singleton.mp hd] at hdel
    exact absurd (hlays.2.1.symm.trans hdel.2.1) (by decide)
  have htwo : captureAll (.empty .new stripPrefix) [w, y] =
      (captureAll (.empty .new stripPrefix) [w]).applySample y.1 y.2 := rfl
  rw [htwo]
  cases seen_of_tracked hfirst hmount hkeyedY with
  | own _ _ hheld =>
    obtain ⟨b, hb, hle⟩ := @atLeast_offer_self _ _ _ heldStamp
      (held (captureAll (.empty .new stripPrefix) [w]) key)
      (laidBy (captureAll (.empty .new stripPrefix) [w]) full y)
    exact ⟨b, hheld.trans hb, hge.trans hle⟩
  | other hne => exact absurd hkey hne
  | laidOver hlays' => simp [Lays, hkey, hmount.nonwild] at hlays'
  | registered hwildY => simp [hkey, hmount.nonwild] at hwildY

end Wildcards

end WatchingZenoh.StorageOrderBound
