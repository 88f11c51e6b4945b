import WatchingZenoh.SortedChunks
import WatchingZenoh.StorageBackend

/-! The backend that keeps every version. The timeline of a key is sorted by timestamp and holds the
values put and the tombstones deletes left; what lies behind the newest tombstone is what a query
reads. -/

namespace WatchingZenoh.StorageHistory

open Timestamp Backend SortedEntries
open Std (ExtTreeMap)

inductive Version
  | put (data : StoredData)
  | tombstone (timestamp : TimestampHint)
deriving DecidableEq

namespace Version

def timestamp : Version → TimestampHint
  | put data => data.timestamp
  | tombstone timestamp => timestamp

def isTombstone : Version → Bool
  | put _ => false
  | tombstone _ => true

def data? : Version → Option StoredData
  | put data => some data
  | tombstone _ => none

def order (v : Version) : ℕ ×ₗ List ℕ := timestampOrderKey v.timestamp

end Version

def rposition {α : Type} (p : α → Bool) (l : List α) : Option ℕ :=
  (l.reverse.findIdx? p).map fun i => l.length - 1 - i

/-- The versions after the newest tombstone. -/
def live (versions : List Version) : List Version :=
  match rposition Version.isTombstone versions with
  | some newestTombstone => versions.drop (newestTombstone + 1)
  | none => versions

def insertVersion (timeline : List Version) (version : Version) : List Version :=
  match search version.order (timeline.map fun v => (v.order, v)) with
  | .ok pos => timeline.set pos version
  | .error pos => timeline.insertIdx pos version

structure HistoryStorage where
  map : ExtTreeMap (Option Bytes) (List Version)

namespace HistoryStorage

def new : HistoryStorage := ⟨∅⟩

def timeline (h : HistoryStorage) (key : Option Bytes) : List Version := h.map[key]?.getD []

def versionCount (h : HistoryStorage) (key : Option Bytes) : ℕ := (live (h.timeline key)).length

def historyLen (h : HistoryStorage) (key : Option Bytes) : ℕ := (h.timeline key).length

def isDeleted (h : HistoryStorage) (key : Option Bytes) : Bool :=
  (h.timeline key).getLast?.any Version.isTombstone

def put (h : HistoryStorage) (key : Option Bytes) (payload : Bytes) (encoding : Option EncodingHint)
    (timestamp : TimestampHint) : HistoryStorage × StorageWriteResult :=
  let existed := !(live (h.timeline key)).isEmpty
  let timeline := insertVersion (h.timeline key) (.put ⟨payload, encoding, timestamp⟩)
  (⟨h.map.insert key timeline⟩, .ok (if existed then .replaced else .inserted))

def delete (h : HistoryStorage) (key : Option Bytes) (timestamp : TimestampHint) :
    HistoryStorage × StorageWriteResult :=
  (⟨h.map.insert key (insertVersion (h.timeline key) (.tombstone timestamp))⟩, .ok .deleted)

def get (h : HistoryStorage) (key : Option Bytes) : List StoredData :=
  (live (h.timeline key)).filterMap Version.data?

/-- One row for each live key, with its newest live timestamp. -/
def getAllEntries (h : HistoryStorage) : List (Option Bytes × TimestampHint) :=
  h.map.toList.filterMap fun entry =>
    match (live entry.2).getLast? with
    | some (.put newest) => some (entry.1, newest.timestamp)
    | some (.tombstone _) => none
    | none => none

instance : StorageBackend HistoryStorage where
  put := put
  delete := delete
  get h key := .ok (h.get key)
  getAllEntries h := .ok h.getAllEntries
  history _ := .all

end HistoryStorage

/-- An update of one key: a value put or a delete. -/
structure Update where
  key : Option Bytes
  version : Version
deriving DecidableEq

def Update.apply (h : HistoryStorage) (u : Update) : HistoryStorage :=
  match u.version with
  | .put data => (h.put u.key data.payload data.encoding data.timestamp).1
  | .tombstone timestamp => (h.delete u.key timestamp).1

def applyAll (updates : List Update) : HistoryStorage := updates.foldl Update.apply .new

/-- The version an order key was last given. -/
def lastAt (key : Option Bytes) (updates : List Update) (order : ℕ ×ₗ List ℕ) : Option Version :=
  ((updates.filter fun u => u.key = key ∧ u.version.order = order).getLast?).map Update.version

def Timeline (versions : List Version) (map : (ℕ ×ₗ List ℕ) → Option Version) : Prop :=
  Maps (versions.map fun v => (v.order, v)) map

theorem timeline_apply (h : HistoryStorage) (u : Update) (key : Option Bytes) :
    (u.apply h).timeline key =
      if u.key = key then insertVersion (h.timeline key) u.version else h.timeline key := by
  have hinsert : (u.apply h).map = h.map.insert u.key (insertVersion (h.timeline u.key) u.version) := by
    rw [Update.apply]
    cases u.version with
    | put data => rfl
    | tombstone timestamp => rfl
  rw [HistoryStorage.timeline, hinsert, ExtTreeMap.getElem?_insert]
  by_cases hkey : u.key = key
  · subst hkey
    simp
  · simp [hkey, HistoryStorage.timeline]

theorem Timeline.insertVersion {versions : List Version} {map map' : (ℕ ×ₗ List ℕ) → Option Version}
    (h : Timeline versions map) {v : Version}
    (hmap : ∀ order, map' order = if order = v.order then some v else map order) :
    Timeline (insertVersion versions v) map' := by
  obtain rfl : map' = @Function.update _ _ (LinearOrder.toDecidableEq) map v.order (some v) := by
    funext order
    rw [hmap]
    by_cases heq : order = v.order
    · subst heq
      simp [Function.update]
    · simp [Function.update, heq]
  rw [StorageHistory.insertVersion]
  cases hsearch : search v.order (versions.map fun v => (v.order, v)) with
  | ok pos =>
    obtain ⟨front, w, back, hsplit, rfl⟩ := search_ok hsearch
    obtain ⟨front', rest, rfl, hfront, hrest⟩ := List.map_eq_append_iff.mp hsplit
    obtain ⟨w', back', rfl, hw, hback⟩ := List.map_eq_cons_iff.mp hrest
    have hlen : front.length = front'.length := by rw [← hfront, List.length_map]
    rw [Timeline, hsplit] at h
    have hreplace := h.replace v
    simp only [hlen]
    rw [Timeline, SortedChunks.set_middle, List.map_append, List.map_cons, hfront, hback]
    exact hreplace
  | error pos =>
    obtain ⟨front, back, hsplit, rfl, hlow, hhigh⟩ := search_error h.sorted hsearch
    obtain ⟨front', back', rfl, hfront, hback⟩ := List.map_eq_append_iff.mp hsplit
    have hlen : front.length = front'.length := by rw [← hfront, List.length_map]
    rw [Timeline, hsplit] at h
    have hinsert := h.insert hlow hhigh v
    simp only [hlen]
    rw [Timeline, SortedChunks.insertIdx_middle, List.map_append, List.map_cons, hfront, hback]
    exact hinsert

theorem lastAt_concat (key : Option Bytes) (updates : List Update) (u : Update)
    (order : ℕ ×ₗ List ℕ) :
    lastAt key (updates ++ [u]) order =
      if u.key = key ∧ u.version.order = order then some u.version else lastAt key updates order := by
  rw [lastAt, List.filter_append, List.filter_singleton]
  split_ifs with hu
  · simp [hu]
  · simp [hu, lastAt]

/-- Whatever the updates and their order, a timeline holds at each timestamp the version it was last
given there, sorted. -/
theorem timeline_applyAll (updates : List Update) (key : Option Bytes) :
    Timeline ((applyAll updates).timeline key) (lastAt key updates) := by
  induction updates using List.reverseRecOn with
  | nil =>
    have hnil : (applyAll []).timeline key = [] := by
      simp [applyAll, HistoryStorage.new, HistoryStorage.timeline]
    rw [hnil]
    exact maps_nil
  | append_singleton updates u ih =>
    have happly : applyAll (updates ++ [u]) = u.apply (applyAll updates) := by
      rw [applyAll, List.foldl_append]
      rfl
    rw [happly, timeline_apply]
    split_ifs with hkey
    · refine ih.insertVersion fun order => ?_
      rw [lastAt_concat]
      by_cases horder : order = u.version.order
      · rw [if_pos horder, if_pos ⟨hkey, horder.symm⟩]
      · rw [if_neg horder, if_neg fun h => horder h.2.symm]
    · have hsame : lastAt key (updates ++ [u]) = lastAt key updates := by
        funext order
        rw [lastAt_concat, if_neg fun h => hkey h.1]
      rw [hsame]
      exact ih

def Separate (updates : List Update) : Prop :=
  ∀ u ∈ updates, ∀ w ∈ updates, u.key = w.key → u.version.order = w.version.order → u = w

theorem Separate.lastAt_iff {updates : List Update} (h : Separate updates) {key : Option Bytes}
    {order : ℕ ×ₗ List ℕ} {v : Version} :
    lastAt key updates order = some v ↔ ⟨key, v⟩ ∈ updates ∧ v.order = order := by
  have hmem : ∀ u, u ∈ updates.filter (fun u => u.key = key ∧ u.version.order = order) ↔
      u ∈ updates ∧ u.key = key ∧ u.version.order = order := by
    intro u
    simp [List.mem_filter]
  rw [lastAt, Option.map_eq_some_iff]
  constructor
  · rintro ⟨u, hu, rfl⟩
    obtain ⟨hin, rfl, horder⟩ := (hmem u).mp (List.mem_of_getLast? hu)
    exact ⟨hin, horder⟩
  · rintro ⟨hin, rfl⟩
    have hne : updates.filter (fun u => u.key = key ∧ u.version.order = v.order) ≠ [] := by
      refine List.ne_nil_of_mem (a := ⟨key, v⟩) ?_
      rw [hmem]
      exact ⟨hin, rfl, rfl⟩
    obtain ⟨hin', hkey', horder'⟩ := (hmem _).mp (List.getLast_mem hne)
    refine ⟨_, List.getLast?_eq_some_getLast hne, ?_⟩
    rw [h _ hin' ⟨key, v⟩ hin hkey' horder']

/-- The versions of a timeline are in the order of their timestamps, none twice. -/
def Rising (versions : List Version) : Prop := versions.Pairwise fun a b => a.order < b.order

theorem Timeline.rising {versions : List Version} {map : (ℕ ×ₗ List ℕ) → Option Version}
    (h : Timeline versions map) : Rising versions := by
  have hsorted := h.sorted
  rw [Sorted, List.pairwise_map] at hsorted
  exact hsorted

theorem Timeline.mem_versions {versions : List Version} {map : (ℕ ×ₗ List ℕ) → Option Version}
    (h : Timeline versions map) {v : Version} : v ∈ versions ↔ map v.order = some v := by
  rw [← Maps.mem_iff h]
  simp only [List.mem_map, Prod.mk.injEq]
  constructor
  · exact fun hv => ⟨v, hv, rfl, rfl⟩
  · rintro ⟨w, hw, -, rfl⟩
    exact hw

theorem Separate.mem_timeline {updates : List Update} (h : Separate updates) {key : Option Bytes}
    {v : Version} : v ∈ (applyAll updates).timeline key ↔ ⟨key, v⟩ ∈ updates := by
  rw [(timeline_applyAll updates key).mem_versions, h.lastAt_iff]
  simp

theorem Rising.eq_of_mem_iff {l l' : List Version} (h : Rising l) (h' : Rising l')
    (hmem : ∀ v, v ∈ l ↔ v ∈ l') : l = l' := by
  have hnodup : ∀ {l : List Version}, Rising l → l.Nodup := fun h => h.imp fun hlt heq => by
    rw [heq] at hlt
    exact lt_irrefl _ hlt
  have hperm : l.Perm l' := (List.perm_ext_iff_of_nodup (hnodup h) (hnodup h')).mpr hmem
  exact hperm.eq_of_pairwise (fun a b _ _ hab hba => absurd (hab.trans hba) (lt_irrefl _)) h h'

theorem rposition_eq_none {α : Type} {p : α → Bool} {l : List α} (h : rposition p l = none) :
    ∀ x ∈ l, p x = false := by
  rw [rposition, Option.map_eq_none_iff, List.findIdx?_eq_none_iff] at h
  exact fun x hx => h x (List.mem_reverse.mpr hx)

theorem rposition_eq_some {α : Type} {p : α → Bool} {l : List α} {n : ℕ}
    (h : rposition p l = some n) :
    ∃ front x back, l = front ++ x :: back ∧ front.length = n ∧ p x = true ∧
      ∀ y ∈ back, p y = false := by
  obtain ⟨i, hi, rfl⟩ := Option.map_eq_some_iff.mp h
  obtain ⟨hlt, hp, hbefore⟩ := List.findIdx?_eq_some_iff_getElem.mp hi
  have hsplit : l.reverse = l.reverse.take i ++ l.reverse[i] :: l.reverse.drop (i + 1) := by
    rw [List.getElem_cons_drop, List.take_append_drop]
  refine ⟨(l.reverse.drop (i + 1)).reverse, l.reverse[i], (l.reverse.take i).reverse, ?_, ?_, hp,
    fun y hy => ?_⟩
  · rw [← List.reverse_inj, List.reverse_append, List.reverse_cons, List.reverse_reverse,
      List.reverse_reverse, List.append_assoc]
    exact hsplit
  · rw [List.length_reverse, List.length_drop, List.length_reverse]
    omega
  · obtain ⟨j, hj, rfl⟩ := List.mem_iff_getElem.mp (List.mem_reverse.mp hy)
    rw [List.length_take] at hj
    rw [List.getElem_take]
    simpa using hbefore j (by omega)

theorem Rising.live {l : List Version} (h : Rising l) :
    Rising (live l) ∧ ∀ v, v ∈ StorageHistory.live l ↔
      v ∈ l ∧ v.isTombstone = false ∧ ∀ t ∈ l, t.isTombstone = true → t.order < v.order := by
  rw [StorageHistory.live]
  cases hpos : rposition Version.isTombstone l with
  | none =>
    have hnone := rposition_eq_none hpos
    refine ⟨h, fun v => ⟨fun hv => ⟨hv, hnone v hv, fun t ht htomb => ?_⟩, fun hv => hv.1⟩⟩
    rw [hnone t ht] at htomb
    cases htomb
  | some n =>
    obtain ⟨front, x, back, rfl, rfl, hx, hback⟩ := rposition_eq_some hpos
    have hdrop : (front ++ x :: back).drop (front.length + 1) = back := by
      rw [List.drop_append, List.drop_of_length_le (Nat.le_succ _)]
      simp
    obtain ⟨hfront, hcons, hcross⟩ := List.pairwise_append.mp h
    obtain ⟨hxback, hrising⟩ := List.pairwise_cons.mp hcons
    simp only [hdrop]
    refine ⟨hrising, fun v => ⟨fun hv => ⟨by simp [hv], hback v hv, fun t ht htomb => ?_⟩, ?_⟩⟩
    · rcases List.mem_append.mp ht with ht | ht
      · exact hcross t ht v (List.mem_cons_of_mem x hv)
      · rcases List.mem_cons.mp ht with rfl | ht
        · exact hxback v hv
        · rw [hback t ht] at htomb
          cases htomb
    · rintro ⟨hv, hput, hnewer⟩
      have hlt := hnewer x (by simp) hx
      rcases List.mem_append.mp hv with hv | hv
      · exact absurd (hlt.trans (hcross v hv x (by simp))) (lt_irrefl _)
      · rcases List.mem_cons.mp hv with rfl | hv
        · exact absurd hlt (lt_irrefl _)
        · exact hv

theorem map_applyAll (updates : List Update) (key : Option Bytes) :
    (applyAll updates).map[key]? =
      if ∃ u ∈ updates, u.key = key then some ((applyAll updates).timeline key) else none := by
  induction updates using List.reverseRecOn with
  | nil => simp [applyAll, HistoryStorage.new]
  | append_singleton updates u ih =>
    have happly : applyAll (updates ++ [u]) = u.apply (applyAll updates) := by
      rw [applyAll, List.foldl_append]
      rfl
    have hmap : (u.apply (applyAll updates)).map[key]? =
        if u.key = key then some ((u.apply (applyAll updates)).timeline key)
        else (applyAll updates).map[key]? := by
      rw [timeline_apply]
      rw [Update.apply]
      cases u.version with
      | put data =>
        by_cases hkey : u.key = key
        · subst hkey
          simp [HistoryStorage.put]
        · simp [HistoryStorage.put, ExtTreeMap.getElem?_insert, hkey]
      | tombstone timestamp =>
        by_cases hkey : u.key = key
        · subst hkey
          simp [HistoryStorage.delete]
        · simp [HistoryStorage.delete, ExtTreeMap.getElem?_insert, hkey]
    rw [happly, hmap]
    by_cases hkey : u.key = key
    · rw [if_pos hkey, if_pos ⟨u, by simp, hkey⟩]
    · have hiff : (∃ w ∈ updates ++ [u], w.key = key) ↔ ∃ w ∈ updates, w.key = key := by
        simp [hkey]
      rw [if_neg hkey, ih]
      simp only [hiff, timeline_apply, if_neg hkey]

theorem mem_get {h : HistoryStorage} {key : Option Bytes} {data : StoredData} :
    data ∈ h.get key ↔ Version.put data ∈ live (h.timeline key) := by
  rw [HistoryStorage.get, List.mem_filterMap]
  constructor
  · rintro ⟨v, hv, hdata⟩
    cases v with
    | put d =>
      cases hdata
      exact hv
    | tombstone timestamp => cases hdata
  · exact fun hv => ⟨_, hv, rfl⟩

/-- The updates of one key in any order, any number of times each, leave one store. Its timelines are
sorted without a timestamp twice, and a query reads, in the order of the timestamps, the values put
after the newest tombstone. -/
theorem history_order_free {updates updates' : List Update} (hseparate : Separate updates)
    (hsame : ∀ u, u ∈ updates ↔ u ∈ updates') :
    (applyAll updates).map = (applyAll updates').map ∧
      ∀ key, Rising ((applyAll updates).timeline key) ∧
        (∀ v, v ∈ (applyAll updates).timeline key ↔ ⟨key, v⟩ ∈ updates) ∧
        ((applyAll updates).get key).Pairwise
          (fun a b => timestampOrderKey a.timestamp < timestampOrderKey b.timestamp) ∧
        ∀ data, data ∈ (applyAll updates).get key ↔ ⟨key, .put data⟩ ∈ updates ∧
          ∀ timestamp, ⟨key, .tombstone timestamp⟩ ∈ updates →
            timestampOrderKey timestamp < timestampOrderKey data.timestamp := by
  have hseparate' : Separate updates' := fun u hu w hw =>
    hseparate u ((hsame u).mpr hu) w ((hsame w).mpr hw)
  have hrising := fun updates key => (timeline_applyAll updates key).rising
  refine ⟨ExtTreeMap.ext_getElem? fun key => ?_, fun key => ⟨hrising updates key,
    fun v => hseparate.mem_timeline, ?_, fun data => ?_⟩⟩
  · have htimeline : (applyAll updates).timeline key = (applyAll updates').timeline key := by
      refine (hrising updates key).eq_of_mem_iff (hrising updates' key) fun v => ?_
      rw [hseparate.mem_timeline, hseparate'.mem_timeline, hsame]
    rw [map_applyAll, map_applyAll, htimeline]
    simp only [hsame]
  · rw [HistoryStorage.get, List.pairwise_filterMap]
    refine (hrising updates key).live.1.imp fun {a b} hlt d hd e he => ?_
    cases a with
    | put a =>
      cases b with
      | put b =>
        cases hd
        cases he
        exact hlt
      | tombstone _ => cases he
    | tombstone _ => cases hd
  · rw [mem_get, (hrising updates key).live.2, hseparate.mem_timeline]
    refine and_congr Iff.rfl ⟨fun hnewer timestamp htomb => ?_, fun hnewer => ⟨rfl, ?_⟩⟩
    · exact hnewer.2 (.tombstone timestamp) (hseparate.mem_timeline.mpr htomb) rfl
    · intro t ht htomb
      cases t with
      | put d => cases htomb
      | tombstone timestamp => exact hnewer timestamp (hseparate.mem_timeline.mp ht)

/-- A value put after a delete, which arrives first in the one order and last in the other. -/
theorem history_order_free_late_delete :
    ⟨[7], none, ⟨2, [1]⟩⟩ ∈ (applyAll [⟨none, .put ⟨[7], none, ⟨2, [1]⟩⟩⟩,
      ⟨none, .tombstone ⟨1, [1]⟩⟩]).get none := by
  refine (((@history_order_free _ [⟨none, .tombstone ⟨1, [1]⟩⟩, ⟨none, .put ⟨[7], none, ⟨2, [1]⟩⟩⟩]
    ?_ ?_).2 none).2.2.2 _).mpr ?_
  · rw [Separate]
    decide
  · simp [or_comm]
  · simp [timestampOrderKey, Prod.Lex.toLex_lt_toLex]

theorem mem_getAllEntries (updates : List Update) (key : Option Bytes) (timestamp : TimestampHint) :
    (key, timestamp) ∈ (applyAll updates).getAllEntries ↔
      ∃ data ∈ ((applyAll updates).get key).getLast?, data.timestamp = timestamp := by
  have hlive : ∀ v ∈ live ((applyAll updates).timeline key), v.isTombstone = false := fun v hv =>
    ((((timeline_applyAll updates key).rising.live).2 v).mp hv).2.1
  have hget : ((applyAll updates).get key).getLast? =
      (live ((applyAll updates).timeline key)).getLast?.bind Version.data? := by
    rw [HistoryStorage.get]
    rcases List.eq_nil_or_concat (live ((applyAll updates).timeline key)) with hnil | ⟨front, v, heq⟩
    · rw [hnil]
      rfl
    · rw [List.concat_eq_append] at heq
      rw [heq] at hlive ⊢
      cases v with
      | put data => simp [Version.data?]
      | tombstone timestamp => cases hlive (.tombstone timestamp) (by simp)
  rw [hget, HistoryStorage.getAllEntries, List.mem_filterMap]
  constructor
  · rintro ⟨⟨k, versions⟩, hentry, heq⟩
    rw [ExtTreeMap.mem_toList_iff_getElem?_eq_some] at hentry
    have htimeline : (applyAll updates).timeline k = versions := by
      rw [HistoryStorage.timeline, hentry, Option.getD_some]
    simp only at heq
    split at heq
    · rename_i newest hlast
      cases heq
      rw [htimeline, hlast]
      exact ⟨newest, rfl, rfl⟩
    · cases heq
    · cases heq
  · rintro ⟨data, hdata, rfl⟩
    obtain ⟨v, hlast, hv⟩ := Option.bind_eq_some_iff.mp hdata
    cases v with
    | tombstone timestamp => cases hv
    | put d =>
      cases hv
      cases hmap : (applyAll updates).map[key]? with
      | none => simp [HistoryStorage.timeline, hmap, live, rposition] at hlast
      | some versions =>
        rw [HistoryStorage.timeline, hmap, Option.getD_some] at hlast
        refine ⟨(key, versions), ExtTreeMap.mem_toList_iff_getElem?_eq_some.mpr hmap, ?_⟩
        simp only [hlast]

end WatchingZenoh.StorageHistory
