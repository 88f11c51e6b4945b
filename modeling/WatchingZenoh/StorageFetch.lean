import WatchingZenoh.StorageConverge
import WatchingZenoh.StorageWireExact

/-! Fetching what a replica advertises. Over the wire an id loses the zeros at its end, and a retrieval
compares timestamps byte for byte with the stored one: a put is served again exactly when its id does
not end in a zero. -/

namespace WatchingZenoh.StorageFetch

open Timestamp Backend StorageReplication StorageAligner StorageReplica StorageCalls StorageHeld
open StorageConverge StorageWire StorageWireExact ZidHex LittleEndian Newest
open Std (ExtTreeMap)

variable [FingerprintHash]

/-- An advertised event goes out in a metadata reply, comes back in an events query, and is answered by
one retrieval, with the stored value for a put. -/
def Fetchable (s : Memory) (config : ReplicationConfig) (localZid : Bytes) (now : UInt64)
    (m : EventMetadata) : Prop :=
  ∃ advertised asked value,
    decodeAlignmentReply (encodeAlignmentReply (.eventsMetadata [m])) =
      .ok (.eventsMetadata [advertised]) ∧
    decodeAlignmentQuery (encodeAlignmentQuery (.events [advertised])) = .ok (.events [asked]) ∧
    s.answerAlignmentQuery config (.events [asked]) localZid now = [⟨.retrieval asked, value⟩] ∧
    (m.action = .put → ∃ data, s.backend.map[m.key]? = some data ∧
      value = some ⟨data.payload, data.encoding⟩)

omit [FingerprintHash] in
theorem wireStamp_eq_iff {ts : TimestampHint} (hlen : ts.zid.length ≤ 16) :
    wireStamp ts = ts ↔ ts.zid.getLast? ≠ some 0 := by
  rw [← trimZeros_eq_self_iff, wireStamp, canonicalZid_zidToLeArray hlen]
  rcases ts with ⟨time, zid⟩
  simp [canonicalZid]

omit [FingerprintHash] in
theorem wireStamp_wireStamp (ts : TimestampHint) : wireStamp (wireStamp ts) = wireStamp ts := by
  have hlen : (wireStamp ts).zid.length ≤ 16 :=
    (length_trimZeros_le _).trans (length_zidToLeArray ts.zid).le
  rw [wireStamp, canonicalZid_zidToLeArray hlen]
  exact congrArg (TimestampHint.mk ts.time) (trimZeros_trimZeros _)

omit [FingerprintHash] in
theorem wireEvent_wireEvent (e : EventMetadata) : wireEvent (wireEvent e) = wireEvent e := by
  have hmap : (e.timestampLastNonWildcardUpdate.map wireStamp).map wireStamp =
      e.timestampLastNonWildcardUpdate.map wireStamp := by
    rw [Option.map_map]
    exact Option.map_congr fun ts _ => wireStamp_wireStamp ts
  simp only [wireEvent, wireStamp_wireStamp, hmap]

/-- The event that one record of a state is advertised as. -/
def advertisedEvent (key : Option Bytes) (event : LatestEvent) : EventMetadata :=
  match event.kind with
  | .put => .put key event.timestamp
  | .del => .delete key event.timestamp

def KeyText (key : Option Bytes) : Prop := ∀ k ∈ key, Utf8.Encoded k ∧ k.length < 2 ^ 63

/-- An event of a concrete key, whatever its timestamps. -/
structure Concrete (e : EventMetadata) : Prop where
  key : KeyText e.key
  action : e.action = .put ∨ e.action = .delete

omit [FingerprintHash] in
theorem Concrete.texts {e : EventMetadata} (h : Concrete e) : Texts e := by
  refine ⟨fun key hkey => (h.key key hkey).1, fun text htext => ?_⟩
  rcases h.action with haction | haction <;> simp [haction, actionText] at htext

omit [FingerprintHash] in
theorem Concrete.length_lt {e : EventMetadata} (h : Concrete e) :
    4 + (pushEvents [e]).length < 2 ^ 64 := by
  have hkey : (WireBincode.pushOption WireBincode.pushString e.key).length < 2 ^ 63 + 9 := by
    rcases hk : e.key with _ | key
    · simp [WireBincode.pushOption]
    · have hlt := (h.key key hk).2
      simp only [WireBincode.pushOption, WireBincode.pushString, List.length_cons,
        List.length_append, WireBincode.length_pushLen]
      omega
  have hlast : (WireBincode.pushOption pushTimestamp e.timestampLastNonWildcardUpdate).length ≤
      25 := by
    cases e.timestampLastNonWildcardUpdate <;>
      simp [WireBincode.pushOption, length_pushTimestamp]
  have haction : (pushAction e.action).length = 4 := by
    rcases h.action with haction | haction <;> simp [haction, pushAction]
  simp only [pushEvents, WireBincode.pushAll, pushEventMetadata, List.length_append,
    List.flatMap_cons, List.flatMap_nil, List.append_nil, WireBincode.length_pushLen,
    length_pushTimestamp]
  omega

omit [FingerprintHash] in
/-- Both trips over the wire do the same to an event. -/
theorem Concrete.over_wire {e : EventMetadata} (h : Concrete e) :
    decodeAlignmentReply (encodeAlignmentReply (.eventsMetadata [e])) =
        .ok (.eventsMetadata [wireEvent e]) ∧
      decodeAlignmentQuery (encodeAlignmentQuery (.events [e])) = .ok (.events [wireEvent e]) := by
  have hlen := h.length_lt
  constructor
  · refine (exactly_of_decodes (decodes_readAlignmentReply 
      (by simpa [replyEvents] using h.texts) (by simp) ?_) .trailingBytes).1
    rwa [encodeAlignmentReply, List.length_append, WireBincode.length_pushU32]
  · refine (exactly_of_decodes (decodes_readAlignmentQuery 
      (by simpa [queryEvents] using h.texts) ?_) .trailingBytes).1
    rwa [encodeAlignmentQuery, List.length_append, WireBincode.length_pushU32]

omit [FingerprintHash] in
theorem concrete_advertisedEvent {key : Option Bytes} (hkey : KeyText key) (event : LatestEvent) :
    Concrete (advertisedEvent key event) ∧ Concrete (wireEvent (advertisedEvent key event)) := by
  rcases event with ⟨timestamp, _ | _⟩
  · exact ⟨⟨hkey, .inl rfl⟩, ⟨hkey, .inl rfl⟩⟩
  · exact ⟨⟨hkey, .inr rfl⟩, ⟨hkey, .inr rfl⟩⟩

theorem fetchable_iff_answer {s : Memory} {config : ReplicationConfig} {localZid : Bytes}
    {now : UInt64} {key : Option Bytes} {event : LatestEvent} (hkey : KeyText key) :
    Fetchable s config localZid now (advertisedEvent key event) ↔
      ∃ value, s.retrievalResponse (wireEvent (advertisedEvent key event)) =
          some ⟨.retrieval (wireEvent (advertisedEvent key event)), value⟩ ∧
        ((advertisedEvent key event).action = .put →
          ∃ data, s.backend.map[(advertisedEvent key event).key]? = some data ∧
            value = some ⟨data.payload, data.encoding⟩) := by
  obtain ⟨hfirst, hsecond⟩ := concrete_advertisedEvent hkey event
  have hreply := hfirst.over_wire.1
  have hquery := hsecond.over_wire.2
  rw [wireEvent_wireEvent] at hquery
  have hanswer : ∀ e value, s.answerAlignmentQuery config (.events [e]) localZid now =
      [⟨.retrieval e, value⟩] ↔ s.retrievalResponse e = some ⟨.retrieval e, value⟩ := by
    intro e value
    rcases hresponse : s.retrievalResponse e with _ | response <;>
      simp [StorageState.answerAlignmentQuery, hresponse]
  constructor
  · rintro ⟨advertised, asked, value, hdec, hdec', hresp, hput⟩
    rw [hreply, Except.ok.injEq, AlignmentReply.eventsMetadata.injEq, List.cons.injEq] at hdec
    obtain ⟨rfl, -⟩ := hdec
    rw [hquery, Except.ok.injEq, AlignmentQuery.events.injEq, List.cons.injEq] at hdec'
    obtain ⟨rfl, -⟩ := hdec'
    exact ⟨value, (hanswer _ _).mp hresp, hput⟩
  · rintro ⟨value, hresp, hput⟩
    exact ⟨_, _, value, hreply, hquery, (hanswer _ _).mpr hresp, hput⟩

theorem fetchable_iff {s : Memory} (hs : Coherent s) {config : ReplicationConfig} {localZid : Bytes}
    {now : UInt64} {key : Option Bytes} {event : LatestEvent} (hrecord : s.latest[key]? = some event)
    (hkey : KeyText key) (hlen : event.timestamp.zid.length ≤ 16) :
    Fetchable s config localZid now (advertisedEvent key event) ↔
      (advertisedEvent key event).action = .delete ∨
        event.timestamp.zid.getLast? ≠ some 0 := by
  rw [fetchable_iff_answer hkey]
  rcases event with ⟨timestamp, _ | _⟩
  · obtain ⟨data, hdata, hstamp⟩ := (hs.put_iff key timestamp).mp hrecord
    have hget : StorageBackend.get s.backend key = .ok [data] := by
      simp [StorageBackend.get, MemoryStorage.get, hdata]
    have hresponse : s.retrievalResponse (wireEvent (.put key timestamp)) =
        if wireStamp timestamp = timestamp then
          some ⟨.retrieval (wireEvent (.put key timestamp)), some ⟨data.payload, data.encoding⟩⟩
        else none := by
      have hread : s.retrievalResponse (wireEvent (.put key timestamp)) =
          ([data].find? fun data => data.timestamp == wireStamp timestamp).map fun data =>
            ⟨.retrieval (wireEvent (.put key timestamp)), some ⟨data.payload, data.encoding⟩⟩ := by
        simp only [StorageState.retrievalResponse, wireEvent, EventMetadata.put, hget]
      by_cases hsame : wireStamp timestamp = timestamp
      · rw [hread, if_pos hsame, List.find?_singleton, hstamp, hsame, beq_self_eq_true]
        rfl
      · have hne : (timestamp == wireStamp timestamp) = false :=
          beq_eq_false_iff_ne.mpr (Ne.symm hsame)
        rw [hread, if_neg hsame, List.find?_singleton, hstamp, hne]
        rfl
    constructor
    · rintro ⟨value, hvalue, -⟩
      refine .inr ((wireStamp_eq_iff hlen).mp (by_contra fun hne => ?_))
      rw [advertisedEvent, hresponse, if_neg hne] at hvalue
      simp at hvalue
    · rintro (hdelete | hlast)
      · simp [advertisedEvent, EventMetadata.put] at hdelete
      · rw [advertisedEvent, hresponse, if_pos ((wireStamp_eq_iff hlen).mpr hlast)]
        exact ⟨_, rfl, fun _ => ⟨data, hdata, rfl⟩⟩
  · refine iff_of_true ⟨none, rfl, fun hput => ?_⟩ (.inl rfl)
    simp [advertisedEvent, EventMetadata.delete] at hput

/-- The updates carry string keys and ids of one to sixteen bytes. -/
def WellFormed (u : Update) : Prop :=
  KeyText u.key ∧ 1 ≤ u.timestamp.zid.length ∧ u.timestamp.zid.length ≤ 16

theorem exists_update_of_record {s : Memory} (hs : Coherent s) (hempty : s.latest = ∅)
    {updates : List Update} {key : Option Bytes} {event : LatestEvent}
    (hrecord : (applyAll s updates).latest[key]? = some event) :
    ∃ u ∈ updates, u.key = key ∧ u.timestamp = event.timestamp := by
  have hheld := held_applyAll hs updates key
  have hbefore : held s key = none := by simp [held, hempty]
  rw [held, hrecord, hbefore, Option.map_some] at hheld
  rcases mem_or_kept_of_offerAll hheld.symm with hmem | ⟨hnone, -⟩
  · obtain ⟨u, hu, huheld⟩ := List.mem_map.mp hmem
    simp only [List.mem_filter, decide_eq_true_eq] at hu
    refine ⟨u, hu.1, hu.2, ?_⟩
    have hstamp := congrArg Held.timestamp huheld
    cases u <;> exact hstamp
  · simp at hnone

theorem registries_applyAll (s : Memory) (updates : List Update) :
    (applyAll s updates).wildcardPuts = s.wildcardPuts ∧
      (applyAll s updates).wildcardDeletes = s.wildcardDeletes := by
  induction updates generalizing s with
  | nil => exact ⟨rfl, rfl⟩
  | cons u updates ih =>
    have hstep : (apply s u).1.wildcardPuts = s.wildcardPuts ∧
        (apply s u).1.wildcardDeletes = s.wildcardDeletes := by
      cases u with
      | put key payload encoding timestamp =>
        obtain ⟨hputs, hdeletes, -⟩ := process_rest s key .put timestamp payload encoding
        exact ⟨hputs, hdeletes⟩
      | delete key timestamp =>
        obtain ⟨hputs, hdeletes, -⟩ := process_rest s key .del timestamp [] none
        exact ⟨hputs, hdeletes⟩
    exact ⟨(ih _).1.trans hstep.1, (ih _).2.trans hstep.2⟩

omit [FingerprintHash] in
/-- Without registered wildcards the events of a state are its records. -/
theorem exists_record_of_advertised {s : Memory} (hputs : s.wildcardPuts = ∅)
    (hdeletes : s.wildcardDeletes = ∅) {m : EventMetadata} (h : m ∈ s.replicationEvents) :
    ∃ (key : Option Bytes) (event : LatestEvent),
      s.latest[key]? = some event ∧ m = advertisedEvent key event := by
  have hnone : s.wildcardReplicationEntries = [] := by
    rw [StorageState.wildcardReplicationEntries, hputs, hdeletes]
    rfl
  rw [StorageState.replicationEvents, hnone, List.map_nil, List.append_nil] at h
  obtain ⟨⟨key, event⟩, hentry, rfl⟩ := List.mem_map.mp h
  exact ⟨key, event, ExtTreeMap.mem_toList_iff_getElem?_eq_some.mp hentry, rfl⟩

/-- The event of a record of a run over string keys and ids of at most sixteen bytes. -/
theorem fetchable_iff_of_run {stripPrefix : Option Bytes} {updates : List Update}
    (hupdates : ∀ u ∈ updates, WellFormed u) (config : ReplicationConfig) (localZid : Bytes)
    (now : UInt64) {m : EventMetadata}
    (hm : m ∈ (applyAll (.empty .new stripPrefix) updates).replicationEvents) :
    Fetchable (applyAll (.empty .new stripPrefix) updates) config localZid now m ↔
      m.action = .delete ∨ m.timestamp.zid.getLast? ≠ some 0 := by
  have hnew : StorageState.withStripPrefix MemoryStorage.new stripPrefix =
      .ok (.empty .new stripPrefix) := rfl
  obtain ⟨hcoherent, -, hputs, hdeletes⟩ := coherent_withStripPrefix hnew
  obtain ⟨hputs', hdeletes'⟩ := registries_applyAll (.empty .new stripPrefix) updates
  obtain ⟨key, event, hrecord, rfl⟩ :=
    exists_record_of_advertised (hputs'.trans hputs) (hdeletes'.trans hdeletes) hm
  obtain ⟨u, hu, rfl, hstamp⟩ := exists_update_of_record hcoherent rfl hrecord
  obtain ⟨hkey, -, hlen⟩ := hupdates u hu
  rw [fetchable_iff (coherent_applyAll hcoherent updates) hrecord hkey (hstamp ▸ hlen)]
  rcases event with ⟨timestamp, _ | _⟩ <;> rfl

/-- Every event that a state reached by puts and deletes advertises can be fetched exactly when it is a
delete or its id does not end in a zero. -/
theorem advertised_fetchable_iff (stripPrefix : Option Bytes) (updates : List Update)
    (hupdates : ∀ u ∈ updates, WellFormed u) (config : ReplicationConfig) (localZid : Bytes)
    (now : UInt64) :
    let s := applyAll (.empty .new stripPrefix) updates
    ∀ m ∈ s.replicationEvents, Fetchable s config localZid now m ↔
      m.action = .delete ∨ m.timestamp.zid.getLast? ≠ some 0 :=
  fun _ hm => fetchable_iff_of_run hupdates config localZid now hm

/-- A put of the key `a` under an id of two bytes. -/
def putUnder (zid : Bytes) : Update := .put (some [0x61]) [1] none ⟨5, zid⟩

omit [FingerprintHash] in
theorem wellFormed_putUnder {zid : Bytes} (h : 1 ≤ zid.length ∧ zid.length ≤ 16) :
    WellFormed (putUnder zid) := by
  have htext : Utf8.Encoded [0x61] := ⟨['a'], by decide⟩
  refine ⟨fun key hkey => ?_, h⟩
  obtain rfl : [0x61] = key := Option.some.inj hkey
  exact ⟨htext, by decide⟩

omit [FingerprintHash] in
theorem advertised_fetchable_iff_plain :
    letI := timeHash
    let config : ReplicationConfig := ⟨[], none, 10000, 5, 6, 30, 250, by decide, by decide⟩
    Fetchable (applyAll (.empty .new none) [putUnder [0, 1]]) config [7] 0
      (.put (some [0x61]) ⟨5, [0, 1]⟩) := by
  let _ := timeHash
  intro config
  exact (advertised_fetchable_iff none [putUnder [0, 1]]
    (by simpa using wellFormed_putUnder (by decide)) config [7] 0 _ (by decide)).mpr
    (.inr (by decide))

omit [FingerprintHash] in
/-- A put under an id that ends in a zero is advertised and cannot be fetched. -/
theorem advertised_not_fetchable :
    letI := timeHash
    let config : ReplicationConfig := ⟨[], none, 10000, 5, 6, 30, 250, by decide, by decide⟩
    let s : Memory := applyAll (.empty .new none) [putUnder [1, 0]]
    WellFormed (putUnder [1, 0]) ∧ EventMetadata.put (some [0x61]) ⟨5, [1, 0]⟩ ∈ s.replicationEvents ∧
      ¬ Fetchable s config [7] 0 (.put (some [0x61]) ⟨5, [1, 0]⟩) := by
  let _ := timeHash
  intro config s
  have hwell : WellFormed (putUnder [1, 0]) := wellFormed_putUnder (by decide)
  have hmem : EventMetadata.put (some [0x61]) ⟨5, [1, 0]⟩ ∈ s.replicationEvents := by decide
  refine ⟨hwell, hmem, fun hfetch => ?_⟩
  have hor := (fetchable_iff_of_run (by simpa using hwell) config [7] 0 hmem).mp hfetch
  exact absurd hor (by decide)

end WatchingZenoh.StorageFetch
