import WatchingZenoh.StorageWire

/-! The codecs of the alignment exchange are exact: what is written is read back, up to the zeros at the
end of an id, nothing shorter and nothing longer is accepted, and no reader leaves its input. -/

namespace WatchingZenoh.StorageWireExact

open Timestamp StorageReplication StorageAligner WireBincode ZidHex StorageWire LittleEndian
open Readers Readers.Program
open Std (ExtTreeMap ExtTreeSet)

def wireStamp (ts : TimestampHint) : TimestampHint := ⟨ts.time, canonicalZid (zidToLeArray ts.zid)⟩

def wireEvent (e : EventMetadata) : EventMetadata :=
  { e with
    timestamp := wireStamp e.timestamp
    timestampLastNonWildcardUpdate := e.timestampLastNonWildcardUpdate.map wireStamp }

def actionText : Action → Option Bytes
  | .put | .delete => none
  | .wildcardPut keyexpr | .wildcardDelete keyexpr => some keyexpr

/-- The texts of an event are strings of the source. -/
def Texts (e : EventMetadata) : Prop :=
  (∀ key ∈ e.key, Utf8.Encoded key) ∧ ∀ text ∈ actionText e.action, Utf8.Encoded text

def CanonicalEvent (e : EventMetadata) : Prop :=
  CanonicalZid e.timestamp.zid ∧
    ∀ ts ∈ e.timestampLastNonWildcardUpdate, CanonicalZid ts.zid

theorem isUtf8_iff {text : Bytes} : isUtf8 text = true ↔ Utf8.Encoded text := by
  rw [isUtf8, ByteArray.validateUTF8_eq_true_iff]
  constructor
  · rintro ⟨cs, hcs⟩
    refine ⟨cs, ?_⟩
    have hdata := congrArg ByteArray.data hcs
    rw [List.utf8Encode, List.data_toByteArray] at hdata
    exact congrArg Array.toList hdata
  · rintro ⟨cs, rfl⟩
    refine ⟨cs, ByteArray.ext ?_⟩
    rw [List.utf8Encode, List.data_toByteArray]

theorem wireStamp_eq {ts : TimestampHint} (h : CanonicalZid ts.zid) : wireStamp ts = ts := by
  rw [wireStamp, h.canonicalZid_zidToLeArray]

theorem wireEvent_eq {e : EventMetadata} (h : CanonicalEvent e) : wireEvent e = e := by
  have hlast : e.timestampLastNonWildcardUpdate.map wireStamp =
      e.timestampLastNonWildcardUpdate := by
    rcases hts : e.timestampLastNonWildcardUpdate with _ | ts
    · rfl
    · rw [Option.map_some, wireStamp_eq (h.2 ts hts)]
  rw [wireEvent, wireStamp_eq h.1, hlast]

section Pieces

theorem decodes_readString {text : Bytes} (htext : Utf8.Encoded text)
    (hfits : text.length < 2 ^ 64) : readString.Decodes (pushString text) text := by
  have hchecked : (if isUtf8 text then Program.done text else fail .badUtf8 :
      Program AlignmentDecodeError Bytes).Decodes [] text := by
    rw [if_pos (isUtf8_iff.mpr htext)]
    exact decodes_done text
  rw [← List.append_nil (pushString text)]
  exact Decodes.bind (decodes_readLenPrefixedBytes hfits) hchecked

theorem decodes_readTimestamp (ts : TimestampHint) :
    readTimestamp.Decodes (pushTimestamp ts) (wireStamp ts) :=
  (decodes_readU64 ts.time).bind
    ((decodes_bytes (length_zidToLeArray ts.zid)).map
      fun id => (⟨ts.time, canonicalZid id⟩ : TimestampHint))

theorem decodes_readOptionTag (tag : Bool) :
    readOptionTag.Decodes [if tag then 1 else 0] tag := by
  cases tag with
  | true => exact (decodes_readU8 1).bind (decodes_done true)
  | false => exact (decodes_readU8 0).bind (decodes_done false)

theorem decodes_readOption {α γ : Type} {read : Program AlignmentDecodeError α} {push : γ → Bytes}
    {value : γ → α} {c : Option γ} (h : ∀ a ∈ c, read.Decodes (push a) (value a)) :
    (readOption read).Decodes (pushOption push c) (c.map value) := by
  rcases c with _ | c
  · exact (decodes_readOptionTag false).bind (decodes_done none)
  · exact (decodes_readOptionTag true).bind ((h c rfl).map some)

theorem decodes_readAction {action : Action}
    (htext : ∀ text ∈ actionText action, Utf8.Encoded text)
    (hfits : (pushAction action).length < 2 ^ 64) : readAction.Decodes (pushAction action) action := by
  have hlen : ∀ {tag : UInt32} {text : Bytes}, (pushU32 tag ++ pushString text).length < 2 ^ 64 →
      text.length < 2 ^ 64 := by
    intro tag text h
    simp only [pushString, List.length_append] at h
    omega
  cases action with
  | put => exact (decodes_readU32 0).bind (decodes_done Action.put)
  | delete => exact (decodes_readU32 1).bind (decodes_done Action.delete)
  | wildcardPut keyexpr =>
    exact (decodes_readU32 2).bind
      ((decodes_readString (htext keyexpr rfl) (hlen hfits)).map Action.wildcardPut)
  | wildcardDelete keyexpr =>
    exact (decodes_readU32 3).bind
      ((decodes_readString (htext keyexpr rfl) (hlen hfits)).map Action.wildcardDelete)

theorem length_pushTimestamp (ts : TimestampHint) : (pushTimestamp ts).length = 24 := by
  simp [pushTimestamp, length_zidToLeArray]

theorem length_pushEventMetadata (e : EventMetadata) : 30 ≤ (pushEventMetadata e).length := by
  have hkey : 1 ≤ (pushOption pushString e.key).length := by
    cases e.key <;> simp [pushOption]
  have hlast : 1 ≤ (pushOption pushTimestamp e.timestampLastNonWildcardUpdate).length := by
    cases e.timestampLastNonWildcardUpdate <;> simp [pushOption]
  have haction : 4 ≤ (pushAction e.action).length := by
    cases e.action <;> simp [pushAction]
  simp only [pushEventMetadata, List.length_append, length_pushTimestamp]
  omega

theorem decodes_readEventMetadata {e : EventMetadata} (htexts : Texts e)
    (hfits : (pushEventMetadata e).length < 2 ^ 64) :
    readEventMetadata.Decodes (pushEventMetadata e) (wireEvent e) := by
  simp only [pushEventMetadata, List.length_append] at hfits
  have hkey : (readOption readString).Decodes (pushOption pushString e.key) e.key := by
    have hread : (readOption readString).Decodes (pushOption pushString e.key) (e.key.map id) := by
      refine decodes_readOption fun key hkey => decodes_readString (htexts.1 key hkey) ?_
      rw [Option.mem_def.mp hkey] at hfits
      simp only [pushOption, pushString, List.length_cons, List.length_append] at hfits
      omega
    rwa [Option.map_id_fun, id] at hread
  have hlast : (readOption readTimestamp).Decodes
      (pushOption pushTimestamp e.timestampLastNonWildcardUpdate)
      (e.timestampLastNonWildcardUpdate.map wireStamp) :=
    decodes_readOption fun ts _ => decodes_readTimestamp ts
  have haction := decodes_readAction htexts.2 (by omega)
  exact hkey.bind ((decodes_readTimestamp e.timestamp).bind (hlast.bind (haction.map fun action =>
    (⟨e.key, wireStamp e.timestamp, e.timestampLastNonWildcardUpdate.map wireStamp, action⟩ :
      EventMetadata))))

theorem decodes_readEvents {events : List EventMetadata} (htexts : ∀ e ∈ events, Texts e)
    (hfits : (pushEvents events).length < 2 ^ 64) :
    readEvents.Decodes (pushEvents events) (events.map wireEvent) := by
  refine decodes_readAll (by decide : 0 < 30) hfits (fun e _ => length_pushEventMetadata e)
    fun e he => decodes_readEventMetadata (htexts e he) ?_
  exact (length_le_length_pushAll he).trans_lt hfits

variable {ε : Type} [WireError ε]

theorem decodes_readSubintervalMap {map : ExtTreeMap IntervalIdx (ExtTreeSet SubIntervalIdx)}
    (hfits : (pushSubintervalMap map).length < 2 ^ 64) :
    (readSubintervalMap (ε := ε)).Decodes (pushSubintervalMap map) map :=
  decodes_readMap hfits (fun entry _ => by simp [pushSet, pushAll])
    fun entry hentry => decodes_readSet ((length_le_length_pushMap hentry).trans_lt hfits)

theorem decodes_readFingerprintMap {map : ExtTreeMap IntervalIdx Fingerprint}
    (hfits : (pushFingerprintMap map).length < 2 ^ 64) :
    (readFingerprintMap (ε := ε)).Decodes (pushFingerprintMap map) map :=
  decodes_readMap hfits (fun entry _ => by simp) fun entry _ => decodes_readU64 entry.2

theorem decodes_readSubFingerprintMap
    {map : ExtTreeMap IntervalIdx (ExtTreeMap SubIntervalIdx Fingerprint)}
    (hfits : (pushSubFingerprintMap map).length < 2 ^ 64) :
    (readSubFingerprintMap (ε := ε)).Decodes (pushSubFingerprintMap map) map :=
  decodes_readMap hfits (fun entry _ => by simp [pushFingerprintMap, pushMap, pushAll])
    fun entry hentry =>
      decodes_readFingerprintMap ((length_le_length_pushMap hentry).trans_lt hfits)

theorem decodes_readDigestDiff {diff : DigestDiff} (hfits : (pushDigestDiff diff).length < 2 ^ 64) :
    readDigestDiff.Decodes (pushDigestDiff diff) diff := by
  simp only [pushDigestDiff, List.length_append] at hfits
  exact (decodes_readOptionTag diff.coldErasDiffer).bind
    ((decodes_readSet (by simp only [pushIntervalSet] at hfits; omega)).bind
      ((decodes_readSubintervalMap (by omega)).map fun hot =>
        (⟨diff.coldErasDiffer, diff.warmErasDifferences, hot⟩ : DigestDiff)))

end Pieces

section Messages

def queryEvents : AlignmentQuery → List EventMetadata
  | .events events => events
  | _ => []

def replyEvents : AlignmentReply → List EventMetadata
  | .eventsMetadata events => events
  | .retrieval e => [e]
  | _ => []

def wireQuery : AlignmentQuery → AlignmentQuery
  | .events events => .events (events.map wireEvent)
  | query => query

def wireReply : AlignmentReply → AlignmentReply
  | .eventsMetadata events => .eventsMetadata (events.map wireEvent)
  | .retrieval e => .retrieval (wireEvent e)
  | reply => reply

theorem map_wireEvent_eq {events : List EventMetadata} (h : ∀ e ∈ events, CanonicalEvent e) :
    events.map wireEvent = events := by
  rw [List.map_congr_left fun e he => wireEvent_eq (h e he), List.map_id']

theorem wireQuery_eq {query : AlignmentQuery} (h : ∀ e ∈ queryEvents query, CanonicalEvent e) :
    wireQuery query = query := by
  cases query with
  | events events => exact congrArg AlignmentQuery.events (map_wireEvent_eq h)
  | _ => rfl

theorem wireReply_eq {reply : AlignmentReply} (h : ∀ e ∈ replyEvents reply, CanonicalEvent e) :
    wireReply reply = reply := by
  cases reply with
  | eventsMetadata events => exact congrArg AlignmentReply.eventsMetadata (map_wireEvent_eq h)
  | retrieval e => rw [wireReply, wireEvent_eq (h e (by simp [replyEvents]))]
  | _ => rfl

theorem decodes_readDigest {digest : Digest} (hfits : (encodeDigest digest).length < 2 ^ 64) :
    readDigest.Decodes (encodeDigest digest) digest := by
  simp only [encodeDigest, List.length_append] at hfits
  exact (decodes_readU64 digest.configurationFingerprint).bind
    ((decodes_readU64 digest.coldEraFingerprint).bind
      ((decodes_readFingerprintMap (by omega)).bind
        ((decodes_readSubFingerprintMap (by omega)).map fun hot =>
          (⟨digest.configurationFingerprint, digest.coldEraFingerprint,
            digest.warmEraFingerprints, hot⟩ : Digest))))

theorem decodes_readAlignmentQuery {query : AlignmentQuery}
    (htexts : ∀ e ∈ queryEvents query, Texts e)
    (hfits : (encodeAlignmentQuery query).length < 2 ^ 64) :
    readAlignmentQuery.Decodes (encodeAlignmentQuery query) (wireQuery query) := by
  have hbody : ∀ {tag : UInt32} {body : Bytes}, (pushU32 tag ++ body).length < 2 ^ 64 →
      body.length < 2 ^ 64 := by
    intro tag body h
    rw [List.length_append] at h
    omega
  cases query with
  | discovery => exact (decodes_readU32 0).bind (decodes_done AlignmentQuery.discovery)
  | all => exact (decodes_readU32 1).bind (decodes_done AlignmentQuery.all)
  | diff diff =>
    exact (decodes_readU32 2).bind ((decodes_readDigestDiff (hbody hfits)).map AlignmentQuery.diff)
  | intervals set =>
    exact (decodes_readU32 3).bind ((decodes_readSet (hbody hfits)).map AlignmentQuery.intervals)
  | subIntervals map =>
    exact (decodes_readU32 4).bind
      ((decodes_readSubintervalMap (hbody hfits)).map AlignmentQuery.subIntervals)
  | events events =>
    exact (decodes_readU32 5).bind
      ((decodes_readEvents htexts (hbody hfits)).map AlignmentQuery.events)

theorem decodes_readDiscovery {zid : Bytes} (h : CanonicalZid zid)
    (hfits : (pushString (zidToZenohHex zid)).length < 2 ^ 64) :
    readDiscovery.Decodes (pushString (zidToZenohHex zid)) (.discovery zid) := by
  have hread : readString.Decodes (pushString (zidToZenohHex zid)) (zidToZenohHex zid) := by
    refine decodes_readString (encoded_zidToZenohHex h) ?_
    rw [pushString, List.length_append] at hfits
    omega
  rw [← List.append_nil (pushString _)]
  refine Decodes.bind hread ?_
  simp only [zenohHexToZid_zidToZenohHex h]
  exact decodes_done _

theorem decodes_readAlignmentReply {reply : AlignmentReply}
    (htexts : ∀ e ∈ replyEvents reply, Texts e)
    (hzid : ∀ zid, reply = .discovery zid → CanonicalZid zid)
    (hfits : (encodeAlignmentReply reply).length < 2 ^ 64) :
    readAlignmentReply.Decodes (encodeAlignmentReply reply) (wireReply reply) := by
  have hbody : ∀ {tag : UInt32} {body : Bytes}, (pushU32 tag ++ body).length < 2 ^ 64 →
      body.length < 2 ^ 64 := by
    intro tag body h
    rw [List.length_append] at h
    omega
  cases reply with
  | discovery zid =>
    exact (decodes_readU32 0).bind (decodes_readDiscovery (hzid zid rfl) (hbody hfits))
  | intervals map =>
    exact (decodes_readU32 1).bind
      ((decodes_readFingerprintMap (hbody hfits)).map AlignmentReply.intervals)
  | subIntervals map =>
    exact (decodes_readU32 2).bind
      ((decodes_readSubFingerprintMap (hbody hfits)).map AlignmentReply.subIntervals)
  | eventsMetadata events =>
    exact (decodes_readU32 3).bind
      ((decodes_readEvents htexts (hbody hfits)).map AlignmentReply.eventsMetadata)
  | retrieval e =>
    exact (decodes_readU32 4).bind
      ((decodes_readEventMetadata (htexts e (by simp [replyEvents])) (hbody hfits)).map
        AlignmentReply.retrieval)

end Messages

/-- A decoder reads an encoding back and refuses every strict part of it and every continuation. -/
def Exactly {ε α : Type} (decode : Bytes → Except ε α) (encoding : Bytes) (a : α) : Prop :=
  decode encoding = .ok a ∧
    (∀ part, part <+: encoding → part ≠ encoding → ∃ e, decode part = .error e) ∧
    ∀ extra, extra ≠ [] → ∃ e, decode (encoding ++ extra) = .error e

theorem exactly_of_decodes {ε α : Type} [WireError ε] {p : Program ε α} {encoding : Bytes} {a : α}
    (h : p.Decodes encoding a) (trailing : ε) : Exactly (p.decode trailing) encoding a := by
  obtain ⟨hwhole, hpart, hextra⟩ := h.exact trailing
  exact ⟨hwhole, hpart, fun extra hne => ⟨trailing, hextra extra hne⟩⟩

/-- The messages whose ids are canonical and whose texts are strings, of a size that memory holds, are
read back exactly; on any input whatever the readers stay within it, and no length they accept is
larger than what is left. -/
theorem codecs_exact :
    (∀ digest : Digest, (encodeDigest digest).length < 2 ^ 64 →
      Exactly decodeDigest (encodeDigest digest) digest) ∧
    (∀ query : AlignmentQuery, (∀ e ∈ queryEvents query, Texts e ∧ CanonicalEvent e) →
      (encodeAlignmentQuery query).length < 2 ^ 64 →
      Exactly decodeAlignmentQuery (encodeAlignmentQuery query) query) ∧
    (∀ reply : AlignmentReply, (∀ e ∈ replyEvents reply, Texts e ∧ CanonicalEvent e) →
      (∀ zid, reply = .discovery zid → CanonicalZid zid) →
      (encodeAlignmentReply reply).length < 2 ^ 64 →
      Exactly decodeAlignmentReply (encodeAlignmentReply reply) reply) ∧
    ∀ input : Bytes,
      (∀ access ∈ readDigest.accesses input 0, access.Within input) ∧
      (∀ access ∈ readAlignmentQuery.accesses input 0, access.Within input) ∧
      ∀ access ∈ readAlignmentReply.accesses input 0, access.Within input := by
  refine ⟨fun digest hfits => ?_, fun query hevents hfits => ?_, fun reply hevents hzid hfits => ?_,
    fun input => ⟨accesses_within _ _ _, accesses_within _ _ _, accesses_within _ _ _⟩⟩
  · exact exactly_of_decodes (decodes_readDigest hfits) .trailingBytes
  · have hread := decodes_readAlignmentQuery (fun e he => (hevents e he).1) hfits
    rw [wireQuery_eq fun e he => (hevents e he).2] at hread
    exact exactly_of_decodes hread .trailingBytes
  · have hread := decodes_readAlignmentReply (fun e he => (hevents e he).1) hzid hfits
    rw [wireReply_eq fun e he => (hevents e he).2] at hread
    exact exactly_of_decodes hread .trailingBytes

theorem codecs_exact_small :
    Exactly decodeAlignmentQuery
      (encodeAlignmentQuery (.events [.put (some [0x61]) ⟨5, [1, 2]⟩]))
      (.events [.put (some [0x61]) ⟨5, [1, 2]⟩]) ∧
    Exactly decodeAlignmentReply (encodeAlignmentReply (.discovery [0, 7])) (.discovery [0, 7]) := by
  have htext : Utf8.Encoded [0x61] := ⟨['a'], by decide⟩
  have hevent : Texts (.put (some [0x61]) ⟨5, [1, 2]⟩) ∧
      CanonicalEvent (.put (some [0x61]) ⟨5, [1, 2]⟩) :=
    ⟨⟨by simpa [EventMetadata.put] using htext, by simp [EventMetadata.put, actionText]⟩,
      by decide, by unfold EventMetadata.put; decide⟩
  refine ⟨codecs_exact.2.1 _ (by simpa [queryEvents] using hevent) (by decide), ?_⟩
  refine codecs_exact.2.2.1 _ (by simp [replyEvents]) (fun zid hzid => ?_) (by decide)
  obtain rfl : [0, 7] = zid := AlignmentReply.discovery.inj hzid
  decide

/-- A discovery reply carries an id outside of any timestamp, and one that ends in a zero comes back
shorter. -/
theorem discovery_not_exact :
    ¬ ∀ reply : AlignmentReply, (∀ e ∈ replyEvents reply, Texts e ∧ CanonicalEvent e) →
      (encodeAlignmentReply reply).length < 2 ^ 64 →
      decodeAlignmentReply (encodeAlignmentReply reply) = .ok reply := by
  intro h
  have hback : decodeAlignmentReply (encodeAlignmentReply (.discovery [1, 0])) =
      .ok (.discovery [1]) := by decide +kernel
  have hsame := h (.discovery [1, 0]) (by simp [replyEvents]) (by decide)
  rw [hback] at hsame
  exact absurd hsame (by decide)

end WatchingZenoh.StorageWireExact
