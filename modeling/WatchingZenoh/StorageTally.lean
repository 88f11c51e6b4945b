import WatchingZenoh.StorageReplication

/-! The replication log as a tally: it holds, for every interval and sub-interval, how many of a list
of events fall there and the exclusive or of their fingerprints. Inserting and removing an event move
the list by that event, and a log that tallies the events has their digest. -/

namespace WatchingZenoh.StorageTally

open Timestamp StorageReplication NestedMap
open Std (ExtTreeMap)

abbrev LogEvent := Option Bytes × TimestampHint

variable [FingerprintHash] {config : ReplicationConfig}

def fingerprintOf (event : LogEvent) : Fingerprint := eventFingerprint event.1 event.2

def xorAll (events : List LogEvent) : Fingerprint :=
  events.foldl (fun acc event => acc ^^^ fingerprintOf event) 0

def summary (events : List LogEvent) : Option SubIntervalBucket :=
  if events = [] then none else some ⟨xorAll events, events.length⟩

/-- The events that fall into one sub-interval of one interval. -/
def eventsAt (config : ReplicationConfig) (events : List LogEvent)
    (place : IntervalIdx × SubIntervalIdx) : List LogEvent :=
  events.filter fun event => config.classify event.2.time = place

structure Tallies (config : ReplicationConfig)
    (intervals : ExtTreeMap IntervalIdx (ExtTreeMap SubIntervalIdx SubIntervalBucket))
    (events : List LogEvent) : Prop where
  pruned : Pruned intervals
  cells : ∀ place, cell intervals place.1 place.2 = summary (eventsAt config events place)

theorem xorAll_append (events rest : List LogEvent) :
    xorAll (events ++ rest) = xorAll events ^^^ xorAll rest := by
  induction rest using List.reverseRecOn with
  | nil => simp [xorAll]
  | append_singleton rest event ih =>
    rw [← List.append_assoc, xorAll, List.foldl_append, ← xorAll, ih]
    simp [xorAll, List.foldl_append, UInt64.xor_assoc]

theorem xorAll_cons (event : LogEvent) (events : List LogEvent) :
    xorAll (event :: events) = xorAll events ^^^ fingerprintOf event := by
  rw [← List.singleton_append, xorAll_append, UInt64.xor_comm]
  simp [xorAll]

theorem xorAll_perm {events events' : List LogEvent} (h : events.Perm events') :
    xorAll events = xorAll events' := by
  induction h with
  | nil => rfl
  | cons event _ ih => rw [xorAll_cons, xorAll_cons, ih]
  | swap a b events =>
    simp only [xorAll_cons, UInt64.xor_assoc]
    rw [UInt64.xor_comm (fingerprintOf a)]
  | trans _ _ ih ih' => exact ih.trans ih'

theorem summary_perm {events events' : List LogEvent} (h : events.Perm events') :
    summary events = summary events' := by
  have hnil : events = [] ↔ events' = [] := by
    rw [← List.length_eq_zero_iff, ← List.length_eq_zero_iff, h.length_eq]
  simp only [summary, hnil, xorAll_perm h, h.length_eq]

theorem summary_cons (event : LogEvent) (events : List LogEvent) :
    summary (event :: events) =
      some ⟨((summary events).getD ⟨0, 0⟩).fingerprint ^^^ fingerprintOf event,
        ((summary events).getD ⟨0, 0⟩).events + 1⟩ := by
  by_cases h : events = []
  · subst h
    simp [summary, xorAll]
  · simp [summary, h, xorAll_cons]

omit [FingerprintHash] in
theorem eventsAt_cons (event : LogEvent) (events : List LogEvent)
    (place : IntervalIdx × SubIntervalIdx) :
    eventsAt config (event :: events) place =
      if config.classify event.2.time = place then event :: eventsAt config events place
      else eventsAt config events place := by
  simp [eventsAt, List.filter_cons]

namespace Tallies

variable {intervals : ExtTreeMap IntervalIdx (ExtTreeMap SubIntervalIdx SubIntervalBucket)}
  {events events' : List LogEvent}

theorem perm (h : Tallies config intervals events) (hperm : events.Perm events') :
    Tallies config intervals events' :=
  ⟨h.pruned, fun place => (h.cells place).trans (summary_perm (hperm.filter _))⟩

theorem nil : Tallies config ∅ [] := ⟨pruned_empty, fun place => by simp [eventsAt, summary]⟩

/-- One more event in its cell. -/
theorem insert (h : Tallies config intervals events) (event : LogEvent) :
    Tallies config
      (upsert intervals (config.classify event.2.time).1 (config.classify event.2.time).2 ⟨0, 0⟩
        fun bucket => ⟨bucket.fingerprint ^^^ fingerprintOf event, bucket.events + 1⟩)
      (event :: events) := by
  constructor
  · rw [upsert_eq_alterCell]
    exact pruned_alterCell _ _ h.pruned _
  · intro place
    rw [cell_upsert, eventsAt_cons]
    by_cases hplace : config.classify event.2.time = place
    · subst hplace
      rw [if_pos rfl, if_pos rfl, summary_cons, h.cells]
    · rw [if_neg hplace, if_neg hplace, h.cells]

end Tallies

theorem without_summary_cons (event : LogEvent) (events : List LogEvent) :
    (summary (event :: events)).bind (SubIntervalBucket.without (fingerprintOf event)) =
      summary events := by
  by_cases h : events = []
  · subst h
    simp [summary, SubIntervalBucket.without]
  · have hlen : events.length ≠ 0 := by simpa using h
    simp [summary, SubIntervalBucket.without, h, hlen, xorAll_cons]

section Log

variable {log : ReplicationLog} {events rest : List LogEvent}

def Follows (log : ReplicationLog) (events : List LogEvent) : Prop :=
  ∀ config, log.binding = some config → Tallies config log.intervals events

theorem Follows.perm (h : Follows log events) (hperm : events.Perm rest) : Follows log rest :=
  fun config hbound => (h config hbound).perm hperm

theorem insertEvent_binding (event : LogEvent) :
    (log.insertEvent event.1 event.2).binding = log.binding := by
  unfold ReplicationLog.insertEvent
  rcases h : log.binding with _ | config <;> simp [h]

theorem removeEvent_binding (event : LogEvent) :
    (log.removeEvent event.1 event.2).binding = log.binding := by
  unfold ReplicationLog.removeEvent
  rcases h : log.binding with _ | config
  · simp [h]
  · rcases hidx : log.intervals[(config.classify event.2.time).1]? with _ | subs <;> simp [h, hidx]

theorem follows_insertEvent (h : Follows log events) (event : LogEvent) :
    Follows (log.insertEvent event.1 event.2) (event :: events) := by
  intro config hbound
  rw [insertEvent_binding] at hbound
  have hins := (h config hbound).insert event
  simpa [ReplicationLog.insertEvent, hbound, fingerprintOf] using hins

theorem removeEvent_intervals (hbound : log.binding = some config) (hpruned : Pruned log.intervals)
    (event : LogEvent) :
    (log.removeEvent event.1 event.2).intervals =
      alterCell log.intervals (config.classify event.2.time).1 (config.classify event.2.time).2
        (·.bind (SubIntervalBucket.without (fingerprintOf event))) := by
  set idx := (config.classify event.2.time).1 with hidx
  set sub := (config.classify event.2.time).2 with hsub
  rcases hsubs : log.intervals[idx]? with _ | subs
  · have hsame : (log.removeEvent event.1 event.2).intervals = log.intervals := by
      simp [ReplicationLog.removeEvent, hbound, ← hidx, hsubs]
    rw [hsame]
    refine ext_cell hpruned (pruned_alterCell _ _ hpruned _) fun i j => ?_
    rw [cell_alterCell]
    split_ifs with hij
    · obtain ⟨rfl, rfl⟩ := Prod.mk.inj hij
      simp [cell, hsubs]
    · rfl
  · set subs' := subs.alter sub (·.bind (SubIntervalBucket.without (fingerprintOf event)))
      with hsubs'
    have hremoved : (log.removeEvent event.1 event.2).intervals =
        if subs'.isEmpty then log.intervals.erase idx else log.intervals.insert idx subs' := by
      simp only [ReplicationLog.removeEvent, hbound, ← hidx, ← hsub, hsubs]
      rfl
    rw [hremoved, alterCell]
    refine ExtTreeMap.ext_getElem? fun i => ?_
    by_cases hi : idx = i
    · subst hi
      rw [ExtTreeMap.getElem?_alter_self, hsubs, Option.getD_some, ← hsubs']
      by_cases hempty : subs'.isEmpty = true <;> simp only [hempty, if_true]
      · rw [ExtTreeMap.getElem?_erase_self]
      · rw [if_neg (by simp), ExtTreeMap.getElem?_insert_self, if_neg (by simp)]
    · split_ifs with hempty <;>
        simp [ExtTreeMap.getElem?_alter, ExtTreeMap.getElem?_erase, ExtTreeMap.getElem?_insert, hi]

theorem follows_removeEvent {event : LogEvent} (h : Follows log (event :: events)) :
    Follows (log.removeEvent event.1 event.2) events := by
  intro config hbound
  rw [removeEvent_binding] at hbound
  have htally := h config hbound
  rw [removeEvent_intervals hbound htally.pruned]
  refine ⟨pruned_alterCell _ _ htally.pruned _, fun place => ?_⟩
  rw [cell_alterCell, htally.cells, htally.cells, eventsAt_cons, eventsAt_cons]
  by_cases hplace : config.classify event.2.time = place
  · subst hplace
    simp [without_summary_cons]
  · simp [hplace]

/-- What a displaced and a new event do to the list the log follows. -/
theorem follows_apply {key : Option Bytes} {previous : Option TimestampHint}
    (h : Follows log (previous.toList.map (fun t => (key, t)) ++ rest))
    (current : Option TimestampHint) :
    Follows (log.apply key previous current)
      (current.toList.map (fun t => (key, t)) ++ rest) := by
  rcases hbound : log.binding with _ | config
  · intro config' hbound'
    have hsame : log.apply key previous current = log := by simp [ReplicationLog.apply, hbound]
    rw [hsame, hbound] at hbound'
    simp at hbound'
  · have hremoved : Follows (previous.elim log (log.removeEvent key)) rest := by
      rcases previous with _ | previous
      · exact h
      · exact @follows_removeEvent _ log rest (key, previous) h
    have happly : log.apply key previous current =
        current.elim (previous.elim log (log.removeEvent key))
          ((previous.elim log (log.removeEvent key)).insertEvent key) := by
      rcases previous with _ | previous <;> rcases current with _ | current <;>
        simp [ReplicationLog.apply, hbound]
    rw [happly]
    rcases current with _ | current
    · exact hremoved
    · exact follows_insertEvent hremoved (key, current)

theorem follows_foldl_insertEvent (h : Follows log rest) (events : List LogEvent) :
    Follows (events.foldl (fun log event => log.insertEvent event.1 event.2) log)
      (events.reverse ++ rest) := by
  induction events generalizing log rest with
  | nil => exact h
  | cons event events ih => simpa using ih (follows_insertEvent h event)

theorem follows_seed (config : ReplicationConfig) (events : List LogEvent) :
    Follows (log.seed config events) events := by
  have hempty : Follows (⟨some config, ∅, log.seeds + 1⟩ : ReplicationLog) [] :=
    fun _ _ => Tallies.nil
  refine (follows_foldl_insertEvent hempty events).perm ?_
  rw [List.append_nil]
  exact List.reverse_perm events

theorem seed_binding (config : ReplicationConfig) (events : List LogEvent) :
    (log.seed config events).binding = some config := by
  have hfold : ∀ (events : List LogEvent) (log : ReplicationLog),
      (events.foldl (fun log event => log.insertEvent event.1 event.2) log).binding =
        log.binding := by
    intro events
    induction events with
    | nil => exact fun log => rfl
    | cons event events ih => exact fun log => (ih _).trans (insertEvent_binding event)
  exact hfold events _

end Log

end WatchingZenoh.StorageTally
