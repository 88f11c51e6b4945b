import Mathlib

/-! The route cache of a router: the routes by key expression and source, all fresh at one version of
the tables. A reader that misses computes its route without the cache's lock, while readers of other
versions store theirs and bring the cache to their versions, so what is kept may have moved by the
time it stores. Every route that is served is the one its reader would have computed. -/

namespace WatchingZenoh.RouteCache

/-- The versions of the tables a route is read from. -/
structure RouteInputs where
  net : ℕ
  table : ℕ
  deriving DecidableEq, Repr

/-- Read from an older version: they differ, and neither member is ahead. -/
def RouteInputs.precedes (older newer : RouteInputs) : Bool :=
  decide (older ≠ newer ∧ older.net ≤ newer.net ∧ older.table ≤ newer.table)

structure Fresh (T S : Type) where
  inputs : Option RouteInputs
  routes : String → S → Option T

variable {T S : Type}

abbrev Route (T S : Type) := RouteInputs → S → String → T

/-- A call of `get_or_compute`, whose `compute` is the route at its inputs. -/
structure Lookup (R : Route T S) where
  inputs : RouteInputs
  source : S
  keyexpr : String
  resource : Bool
  compute : T
  computes : compute = R inputs source keyexpr

/-- A call of `refresh`. Its `changes` gives the keys it visits and its answer; where it answers that it
can say, each route that is another one since is reached by a key it visited. -/
structure Refresh (R : Route T S) where
  inputs : RouteInputs
  changes : ℕ → List String × Bool
  reaches : String → String → Bool
  complete : ∀ since, (changes since).2 = true → ∀ source keyexpr,
    R ⟨inputs.net, since⟩ source keyexpr ≠ R inputs source keyexpr →
    ∃ changed ∈ (changes since).1, reaches changed keyexpr = true

/-- A call between two of its lock sections: before the read, or before the write it found due. -/
inductive Call (R : Route T S)
  | look (lookup : Lookup R)
  | store (lookup : Lookup R)
  | ask (refresh : Refresh R)
  | move (refresh : Refresh R)

def Call.inputs {R : Route T S} : Call R → RouteInputs
  | look lookup => lookup.inputs
  | store lookup => lookup.inputs
  | ask refresh => refresh.inputs
  | move refresh => refresh.inputs

/-- An answer of `get_or_compute`. -/
structure Answer (T S : Type) where
  inputs : RouteInputs
  source : S
  keyexpr : String
  route : T

/-- The cache, the calls under way and the answers given so far. -/
structure System (R : Route T S) where
  fresh : Fresh T S
  computes : ℕ
  calls : ℕ → Option (Call R)
  answers : List (Answer T S)

/-- A task starts a call, or goes through its next lock section. -/
inductive Act (R : Route T S)
  | get (task : ℕ) (lookup : Lookup R)
  | refresh (task : ℕ) (refresh : Refresh R)
  | go (task : ℕ)

namespace Fresh

variable [DecidableEq S] {R : Route T S}

def new : Fresh T S := ⟨none, fun _ _ => none⟩

/-- The route kept for a lookup, when it was computed at the same inputs. -/
def served (fresh : Fresh T S) (lookup : Lookup R) : Option T :=
  if fresh.inputs = some lookup.inputs then fresh.routes lookup.keyexpr lookup.source else none

/-- A computed route is kept, unless the cache is past its inputs. -/
def store (fresh : Fresh T S) (lookup : Lookup R) : Fresh T S :=
  if fresh.inputs ≠ some lookup.inputs ∧ fresh.inputs.any lookup.inputs.precedes then fresh
  else
    let routes := if fresh.inputs = some lookup.inputs then fresh.routes else fun _ _ => none
    ⟨some lookup.inputs, Function.update routes lookup.keyexpr
      (Function.update (routes lookup.keyexpr) lookup.source (some lookup.compute))⟩

def atOrPast (fresh : Fresh T S) (inputs : RouteInputs) : Bool :=
  fresh.inputs.any fun kept => decide (kept = inputs) || inputs.precedes kept

/-- The cache is brought to other inputs, with the routes no visited key reaches. -/
def move (fresh : Fresh T S) (refresh : Refresh R) : Fresh T S :=
  match fresh.inputs with
  | none => { fresh with inputs := some refresh.inputs }
  | some was =>
    if fresh.atOrPast refresh.inputs then fresh
    else
      let answered := decide (was.net = refresh.inputs.net) && (refresh.changes was.table).2
      ⟨some refresh.inputs, fun keyexpr source =>
        if answered && !(refresh.changes was.table).1.any (refresh.reaches · keyexpr)
        then fresh.routes keyexpr source else none⟩

end Fresh

namespace System

variable [DecidableEq S] {R : Route T S}

def new : System R := ⟨Fresh.new, 0, fun _ => none, []⟩

def answer (s : System R) (task : ℕ) (lookup : Lookup R) (route : T) : System R :=
  { s with
    calls := Function.update s.calls task none
    answers := s.answers ++ [⟨lookup.inputs, lookup.source, lookup.keyexpr, route⟩] }

/-- The next lock section of a call; a missed lookup computes its route after it. -/
def go (s : System R) (task : ℕ) : Call R → System R
  | .look lookup =>
    match s.fresh.served lookup with
    | some route => s.answer task lookup route
    | none =>
      let s := { s with computes := s.computes + 1 }
      if lookup.resource then { s with calls := Function.update s.calls task (some (.store lookup)) }
      else s.answer task lookup lookup.compute
  | .store lookup => { s with fresh := s.fresh.store lookup }.answer task lookup lookup.compute
  | .ask refresh =>
    if s.fresh.atOrPast refresh.inputs then { s with calls := Function.update s.calls task none }
    else { s with calls := Function.update s.calls task (some (.move refresh)) }
  | .move refresh =>
    { s with
      fresh := s.fresh.move refresh
      calls := Function.update s.calls task none }

/-- A task that is in a call starts no other, and one that is in none has no section to go through. -/
def step (s : System R) : Act R → System R
  | .get task lookup =>
    if (s.calls task).isNone
    then { s with calls := Function.update s.calls task (some (.look lookup)) } else s
  | .refresh task refresh =>
    if (s.calls task).isNone
    then { s with calls := Function.update s.calls task (some (.ask refresh)) } else s
  | .go task => (s.calls task).elim s (s.go task)

def run (s : System R) (acts : List (Act R)) : System R := acts.foldl step s

end System

section Freshness

variable [DecidableEq S] {R : Route T S}

/-- Every route that is kept is the one at the kept inputs. -/
structure Fresh.Holds (fresh : Fresh T S) (R : Route T S) : Prop where
  empty : fresh.inputs = none → ∀ keyexpr source, fresh.routes keyexpr source = none
  right : ∀ inputs, fresh.inputs = some inputs → ∀ keyexpr source route,
    fresh.routes keyexpr source = some route → route = R inputs source keyexpr

omit [DecidableEq S] in
theorem Fresh.holds_new : (Fresh.new : Fresh T S).Holds R :=
  ⟨fun _ _ _ => rfl, fun _ h => by simp [Fresh.new] at h⟩

omit [DecidableEq S] in
theorem Fresh.Holds.served {fresh : Fresh T S} (h : fresh.Holds R) {lookup : Lookup R} {route : T}
    (hserved : fresh.served lookup = some route) :
    route = R lookup.inputs lookup.source lookup.keyexpr := by
  rw [Fresh.served] at hserved
  split_ifs at hserved with hinputs
  exact h.right _ hinputs _ _ _ hserved

theorem right_of_update (lookup : Lookup R) {routes : String → S → Option T}
    (h : ∀ keyexpr source route, routes keyexpr source = some route →
      route = R lookup.inputs source keyexpr) {keyexpr : String} {source : S} {route : T}
    (hroute : Function.update routes lookup.keyexpr
      (Function.update (routes lookup.keyexpr) lookup.source (some lookup.compute)) keyexpr source =
        some route) : route = R lookup.inputs source keyexpr := by
  by_cases hkey : keyexpr = lookup.keyexpr
  · subst hkey
    rw [Function.update_self] at hroute
    by_cases hsource : source = lookup.source
    · subst hsource
      rw [Function.update_self, Option.some.injEq] at hroute
      rw [← hroute]
      exact lookup.computes
    · rw [Function.update_of_ne hsource] at hroute
      exact h _ _ _ hroute
  · rw [Function.update_of_ne hkey] at hroute
    exact h _ _ _ hroute

theorem Fresh.Holds.store {fresh : Fresh T S} (h : fresh.Holds R) (lookup : Lookup R) :
    (fresh.store lookup).Holds R := by
  rw [Fresh.store]
  split_ifs with hpast hsame
  · exact h
  · refine ⟨fun hnone => by simp at hnone, fun inputs hinputs keyexpr source route hroute => ?_⟩
    cases hinputs
    exact right_of_update lookup (h.right _ hsame) hroute
  · refine ⟨fun hnone => by simp at hnone, fun inputs hinputs keyexpr source route hroute => ?_⟩
    cases hinputs
    exact right_of_update lookup (fun _ _ _ hnone => absurd hnone (Option.some_ne_none _).symm) hroute

omit [DecidableEq S] in
/-- A route that is kept across a move is the same one at the new inputs: had it changed, a visited key
would reach it. -/
theorem Fresh.Holds.move {fresh : Fresh T S} (h : fresh.Holds R) (refresh : Refresh R) :
    (fresh.move refresh).Holds R := by
  rw [Fresh.move]
  rcases hinputs : fresh.inputs with _ | was
  · refine ⟨fun hnone => by simp at hnone, fun inputs _ keyexpr source route hroute => ?_⟩
    simp only [h.empty hinputs keyexpr source] at hroute
    exact absurd hroute (by simp)
  · simp only
    split_ifs with hpast
    · exact h
    · refine ⟨fun hnone => by simp at hnone, fun inputs heq keyexpr source route hroute => ?_⟩
      cases heq
      simp only at hroute
      split_ifs at hroute with hkept
      obtain ⟨hanswered, hreaches⟩ := Bool.and_eq_true_iff.mp hkept
      obtain ⟨hnet, htrue⟩ := Bool.and_eq_true_iff.mp hanswered
      have hnet : was.net = refresh.inputs.net := of_decide_eq_true hnet
      have hold := h.right was hinputs keyexpr source route hroute
      have hwas : was = ⟨refresh.inputs.net, was.table⟩ := by rw [← hnet]
      by_contra hchanged
      rw [hold, hwas] at hchanged
      obtain ⟨changed, hmem, hreach⟩ := refresh.complete was.table htrue source keyexpr hchanged
      have hany : (refresh.changes was.table).1.any (refresh.reaches · keyexpr) = true :=
        List.any_eq_true.mpr ⟨changed, hmem, hreach⟩
      simp [hany] at hreaches

def Answer.Right (R : Route T S) (a : Answer T S) : Prop := a.route = R a.inputs a.source a.keyexpr

/-- What holds of the cache and of the answers. -/
structure System.Sound (s : System R) : Prop where
  fresh : s.fresh.Holds R
  answers : ∀ a ∈ s.answers, a.Right R

omit [DecidableEq S] in
theorem System.Sound.answer {s : System R} (h : s.Sound) (task : ℕ) (lookup : Lookup R) {route : T}
    (hroute : route = R lookup.inputs lookup.source lookup.keyexpr) :
    (s.answer task lookup route).Sound := by
  refine ⟨h.fresh, fun a ha => ?_⟩
  rcases List.mem_append.mp ha with ha | ha
  · exact h.answers a ha
  · rw [List.mem_singleton.mp ha]
    exact hroute

theorem System.Sound.go {s : System R} (h : s.Sound) (task : ℕ) (call : Call R) :
    (s.go task call).Sound := by
  cases call with
  | look lookup =>
    rw [System.go]
    rcases hserved : s.fresh.served lookup with _ | route
    · simp only
      split_ifs
      · exact ⟨h.fresh, h.answers⟩
      · exact System.Sound.answer (s := { s with computes := s.computes + 1 }) ⟨h.fresh, h.answers⟩
          task lookup lookup.computes
    · exact h.answer task lookup (h.fresh.served hserved)
  | store lookup =>
    exact System.Sound.answer (s := { s with fresh := s.fresh.store lookup })
      ⟨h.fresh.store lookup, h.answers⟩ task lookup lookup.computes
  | ask refresh =>
    rw [System.go]
    split_ifs
    · exact ⟨h.fresh, h.answers⟩
    · exact ⟨h.fresh, h.answers⟩
  | move refresh => exact ⟨h.fresh.move refresh, h.answers⟩

theorem System.Sound.step {s : System R} (h : s.Sound) (act : Act R) : (s.step act).Sound := by
  cases act with
  | get task lookup =>
    rw [System.step]
    split_ifs
    · exact ⟨h.fresh, h.answers⟩
    · exact h
  | refresh task refresh =>
    rw [System.step]
    split_ifs
    · exact ⟨h.fresh, h.answers⟩
    · exact h
  | go task =>
    rw [System.step]
    rcases s.calls task with _ | call
    · exact h
    · exact h.go task call

theorem System.sound_run (acts : List (Act R)) : ((System.new : System R).run acts).Sound :=
  List.foldlRecOn acts System.step ⟨Fresh.holds_new, by simp [System.new]⟩ fun _ h act _ => h.step act

theorem System.fresh_go_of_precedes {s : System R} {task : ℕ} {call : Call R} {kept : RouteInputs}
    (hkept : s.fresh.inputs = some kept) (hprecedes : call.inputs.precedes kept = true) :
    (s.go task call).fresh = s.fresh := by
  have hne : kept ≠ call.inputs := fun heq => by simp [RouteInputs.precedes, heq] at hprecedes
  cases call with
  | look lookup =>
    rw [System.go]
    rcases s.fresh.served lookup with _ | route
    · simp only
      split_ifs <;> rfl
    · rfl
  | store lookup =>
    have hpast : s.fresh.inputs ≠ some lookup.inputs ∧
        s.fresh.inputs.any lookup.inputs.precedes = true := by
      rw [hkept]
      exact ⟨fun heq => hne (Option.some.inj heq), hprecedes⟩
    have hstore : s.fresh.store lookup = s.fresh := if_pos hpast
    exact hstore
  | ask refresh =>
    rw [System.go]
    split_ifs <;> rfl
  | move refresh =>
    have hpast : s.fresh.atOrPast refresh.inputs = true := by
      rw [Fresh.atOrPast, hkept, Option.any_some, Bool.or_eq_true]
      exact .inr hprecedes
    have hmove : s.fresh.move refresh = s.fresh := by
      rw [Fresh.move]
      simp only [hkept, hpast, if_true]
    exact hmove

/-- In every order of the lock sections of any calls, each answer is the route at the inputs that were
asked at, and a call at inputs the cache is past removes no route. -/
theorem routes_fresh (R : Route T S) (acts : List (Act R)) :
    (∀ a ∈ ((System.new : System R).run acts).answers, a.route = R a.inputs a.source a.keyexpr) ∧
    ∀ task call kept, ((System.new : System R).run acts).calls task = some call →
      ((System.new : System R).run acts).fresh.inputs = some kept →
      call.inputs.precedes kept = true →
      (((System.new : System R).run acts).step (.go task)).fresh =
        ((System.new : System R).run acts).fresh := by
  refine ⟨(System.sound_run acts).answers, fun task call kept hcall hkept hprecedes => ?_⟩
  rw [System.step, hcall]
  exact System.fresh_go_of_precedes hkept hprecedes

end Freshness

/-- The route of one key is the version of the table, and that of every other is always the same. -/
def tabled : Route ℕ Unit := fun inputs _ keyexpr => if keyexpr = "a" then inputs.table else 0

def lookAt (keyexpr : String) (table : ℕ) : Lookup tabled where
  inputs := ⟨0, table⟩
  source := ()
  keyexpr := keyexpr
  resource := true
  compute := tabled ⟨0, table⟩ () keyexpr
  computes := rfl

def toNextTable : Refresh tabled where
  inputs := ⟨0, 1⟩
  changes _ := (["a"], true)
  reaches changed keyexpr := changed == keyexpr
  complete since _ source keyexpr hne := by
    refine ⟨"a", by simp, ?_⟩
    by_contra hkey
    have hother : keyexpr ≠ "a" := fun h => hkey (by simp [h])
    simp [tabled, hother] at hne

/-- Two routes are kept, and a refresh that can say what has changed drops the one and keeps the other;
the route that is kept is served without being computed again. -/
theorem routes_fresh_refreshed :
    let stored : System tabled := System.new.run [.get 0 (lookAt "a" 0), .go 0, .go 0,
      .get 0 (lookAt "b" 0), .go 0, .go 0]
    let moved := stored.run [.refresh 1 toNextTable, .go 1, .go 1]
    let last := moved.run [.get 0 (lookAt "b" 1), .go 0, .get 0 (lookAt "a" 1), .go 0, .go 0]
    stored.fresh.routes "a" () = some 0 ∧ stored.fresh.routes "b" () = some 0 ∧
      moved.fresh.inputs = some ⟨0, 1⟩ ∧ moved.fresh.routes "a" () = none ∧
      moved.fresh.routes "b" () = some 0 ∧ last.computes = 3 ∧ last.answers.length = 4 ∧
      ∀ a ∈ last.answers, a.route = tabled a.inputs a.source a.keyexpr := by
  intro stored moved last
  refine ⟨by decide +kernel, by decide +kernel, by decide +kernel, by decide +kernel,
    by decide +kernel, by decide +kernel, by decide +kernel, ?_⟩
  exact (routes_fresh tabled [.get 0 (lookAt "a" 0), .go 0, .go 0, .get 0 (lookAt "b" 0), .go 0,
    .go 0, .refresh 1 toNextTable, .go 1, .go 1, .get 0 (lookAt "b" 1), .go 0,
    .get 0 (lookAt "a" 1), .go 0, .go 0]).1

end WatchingZenoh.RouteCache
