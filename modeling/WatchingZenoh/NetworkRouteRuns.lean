import Mathlib
import WatchingZenoh.NetworkFreed

/-! Runs in which the trees are computed now and then. Between two computations a route is read off the
trees only while all that it names has stayed in the graph. -/

namespace WatchingZenoh.NetworkGraph

open StableGraph StableUnGraph LinkstateNetwork

inductive TreeCall
  | topology (call : Call)
  | computeTrees

inductive TreeAnswer
  | topology (answer : Answer)
  | newChildren (delta : List (Zid × List Zid))

theorem exists_last {α : Type} {a : α} {l : List α} (h : a ∈ l) :
    ∃ before after, l = before ++ a :: after ∧ a ∉ after := by
  obtain ⟨after, before, heq, hnot⟩ := List.eq_append_cons_of_mem (List.mem_reverse.mpr h)
  refine ⟨before.reverse, after.reverse, ?_, by simpa using hnot⟩
  rw [← List.reverse_reverse l, heq]
  simp

variable {G ω : Type} [StableUnGraph G Node ω] [EdgeArith ω] [HashOrder] [GraphSearch G]
  {selfZid : Zid} {net net' mid : LinkstateNetwork G}

def treeStep (net : LinkstateNetwork G) : TreeCall → Option (LinkstateNetwork G × TreeAnswer)
  | .topology call => (step net call).map (Prod.map id .topology)
  | .computeTrees => net.computeTrees.map (Prod.map id .newChildren)

theorem computeTrees_of_treeStep {answer : TreeAnswer}
    (h : treeStep net .computeTrees = some (net', answer)) :
    ∃ delta, net.computeTrees = some (net', delta) := by
  simp only [treeStep, Option.map_eq_some_iff] at h
  obtain ⟨⟨net'', delta⟩, heq, hpair⟩ := h
  cases hpair
  exact ⟨delta, heq⟩

omit [HashOrder] [GraphSearch G] in
theorem Settled.live (h : Settled ∅ selfZid net) : Live net net.idx := by
  obtain ⟨n, hn, -⟩ := h.root
  exact ⟨n, hn⟩

omit [HashOrder] in
theorem Settled.computeTrees (h : Settled ∅ selfZid net) {delta : List (Zid × List Zid)}
    (heq : net.computeTrees = some (net', delta)) : Settled ∅ selfZid net' ∧ LiveTrees net' := by
  have hcomputed := (computed_of_computeTrees h.live heq).1
  refine ⟨?_, hcomputed.liveTrees⟩
  rw [hcomputed.frame]
  exact h.frame rfl rfl rfl rfl

theorem Settled.treeStep_topology (h : Settled ∅ selfZid net) {call : Call} {answer : TreeAnswer}
    (heq : treeStep net (.topology call) = some (net', answer)) :
    Settled ∅ selfZid net' ∧ ∃ freed, Freed freed net net' := by
  obtain ⟨net'', answer', freed, hstep, hsettled, hfreed⟩ := exists_step_freed h call
  rw [treeStep, hstep] at heq
  cases heq
  exact ⟨hsettled, freed, hfreed⟩

theorem Settled.treeRun (h : Settled ∅ selfZid net) {calls : List TreeCall}
    {answers : List TreeAnswer} (hrun : Steps.run treeStep net calls = some (net', answers)) :
    Settled ∅ selfZid net' := by
  refine Steps.run_preserves (I := Settled ∅ selfZid) (fun s call s' answer hs heq => ?_) h hrun
  cases call with
  | topology call => exact (hs.treeStep_topology heq).1
  | computeTrees =>
    obtain ⟨delta, hcompute⟩ := computeTrees_of_treeStep heq
    exact (hs.computeTrees hcompute).1

theorem Settled.exists_treeRun (h : Settled ∅ selfZid net)
    (hsearch : ∀ (g : G), ∀ root ∈ nodeIndices g, (bellmanFord g root).isSome)
    (calls : List TreeCall) : ∃ net' answers, Steps.run treeStep net calls = some (net', answers) := by
  have hstep : ∀ (net : LinkstateNetwork G) (call : TreeCall), Settled ∅ selfZid net →
      ∃ net' answer, treeStep net call = some (net', answer) ∧ Settled ∅ selfZid net' := by
    intro net call h
    cases call with
    | topology call =>
      obtain ⟨net', answer, freed, hstep, hsettled, -⟩ := exists_step_freed h call
      exact ⟨net', .topology answer, by rw [treeStep, hstep]; rfl, hsettled⟩
    | computeTrees =>
      obtain ⟨net', delta, hcompute⟩ := exists_computeTrees h.live fun root hroot =>
        hsearch net.graph root (mem_nodeIndices_iff.mpr hroot)
      exact ⟨net', .newChildren delta, by rw [treeStep, hcompute]; rfl, (h.computeTrees hcompute).1⟩
  induction calls generalizing net with
  | nil => exact ⟨net, [], rfl⟩
  | cons call calls ih =>
    obtain ⟨mid, answer, hmid, hsettled⟩ := hstep net call h
    obtain ⟨net', answers, hrun⟩ := ih hsettled
    exact ⟨net', answer :: answers, Steps.run_cons hmid hrun⟩

def Present (zids : List Zid) (net : LinkstateNetwork G) : Prop := ∀ zid ∈ zids, InGraph net zid

/-- Without a computation in between, the trees say at the end of a run what they said at its start of
the ids that have stayed. -/
theorem routes_since (h : Settled ∅ selfZid net) (hlive : LiveTrees net) {calls : List TreeCall}
    (hcalls : .computeTrees ∉ calls) {answers : List TreeAnswer}
    (hrun : Steps.run treeStep net calls = some (net', answers)) (r : Entry Zid) :
    Routes net' r ↔ Routes net r ∧ Steps.Throughout treeStep (Present r.all) net calls := by
  induction calls generalizing net answers with
  | nil =>
    cases hrun
    exact ⟨fun hr => ⟨hr, hr.inGraph⟩, And.left⟩
  | cons call calls ih =>
    simp only [Steps.run, Option.bind_eq_bind, Option.bind_eq_some_iff] at hrun
    obtain ⟨⟨mid, answer⟩, hmid, ⟨last, rest⟩, hlast, hpair⟩ := hrun
    cases hpair
    rw [List.mem_cons, not_or] at hcalls
    cases call with
    | computeTrees => exact absurd rfl hcalls.1
    | topology call =>
      obtain ⟨hsettled, freed, hfreed⟩ := h.treeStep_topology hmid
      rw [ih hsettled (hfreed.liveTrees hlive) hcalls.2 hlast, hfreed.routes_iff hlive]
      constructor
      · rintro ⟨⟨hr, -⟩, hthrough⟩
        refine ⟨hr, hr.inGraph, fun s' answer' hs' => ?_⟩
        rw [hmid] at hs'
        cases hs'
        exact hthrough
      · rintro ⟨hr, -, hthrough⟩
        have hthrough := hthrough mid answer hmid
        refine ⟨⟨hr, ?_⟩, hthrough⟩
        cases calls with
        | nil => exact hthrough
        | cons => exact hthrough.1

/-- What the last computation of a run left, if these ids have been in the graph ever since. -/
def LastComputed (net : LinkstateNetwork G) (calls : List TreeCall) (zids : List Zid)
    (computed : LinkstateNetwork G) : Prop :=
  ∃ before after mid answers delta, calls = before ++ .computeTrees :: after ∧
    .computeTrees ∉ after ∧ Steps.run treeStep net before = some (mid, answers) ∧
    mid.computeTrees = some (computed, delta) ∧
    Steps.Throughout treeStep (Present zids) computed after

omit [EdgeArith ω] [HashOrder] [GraphSearch G] in
theorem not_recorded_of_fresh (h : Fresh selfZid net) (e : Entry ℕ) : ¬Recorded net.trees e := by
  have htrees : net.trees = [{ directions := [none] }] := by cases h <;> rfl
  rw [htrees]
  cases e with
  | child root below =>
    rintro ⟨tree, htree, hmem⟩
    rcases root with _ | root <;> simp at htree
    simp [← htree] at hmem
  | hop root dest first =>
    rintro ⟨tree, htree, hdir⟩
    rcases root with _ | root <;> simp at htree
    rcases dest with _ | dest <;> simp [← htree] at hdir

/-- At the end of a run, what the trees say is what its last computation wrote of the ids that have
stayed since. -/
theorem routes_iff_lastComputed (h : Fresh selfZid net) {calls : List TreeCall}
    {answers : List TreeAnswer} (hrun : Steps.run treeStep net calls = some (net', answers))
    (r : Entry Zid) :
    Routes net' r ↔ ∃ computed, LastComputed net calls r.all computed ∧ Routes computed r := by
  have hsettled := (settled_fresh h).1
  -- a computation splits the run
  have hsplit : ∀ {before after : List TreeCall}, calls = before ++ .computeTrees :: after →
      .computeTrees ∉ after → ∃ mid first computed delta,
        Steps.run treeStep net before = some (mid, first) ∧
        mid.computeTrees = some (computed, delta) ∧ (Routes net' r ↔
          Routes computed r ∧ Steps.Throughout treeStep (Present r.all) computed after) := by
    intro before after hcalls hafter
    rw [hcalls] at hrun
    obtain ⟨mid, first, rest, hfirst, hrest, -⟩ := Steps.run_append hrun
    simp only [Steps.run, Option.bind_eq_bind, Option.bind_eq_some_iff] at hrest
    obtain ⟨⟨computed, answer⟩, hcompute, ⟨last, rest⟩, hlast, hpair⟩ := hrest
    cases hpair
    obtain ⟨delta, hdelta⟩ := computeTrees_of_treeStep hcompute
    obtain ⟨hcomputed, hlive⟩ := (hsettled.treeRun hfirst).computeTrees hdelta
    exact ⟨mid, first, computed, delta, hfirst, hdelta,
      routes_since hcomputed hlive hafter hlast r⟩
  constructor
  · intro hr
    by_cases hmem : .computeTrees ∈ calls
    · obtain ⟨before, after, hcalls, hafter⟩ := exists_last hmem
      obtain ⟨mid, first, computed, delta, hfirst, hdelta, hiff⟩ := hsplit hcalls hafter
      exact ⟨computed, ⟨before, after, mid, first, delta, hcalls, hafter, hfirst, hdelta,
        (hiff.mp hr).2⟩, (hiff.mp hr).1⟩
    · have hlive : LiveTrees net := fun e he => absurd he (not_recorded_of_fresh h e)
      obtain ⟨⟨e, he, -⟩, -⟩ := (routes_since hsettled hlive hmem hrun r).mp hr
      exact absurd he (not_recorded_of_fresh h e)
  · rintro ⟨computed, ⟨before, after, mid, first, delta, hcalls, hafter, hfirst, hdelta, hthrough⟩, hr⟩
    obtain ⟨mid', first', computed', delta', hfirst', hdelta', hiff⟩ := hsplit hcalls hafter
    rw [hfirst] at hfirst'
    cases hfirst'
    rw [hdelta] at hdelta'
    cases hdelta'
    exact hiff.mpr ⟨hr, hthrough⟩

/-- Every run returns where no search finds a negative cycle. A route or a child at its end was written
by the last computation, and all that it names has been in the graph ever since. What the next
computation reports are its children but for those that the last one gave to a root, where root and
child have been in the graph ever since. -/
theorem routes_run (h : Fresh selfZid net) (calls : List TreeCall) :
    ((∀ (g : G), ∀ root ∈ nodeIndices g, (bellmanFord g root).isSome) →
      ∃ net' answers, Steps.run treeStep net calls = some (net', answers)) ∧
    ∀ net' answers, Steps.run treeStep net calls = some (net', answers) →
    (∀ source dest hop, net'.nextHop source dest = some (some hop) ↔
      ∃ computed, LastComputed net calls [source, dest, hop] computed ∧
        computed.nextHop source dest = some (some hop)) ∧
    (∀ source child, child ∈ net'.treeChildrenOf source ↔
      ∃ computed, LastComputed net calls [source, child] computed ∧
        child ∈ computed.treeChildrenOf source) ∧
    ∀ net'' delta, net'.computeTrees = some (net'', delta) → (delta.map Prod.fst).Nodup ∧
      ∀ source child, (∃ children, (source, children) ∈ delta ∧ child ∈ children) ↔
        child ∈ net''.treeChildrenOf source ∧
          ¬∃ computed, LastComputed net calls [source, child] computed ∧
            child ∈ computed.treeChildrenOf source := by
  have hsettled := (settled_fresh h).1
  refine ⟨fun hsearch => hsettled.exists_treeRun hsearch calls, fun net' answers hrun => ?_⟩
  have hsettled' := hsettled.treeRun hrun
  have hcomputed : ∀ {zids : List Zid} {computed : LinkstateNetwork G},
      LastComputed net calls zids computed → Settled ∅ selfZid computed := by
    rintro zids computed ⟨before, after, mid, first, delta, -, -, hfirst, hdelta, -⟩
    exact ((hsettled.treeRun hfirst).computeTrees hdelta).1
  have hchild : ∀ source child, child ∈ net'.treeChildrenOf source ↔
      ∃ computed, LastComputed net calls [source, child] computed ∧
        child ∈ computed.treeChildrenOf source := by
    intro source child
    rw [mem_treeChildrenOf hsettled'.index, routes_iff_lastComputed h hrun]
    refine exists_congr fun computed => and_congr_right fun hlast => ?_
    exact (mem_treeChildrenOf (hcomputed hlast).index).symm
  refine ⟨fun source dest hop => ?_, hchild, fun net'' delta heq => ?_⟩
  · rw [nextHop_eq_some hsettled'.index hsettled'.full, routes_iff_lastComputed h hrun]
    refine exists_congr fun computed => and_congr_right fun hlast => ?_
    exact (nextHop_eq_some (hcomputed hlast).index (hcomputed hlast).full).symm
  · obtain ⟨hnodup, hdelta⟩ := mem_delta hsettled'.index hsettled'.live heq
    have hsettled'' := (hsettled'.computeTrees heq).1
    refine ⟨hnodup, fun source child => ?_⟩
    rw [hdelta, ← hchild, mem_treeChildrenOf hsettled''.index, mem_treeChildrenOf hsettled'.index]

theorem throughout_self (h : Settled ∅ selfZid net) (calls : List TreeCall) :
    Steps.Throughout treeStep (Present [selfZid]) net calls := by
  have hself : ∀ {net : LinkstateNetwork G}, Settled ∅ selfZid net → Present [selfZid] net := by
    intro net h zid hzid
    obtain ⟨n, hn, hname⟩ := h.root
    rw [List.mem_singleton] at hzid
    exact ⟨net.idx, n, hn, hname.trans hzid.symm⟩
  induction calls generalizing net with
  | nil => exact hself h
  | cons call calls ih =>
    refine ⟨hself h, fun net' answer heq => ih ?_⟩
    have hrun : Steps.run treeStep net [call] = some (net', [answer]) := Steps.run_cons heq rfl
    exact h.treeRun hrun

/-- A neighbour is linked and says that it is linked with self, and the trees are computed. -/
def computeOnce : List TreeCall :=
  [.topology (.addLinkBound zidB .peer false),
    .topology (.ingestLinkstateList 0 [entryOf 0 zidB 1 [1], entryOf 1 zidA 0 []]), .computeTrees]

omit [StableUnGraph G Node ω] [EdgeArith ω] [HashOrder] [GraphSearch G] in
theorem routes_run_computed :
    letI := sortedOrder
    letI := plainArith
    let start : LinkstateNetwork (UnGraph Node ℕ) := .new zidA .peer
    ∃ net answers computed, Steps.run treeStep start computeOnce = some (net, answers) ∧
      net.nextHop zidA zidB = some (some zidB) ∧
      LastComputed start computeOnce [zidA, zidB, zidB] computed ∧
      computed.nextHop zidA zidB = some (some zidB) := by
  let _ := sortedOrder
  let _ := plainArith
  intro start
  have hrun : (Steps.run treeStep start computeOnce).any
      (fun r => decide (r.1.nextHop zidA zidB = some (some zidB))) = true := by decide +kernel
  obtain ⟨hreturns, hroutes⟩ := routes_run (.new .peer : Fresh zidA start) computeOnce
  obtain ⟨net, answers, heq⟩ := hreturns fun _ _ _ => rfl
  rw [heq, Option.any_some] at hrun
  have hhop := of_decide_eq_true hrun
  obtain ⟨computed, hlast, hcomputed⟩ := ((hroutes net answers heq).1 zidA zidB zidB).mp hhop
  exact ⟨net, answers, computed, heq, hhop, hlast, hcomputed⟩

def goAndComeBack : List TreeCall :=
  [.topology (.removeLink 0), .topology (.addLinkBound zidB .peer false),
    .topology (.ingestLinkstateList 1 [entryOf 0 zidB 2 [1], entryOf 1 zidA 0 []])]

omit [StableUnGraph G Node ω] [EdgeArith ω] [HashOrder] [GraphSearch G] in
/-- It is reported again, though it was a child of the root at the computation before and the root has
stayed. -/
theorem routes_run_back :
    letI := sortedOrder
    letI := plainArith
    let start : LinkstateNetwork (UnGraph Node ℕ) := .new zidA .peer
    ∃ net answers net' delta computed,
      Steps.run treeStep start (computeOnce ++ goAndComeBack) = some (net, answers) ∧
      net.computeTrees = some (net', delta) ∧ (zidA, [zidB]) ∈ delta ∧
      LastComputed start (computeOnce ++ goAndComeBack) [zidA] computed ∧
      zidB ∈ computed.treeChildrenOf zidA := by
  let _ := sortedOrder
  let _ := plainArith
  intro start
  have hrun : (Steps.run treeStep start (computeOnce ++ goAndComeBack)).any (fun r =>
      r.1.computeTrees.any fun r => decide ((zidA, [zidB]) ∈ r.2)) = true := by decide +kernel
  have hbefore : (Steps.run treeStep start (computeOnce.take 2)).any (fun r =>
      r.1.computeTrees.any fun r => decide (zidB ∈ r.1.treeChildrenOf zidA)) = true := by
    decide +kernel
  obtain ⟨⟨net, answers⟩, heq, hcompute⟩ := (Option.any_eq_true _ _).mp hrun
  obtain ⟨⟨net', delta⟩, hdelta, hmem⟩ := (Option.any_eq_true _ _).mp hcompute
  obtain ⟨⟨mid, first⟩, hmid, hcompute'⟩ := (Option.any_eq_true _ _).mp hbefore
  obtain ⟨⟨computed, delta'⟩, hdelta', hchild⟩ := (Option.any_eq_true _ _).mp hcompute'
  have hsettled : Settled ∅ zidA start := (settled_fresh (.new .peer)).1
  have hcomputed := ((hsettled.treeRun hmid).computeTrees hdelta').1
  refine ⟨net, answers, net', delta, computed, heq, hdelta, of_decide_eq_true hmem,
    ⟨computeOnce.take 2, goAndComeBack, mid, first, delta', rfl, ?_, hmid, hdelta',
      throughout_self hcomputed _⟩, of_decide_eq_true hchild⟩
  simp [goAndComeBack]

end WatchingZenoh.NetworkGraph
