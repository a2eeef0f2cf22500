import Forail.Scheduler.Settled

/-! Confluence. In a finished guarded run the marking condition says what became of each
node, and it only looks at the parents; so two such runs with the same outcomes agree,
parents first, on every node. Without the guard a node can be started on the strength of a
parent without a template that a later tick marks. -/

namespace Forail.Scheduler.WorkflowDAG

open Acyclicity

theorem spared_congr {g : WorkflowDAG} (hg : g.WellFormed) {objs objs' : NodeStore} {n : NodeId}
    (hc : (objs n).allParentsMustConverge = (objs' n).allParentsMustConverge)
    (hp : ∀ p, g.Parent p n → objs p = objs' p) : Spared g objs n ↔ Spared g objs' n := by
  rw [Spared, Spared, dnrCondition_congr hg hc hp]

theorem Consistent.dnr_outside {g : WorkflowDAG} {objs : NodeStore} (h : Consistent g objs)
    {n : NodeId} (hn : n ∉ g.nodes) : (objs n).doNotRun = false := by
  rw [← Bool.not_eq_true]
  exact fun hd => hn (h.dnr_nodes n hd).1

section Runs
variable {g : WorkflowDAG} (hg : g.WellFormed) (hac : Acyclic g.Parent)
variable {f : NodeId → Status} {start : NodeStore} {s : WorkflowJob}
include hg hac

/-- The record of a node at the end of a guarded run, from those of its parents. -/
theorem final_record (hu : Undecided start)
    (h : ((runs g (outcome f) start).restrict (Guard g)).Reachable s) (hst : s.status ≠ .running)
    {n : NodeId} (hn : n ∈ g.nodes) :
    Solved g s.objs n ∧ ((s.objs n).job = none ∨ (s.objs n).job = some (f n)) := by
  have hinv := runInv hg hac hu h.of_restrict
  have hfinal := hinv.final hst
  have hsolved := solved_of_done hg hac hu h hfinal.done hfinal.marked hn
  refine ⟨hsolved, ?_⟩
  cases hj : (s.objs n).job with
  | none => exact .inl rfl
  | some st =>
    rw [job_outcome hg hac hu h.of_restrict hj (hsolved.ended st hj)]
    exact .inr rfl

/-- Two finished guarded runs of one workflow with the same outcomes end in the same store. -/
theorem final_eq (hu : Undecided start) {s' : WorkflowJob}
    (h : ((runs g (outcome f) start).restrict (Guard g)).Reachable s) (hst : s.status ≠ .running)
    (h' : ((runs g (outcome f) start).restrict (Guard g)).Reachable s')
    (hst' : s'.status ≠ .running) (n : NodeId) : s.objs n = s'.objs n := by
  have hinv := runInv hg hac hu h.of_restrict
  have hinv' := runInv hg hac hu h'.of_restrict
  have htmpl : ∀ n, (s.objs n).unifiedJobTemplate = (s'.objs n).unifiedJobTemplate := fun n =>
    (hinv.advances.template n).trans (hinv'.advances.template n).symm
  have hconv : ∀ n, (s.objs n).allParentsMustConverge = (s'.objs n).allParentsMustConverge :=
    fun n => (hinv.advances.converge n).trans (hinv'.advances.converge n).symm
  induction n using (hac.wellFounded g.nodes fun p c hp => hp.nodes.1).induction with | _ n ih => ?_
  refine WorkflowNode.ext ?_ ?_ (htmpl n) (hconv n)
  · by_cases hn : n ∈ g.nodes
    · have hspared := spared_congr hg (hconv n) ih
      rw [Bool.eq_iff_iff, (final_record hg hac hu h hst hn).1.dnr,
        (final_record hg hac hu h' hst' hn).1.dnr, hspared]
    · rw [hinv.consistent.dnr_outside hn, hinv'.consistent.dnr_outside hn]
  · by_cases hn : n ∈ g.nodes
    · obtain ⟨hs, hj⟩ := final_record hg hac hu h hst hn
      obtain ⟨hs', hj'⟩ := final_record hg hac hu h' hst' hn
      have hiff : (s.objs n).job ≠ none ↔ (s'.objs n).job ≠ none := by
        rw [hs.job, hs'.job, spared_congr hg (hconv n) ih, htmpl n]
      rcases hj with hj | hj <;> rcases hj' with hj' | hj' <;> rw [hj, hj'] at hiff ⊢ <;>
        simp at hiff
    · have hnone : ∀ o : NodeStore, Consistent g o → (o n).job = none := fun o ho =>
        by_contra fun hj => hn (ho.job_nodes n hj)
      rw [hnone _ hinv.consistent, hnone _ hinv'.consistent]

end Runs

/-- Any two finished guarded runs of a workflow, in which some nodes may lack a template,
start the same nodes and mark the same nodes. -/
theorem confluent {w : WorkflowGraph} (hac : Acyclic w.Parent) {f : NodeId → Status}
    {start : NodeStore} (hu : Undecided start) {s s' : WorkflowJob}
    (h : ((runs w.initGraph (outcome f) start).restrict (Guard w.initGraph)).Reachable s)
    (hst : s.status ≠ .running)
    (h' : ((runs w.initGraph (outcome f) start).restrict (Guard w.initGraph)).Reachable s')
    (hst' : s'.status ≠ .running) :
    (∀ n, n ∈ s.spawned ↔ n ∈ s'.spawned) ∧
    (∀ n, (s.objs n).job ≠ none ↔ (s'.objs n).job ≠ none) ∧
    ∀ n, (s.objs n).doNotRun = true ↔ (s'.objs n).doNotRun = true := by
  have hg := w.initGraph_wellFormed
  have hac' : Acyclic w.initGraph.Parent := w.initGraph_parent ▸ hac
  have heq := final_eq hg hac' hu h hst h' hst'
  have hspawned := (runInv hg hac' hu h.of_restrict).mem_spawned
  have hspawned' := (runInv hg hac' hu h'.of_restrict).mem_spawned
  exact ⟨fun n => by rw [hspawned, hspawned', heq n], fun n => by rw [heq n],
    fun n => by rw [heq n]⟩

/-! A node without a template below a root that fails, and an ALL-convergence child of
both it and a second root. -/

def undecidedParent : WorkflowGraph where
  nodes := [1, 2, 3, 4]
  edges
    | .successNodes => [(1, 3)]
    | .failureNodes => []
    | .alwaysNodes => [(3, 4), (2, 4)]
  nodes_nodup := by decide
  edges_nodes := by intro l; cases l <;> decide

def undecidedParentStart : NodeStore := fun n =>
  ⟨false, none, if n = 3 then none else some 0, n = 4⟩

def firstRootFails : NodeId → Status := fun n => if n = 1 then .failed else .successful

theorem undecidedParent_acyclic : Acyclic undecidedParent.Parent :=
  undecidedParent.acyclic_of_lt fun l => by cases l <;> decide

/-- If the second root ends first the child runs, and otherwise it is marked. -/
theorem undecidedParent_not_confluent : Acyclic undecidedParent.Parent ∧
    Undecided undecidedParentStart ∧ ¬ ∀ s s',
      (runs undecidedParent.initGraph (outcome firstRootFails) undecidedParentStart).Reachable s →
      s.status ≠ .running →
      (runs undecidedParent.initGraph (outcome firstRootFails) undecidedParentStart).Reachable s' →
      s'.status ≠ .running →
      (∀ n, n ∈ s.spawned ↔ n ∈ s'.spawned) ∧
        ∀ n, (s.objs n).doNotRun = true ↔ (s'.objs n).doNotRun = true := by
  refine ⟨undecidedParent_acyclic, fun _ => ⟨rfl, rfl⟩, fun h => ?_⟩
  have hrun : System.runAll (exec undecidedParent.initGraph) ⟨.running, "", undecidedParentStart, []⟩
      [.tick, .job 2 .successful, .tick, .job 1 .failed, .job 4 .successful, .tick] = some _ := rfl
  have hrun' : System.runAll (exec undecidedParent.initGraph) ⟨.running, "", undecidedParentStart, []⟩
      [.tick, .job 1 .failed, .tick, .job 2 .successful, .tick] = some _ := rfl
  have hspawned := (h _ _
    (reachable_of_runAll (by simp [EventAllowed, outcome, firstRootFails]) hrun) (by decide)
    (reachable_of_runAll (by simp [EventAllowed, outcome, firstRootFails]) hrun') (by decide)).1 4
  revert hspawned
  decide

/-! A root without a template, whose child waits for a second root. -/

def missingRoot : WorkflowGraph where
  nodes := [1, 2, 3]
  edges
    | .successNodes => [(2, 3)]
    | .failureNodes => []
    | .alwaysNodes => [(1, 3)]
  nodes_nodup := WorkflowGraph.nodup_three
  edges_nodes := by intro l; cases l <;> decide

def missingRootStart : NodeStore := fun n => ⟨false, none, if n = 1 then none else some 0, n = 3⟩

theorem missingRoot_acyclic : Acyclic missingRoot.Parent :=
  missingRoot.acyclic_of_lt fun l => by cases l <;> decide

theorem missingRoot_guarded {s : WorkflowJob}
    (h : (runs missingRoot.initGraph (outcome fun _ => .successful) missingRootStart).Reachable s) :
    ((runs missingRoot.initGraph (outcome fun _ => .successful) missingRootStart).restrict
      (Guard missingRoot.initGraph)).Reachable s := by
  refine guarded_of_missing_roots missingRoot.initGraph_wellFormed
    (missingRoot.initGraph_parent ▸ missingRoot_acyclic) (fun _ => ⟨rfl, rfl⟩) (fun n _ hn => ?_) h
  have h1 : n = 1 := by
    by_contra hne
    simp [missingRootStart, hne] at hn
  rw [h1]
  decide

/-- A run with one tick after each step and a run with more of them. -/
theorem missingRoot_confluent : ∃ s s' : WorkflowJob, s.spawned = [2, 3] ∧ s'.spawned = [2, 3] ∧
    (∀ n, (s.objs n).job ≠ none ↔ (s'.objs n).job ≠ none) ∧
    ∀ n, (s.objs n).doNotRun = true ↔ (s'.objs n).doNotRun = true := by
  have hrun : System.runAll (exec missingRoot.initGraph) ⟨.running, "", missingRootStart, []⟩
      [.tick, .job 2 .successful, .tick, .job 3 .successful, .tick] = some _ := rfl
  have hrun' : System.runAll (exec missingRoot.initGraph) ⟨.running, "", missingRootStart, []⟩
      [.tick, .tick, .job 2 .running, .tick, .job 2 .successful, .tick, .job 3 .successful, .tick] =
      some _ := rfl
  have h := confluent missingRoot_acyclic (fun _ => ⟨rfl, rfl⟩)
    (missingRoot_guarded (reachable_of_runAll (by simp [EventAllowed, outcome]) hrun)) (by decide)
    (missingRoot_guarded (reachable_of_runAll
      (by simp [EventAllowed, outcome, Status.terminal]) hrun')) (by decide)
  exact ⟨_, _, rfl, rfl, h.2.1, h.2.2⟩

end Forail.Scheduler.WorkflowDAG
