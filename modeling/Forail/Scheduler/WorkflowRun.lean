import Forail.Base.Runs
import Forail.Scheduler.NodesToRun

/-! Runs of one workflow job. A tick of the workflow manager marks nodes, tests
whether the workflow is done and otherwise attaches a job to every node returned by
the search; between ticks the attached jobs change status. The invariant says what
every decided node owes to its parents, and all of it only looks at facts that later
steps leave alone. -/

namespace Forail.Scheduler

open Acyclicity

/-- The workflow job with its nodes; `spawned` lists the nodes for which a job was
created, in order of creation. -/
structure WorkflowJob where
  status : Status
  jobExplanation : String
  objs : NodeStore
  spawned : List NodeId

inductive WorkflowEvent
  | tick
  | job (n : NodeId) (st : Status)

namespace WorkflowDAG

def attachJob (objs : NodeStore) (n : NodeId) : NodeStore :=
  Function.update objs n { objs n with job := some .pending }

/-- The body of the loop over `spawn_nodes`. A job that cannot be started is saved as
failed; that is the same as a pending job which fails before anything else happens. -/
def spawnNode (s : WorkflowJob) (n : NodeId) : WorkflowJob :=
  if (s.objs n).unifiedJobTemplate.isNone then s
  else { s with objs := attachJob s.objs n, spawned := s.spawned ++ [n] }

/-- `spawn_workflow_graph_jobs` for a running workflow job without cancel flag. -/
def tick (g : WorkflowDAG) (s : WorkflowJob) : Option WorkflowJob := do
  let (objs, _) ← g.markDnrNodes s.objs
  let s := { s with objs := objs }
  if g.isWorkflowDone s.objs then
    let (hasFailed, reason) := g.hasWorkflowFailed s.objs
    return { s with
      status := if hasFailed then .failed else .successful
      jobExplanation := if reason.isSome then
        "No error handling paths found, marking workflow as failed" else s.jobExplanation }
  else
    let spawnNodes ← g.bfsNodesToRun s.objs
    return spawnNodes.foldl spawnNode s

def setJob (s : WorkflowJob) (n : NodeId) (st : Status) : WorkflowJob :=
  { s with objs := Function.update s.objs n { s.objs n with job := some st } }

@[simp] theorem setJob_self (s : WorkflowJob) (n : NodeId) (st : Status) :
    (setJob s n st).objs n = { s.objs n with job := some st } := by simp [setJob]

theorem setJob_of_ne (s : WorkflowJob) {n m : NodeId} (st : Status) (h : m ≠ n) :
    (setJob s n st).objs m = s.objs m := Function.update_of_ne h _ _

@[simp] theorem setJob_doNotRun (s : WorkflowJob) (n m : NodeId) (st : Status) :
    ((setJob s n st).objs m).doNotRun = (s.objs m).doNotRun := by
  by_cases h : m = n
  · subst h; simp
  · rw [setJob_of_ne s st h]

/-- The runs of a workflow from the undecided state. A job that is not over may take
any status that `allowed` grants to its node. -/
def runs (g : WorkflowDAG) (allowed : NodeId → Status → Prop) (start : NodeStore) :
    System WorkflowJob WorkflowEvent where
  init s := s = ⟨.running, "", start, []⟩
  step s e s' := match e with
    | .tick => s.status = .running ∧ g.tick s = some s'
    | .job n st => (∃ old, (s.objs n).job = some old ∧ old.terminal = false) ∧ allowed n st ∧
      s' = setJob s n st

/-- Any status may be the next one of a job. -/
def anyStatus : NodeId → Status → Prop := fun _ _ => True

/-- Nothing is decided: no node has a job or is marked. -/
def Undecided (start : NodeStore) : Prop := ∀ n, (start n).doNotRun = false ∧ (start n).job = none

/-! ### One tick -/

/-- The store at the end of the marking pass, with the equation it solves. -/
structure MarkedStore (g : WorkflowDAG) (objs m : NodeStore) : Prop where
  marks : MarksOnly objs m
  outside : ∀ n, n ∉ g.nodes → m n = objs n
  dnr : ∀ n ∈ g.nodes, (m n).doNotRun = true ↔ (objs n).doNotRun = true ∨ MarkedIn g m n

theorem spawnNodes_eq {s : WorkflowJob} {ns : List NodeId} (hnd : ns.Nodup)
    (ht : ∀ n ∈ ns, (s.objs n).unifiedJobTemplate ≠ none) :
    (ns.foldl spawnNode s).spawned = s.spawned ++ ns ∧
      (ns.foldl spawnNode s).status = s.status ∧
      ∀ n, (ns.foldl spawnNode s).objs n =
        if n ∈ ns then { s.objs n with job := some .pending } else s.objs n := by
  induction ns generalizing s with
  | nil => simp
  | cons n ns ih =>
    obtain ⟨hn, hnd⟩ := List.nodup_cons.mp hnd
    have hstep : spawnNode s n = { s with
        objs := attachJob s.objs n, spawned := s.spawned ++ [n] } := by
      simp [spawnNode, ht n List.mem_cons_self]
    have hother : ∀ m, m ≠ n → attachJob s.objs n m = s.objs m := fun m hm =>
      Function.update_of_ne hm _ _
    obtain ⟨h₁, h₂, h₃⟩ := ih (s := spawnNode s n) hnd fun m hm => by
      have hne : m ≠ n := fun he => hn (he ▸ hm)
      rw [hstep]
      simpa only [hother m hne] using ht m (List.mem_cons_of_mem _ hm)
    rw [List.foldl_cons]
    refine ⟨?_, ?_, fun m => ?_⟩
    · rw [h₁, hstep, List.append_assoc]; rfl
    · rw [h₂, hstep]
    · rw [h₃, hstep]
      by_cases hm : m = n
      · subst hm; simp [hn, attachJob]
      · simp [hm, hother m hm]

/-- What a tick does. -/
inductive TickCases (g : WorkflowDAG) (s : WorkflowJob) (m : NodeStore) (s' : WorkflowJob) : Prop
  | done : g.isWorkflowDone m = true → s'.objs = m → s'.spawned = s.spawned →
      s'.status ≠ .running → TickCases g s m s'
  | spawn (r : List NodeId) : g.isWorkflowDone m = false → g.bfsNodesToRun m = some r → r.Nodup →
      (∀ n, n ∈ r ↔ g.Reached m n ∧ g.ready m n = true) → s'.status = s.status →
      s'.spawned = s.spawned ++ r →
      (∀ n, s'.objs n = if n ∈ r then { m n with job := some .pending } else m n) →
      TickCases g s m s'

theorem ready_template {g : WorkflowDAG} {objs : NodeStore} {n : NodeId}
    (h : g.ready objs n = true) : (objs n).unifiedJobTemplate ≠ none := by
  simp only [ready, Bool.and_eq_true, Option.isSome_iff_ne_none] at h
  exact h.1.1.2

/-- On an acyclic graph every tick has a result, of one of the two kinds. -/
theorem tick_spec {g : WorkflowDAG} (hg : g.WellFormed) (hac : Acyclic g.Parent)
    (s : WorkflowJob) : ∃ m s', MarkedStore g s.objs m ∧
      (∃ marked, g.markDnrNodes s.objs = some (m, marked)) ∧
      g.tick s = some s' ∧ TickCases g s m s' := by
  obtain ⟨m, marked, hm, hmarks, hout, hdnr⟩ := markDnrNodes_spec hg hac s.objs
  obtain ⟨r, hr, hnd, hmem⟩ := bfsNodesToRun_spec hg m
  have hs : ∃ s', g.tick s = some s' ∧ TickCases g s m s' := by
    unfold tick
    rw [hm]
    cases hd : g.isWorkflowDone m with
    | true =>
      refine ⟨_, by simp only [Option.bind_eq_bind, Option.bind_some, hd, if_true]; rfl, ?_⟩
      refine .done hd rfl rfl ?_
      dsimp only
      split_ifs <;> simp
    | false =>
      refine ⟨r.foldl spawnNode { s with objs := m }, ?_, ?_⟩
      · simp only [Option.bind_eq_bind, Option.bind_some, hd, hr]; rfl
      · obtain ⟨h₁, h₂, h₃⟩ := spawnNodes_eq (s := { s with objs := m }) hnd
          fun n hn => ready_template ((hmem n).mp hn).2
        exact .spawn r hd hr hnd hmem h₂ h₁ h₃
  obtain ⟨s', hs', hcases⟩ := hs
  exact ⟨m, s', ⟨hmarks, hout, hdnr⟩, ⟨marked, hm⟩, hs', hcases⟩

theorem tick_cases {g : WorkflowDAG} (hg : g.WellFormed) (hac : Acyclic g.Parent)
    {s s' : WorkflowJob} (h : g.tick s = some s') :
    ∃ m, MarkedStore g s.objs m ∧ TickCases g s m s' := by
  obtain ⟨m, t, hm, -, ht, hc⟩ := tick_spec hg hac s
  exact ⟨m, hm, Option.some.inj (ht.symm.trans h) ▸ hc⟩

/-! ### Computed runs -/

/-- One event as a function; it has no result where the event is not possible. -/
def exec (g : WorkflowDAG) (s : WorkflowJob) : WorkflowEvent → Option WorkflowJob
  | .tick => if s.status = .running then g.tick s else none
  | .job n st => match (s.objs n).job with
    | some old => if old.terminal then none else some (setJob s n st)
    | none => none

/-- What `allowed` says about the statuses that an event sets. -/
def EventAllowed (allowed : NodeId → Status → Prop) : WorkflowEvent → Prop
  | .tick => True
  | .job n st => allowed n st

section Exec
variable {g : WorkflowDAG} {allowed : NodeId → Status → Prop} {start : NodeStore}

theorem step_of_exec {s s' : WorkflowJob} {e : WorkflowEvent} (ha : EventAllowed allowed e)
    (h : exec g s e = some s') : (runs g allowed start).step s e s' := by
  cases e with
  | tick =>
    unfold exec at h
    split_ifs at h with hs
    exact ⟨hs, h⟩
  | job n st =>
    cases hj : (s.objs n).job with
    | none => simp [exec, hj] at h
    | some old =>
      simp only [exec, hj] at h
      split_ifs at h with ht
      exact ⟨⟨old, hj, by simpa using ht⟩, ha, (Option.some.inj h).symm⟩

theorem reachable_of_runAll {es : List WorkflowEvent} (ha : ∀ e ∈ es, EventAllowed allowed e)
    {s : WorkflowJob} (h : System.runAll (exec g) ⟨.running, "", start, []⟩ es = some s) :
    (runs g allowed start).Reachable s :=
  .runAll (fun e he _ _ hs => step_of_exec (ha e he) hs) (.init rfl) h

end Exec

end WorkflowDAG

end Forail.Scheduler
