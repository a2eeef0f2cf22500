import Forail.Base.Dict
import Forail.Base.Runs
import Forail.Models.UnifiedJob
import Mathlib.Data.List.Nodup

/-! Workflows in workflows. The templates refer to each other in any way; the workflow
manager refuses to start a spawned workflow job whose template is among those of its
ancestors. The order in which a graph yields its nodes is left open here: any node without
a job may be spawned. The walk of `get_ancestor_workflows` is exact on the list of the
ancestors. -/

namespace Forail.Scheduler.NestedWorkflows

/-- What a node refers to; `other` are the templates that only make plain jobs. -/
inductive UnifiedJobTemplate
  | workflowJobTemplate (id : ℕ)
  | jobTemplate (id : ℕ)
  | other
  deriving DecidableEq

/-- `jobSlice` is that key of `ancestor_artifacts`, which root nodes of sliced jobs have. -/
structure WorkflowJobNode where
  unifiedJobTemplate : Option UnifiedJobTemplate
  jobSlice : Option ℕ
  job : Option ℕ

/-- A job with the workflow job of its node. `refused` records that the workflow manager
did not start it. -/
structure UnifiedJob where
  isWorkflowJob : Bool
  workflowJobTemplate : Option ℕ
  launchType : LaunchType
  status : Status
  jobExplanation : String
  nodes : List WorkflowJobNode
  unifiedJobNode : Option ℕ
  refused : Bool

/-- `allTasks` are the running workflow jobs that the manager has fetched. -/
structure State where
  jobs : Dict ℕ UnifiedJob
  allTasks : List ℕ

/-- Other processes launch workflow jobs and change the status of jobs; the manager fetches
its tasks and spawns nodes. The effective slice count, the resources and the result of
`signal_start` are answers from outside. -/
inductive Event
  | launch (id workflowJobTemplate : ℕ)
  | relaunch (id : ℕ) (nodes : List (Option UnifiedJobTemplate))
  | setStatus (id : ℕ) (status : Status)
  | getTasks
  | spawn (workflowJob node id sliceCt : ℕ) (resourcesSufficient signalStart : Bool)

section Definitions
variable (templates : Dict ℕ (List (Option UnifiedJobTemplate))) (display : ℕ → String)

/-- `copy_nodes_from_original`. -/
def copyNodes (nodes : List (Option UnifiedJobTemplate)) : List WorkflowJobNode :=
  nodes.map fun template => ⟨template, none, none⟩

def UnifiedJob.getWorkflowJob (j : UnifiedJob) : Option ℕ :=
  if j.launchType = .workflow then j.unifiedJobNode else none

/-- The loop of `get_ancestor_workflows`. -/
def ancestorLoop (jobs : Dict ℕ UnifiedJob) : ℕ → List ℕ → Option ℕ → List ℕ
  | 0, _, _ => []
  | fuel + 1, wjIds, wj =>
    match wj with
    | none => []
    | some id =>
      match jobs.get? id with
      | none => []
      | some job =>
        match job.workflowJobTemplate with
        | none => []
        | some template =>
          if id ∈ wjIds then []
          else template :: ancestorLoop jobs fuel (id :: wjIds) job.getWorkflowJob

/-- No more jobs than exist are walked over. -/
def getAncestorWorkflows (jobs : Dict ℕ UnifiedJob) (id : ℕ) : List ℕ :=
  ancestorLoop jobs jobs.keys.length [id] ((jobs.get? id).bind UnifiedJob.getWorkflowJob)

/-- `create_unified_job` for a node: a job template may make a workflow job of its slices. -/
def createUnifiedJob (node : WorkflowJobNode) (template : UnifiedJobTemplate) (sliceCt : ℕ) :
    Option UnifiedJob :=
  let plain : UnifiedJob := ⟨false, none, .workflow, .new, "", [], none, false⟩
  match template with
  | .workflowJobTemplate id => (templates.get? id).map fun nodes =>
    ⟨true, some id, .workflow, .new, "", copyNodes nodes, none, false⟩
  | .jobTemplate id =>
    if 1 < sliceCt ∧ node.jobSlice = none then
      some { plain with
        isWorkflowJob := true
        nodes := (List.range sliceCt).map fun idx =>
          ⟨some (.jobTemplate id), some (idx + 1), none⟩ }
    else some plain
  | .other => some plain

def recursionExplanation (template : ℕ) (ancestors : List ℕ) : String :=
  "Workflow Job spawned from workflow could not start because it would result in recursion " ++
    "(spawn order, most recent first: " ++
    ", ".intercalate ((template :: ancestors).map fun t => "<" ++ display t ++ ">") ++ ")"

/-- The rest of the loop body: the new job is started or refused. -/
def startSpawned (jobs : Dict ℕ UnifiedJob) (id : ℕ) (job : UnifiedJob)
    (template : UnifiedJobTemplate) (resourcesSufficient signalStart : Bool) : UnifiedJob :=
  let recursion : Option String := match template with
    | .workflowJobTemplate t =>
      let ancestors := getAncestorWorkflows jobs id
      if t ∈ ancestors then some (recursionExplanation display t ancestors) else none
    | _ => none
  let refuse (explanation : String) : UnifiedJob :=
    { job with status := .failed, jobExplanation := explanation, refused := true }
  if !resourcesSufficient then
    refuse <| "Job spawned from workflow could not start because it was missing a related " ++
      "resource such as project or inventory"
  else match recursion with
    | some explanation => refuse explanation
    | none =>
      if signalStart then { job with status := .pending }
      else
        refuse <| "Job spawned from workflow could not start because it was not in the right " ++
          "state or required manual credentials"

/-- The node with its new job. -/
def UnifiedJob.setNodeJob (w : UnifiedJob) (node id : ℕ) : UnifiedJob :=
  { w with nodes := w.nodes.modify node fun n => { n with job := some id } }

/-- A workflow job that no node has spawned. -/
def launched (template : Option ℕ) (launchType : LaunchType)
    (nodes : List (Option UnifiedJobTemplate)) : UnifiedJob :=
  ⟨true, template, launchType, .pending, "", copyNodes nodes, none, false⟩

/-- One event; it has no result where it is not possible. A job that has ended keeps its
status. -/
def exec (s : State) : Event → Option State
  | .launch id t =>
    if (s.jobs.get? id).isNone then
      (templates.get? t).map fun nodes =>
        { s with jobs := s.jobs.set id (launched (some t) .manual nodes) }
    else none
  | .relaunch id nodes =>
    if (s.jobs.get? id).isNone then
      some { s with jobs := s.jobs.set id (launched none .relaunch nodes) }
    else none
  | .setStatus id status => do
    let job ← s.jobs.get? id
    if job.status.terminal then none
    else some { s with jobs := s.jobs.set id { job with status := status } }
  | .getTasks =>
    some { s with allTasks := s.jobs.keys.filter fun id =>
      (s.jobs.get? id).any fun j => j.isWorkflowJob && j.status = .running }
  | .spawn workflowJob node id sliceCt resourcesSufficient signalStart => do
    let w ← s.jobs.get? workflowJob
    let n ← w.nodes[node]?
    let template ← n.unifiedJobTemplate
    let job ← createUnifiedJob templates n template sliceCt
    if workflowJob ∈ s.allTasks ∧ n.job = none ∧ (s.jobs.get? id).isNone then
      let job := { job with unifiedJobNode := some workflowJob }
      let jobs := (s.jobs.set workflowJob (w.setNodeJob node id)).set id job
      let job := startSpawned display jobs id job template resourcesSufficient signalStart
      some { s with jobs := jobs.set id job }
    else none

/-- Runs of the workflow manager from the empty database, with the templates unchanged. -/
def spawning : System State Event where
  init s := s = ⟨.empty, []⟩
  step s e s' := exec templates display s e = some s'

end Definitions

/-! ### Ancestors -/

def template (jobs : Dict ℕ UnifiedJob) (id : ℕ) : Option ℕ :=
  (jobs.get? id).bind UnifiedJob.workflowJobTemplate

/-- The ancestors of a job, nearest first: started workflow jobs, and only the last one may
be without a template. -/
inductive Ancestry (jobs : Dict ℕ UnifiedJob) : ℕ → List ℕ → Prop
  | root {id : ℕ} {j : UnifiedJob} : jobs.get? id = some j → j.getWorkflowJob = none →
      Ancestry jobs id []
  | spawned {id p : ℕ} {j jp : UnifiedJob} {l : List ℕ} : jobs.get? id = some j →
      j.getWorkflowJob = some p → jobs.get? p = some jp → jp.refused = false →
      (jp.workflowJobTemplate = none → jp.getWorkflowJob = none) → Ancestry jobs p l →
      Ancestry jobs id (p :: l)

theorem Ancestry.nil_of_root {jobs : Dict ℕ UnifiedJob} {id : ℕ} {j : UnifiedJob} {l : List ℕ}
    (h : Ancestry jobs id l) (hj : jobs.get? id = some j) (hr : j.getWorkflowJob = none) :
    l = [] := by
  cases h with
  | root => rfl
  | spawned hj' hp =>
    obtain rfl := Option.some.inj (hj.symm.trans hj')
    rw [hr] at hp
    cases hp

theorem Ancestry.rows {jobs : Dict ℕ UnifiedJob} {id : ℕ} {l : List ℕ}
    (h : Ancestry jobs id l) : ∀ a ∈ id :: l, ∃ j, jobs.get? a = some j := by
  induction h with
  | root hj => exact fun a ha => ⟨_, List.mem_singleton.mp ha ▸ hj⟩
  | spawned hj _ _ _ _ _ ih =>
    intro a ha
    rcases List.mem_cons.mp ha with rfl | ha
    · exact ⟨_, hj⟩
    · exact ih a ha

theorem Ancestry.mem_keys {jobs : Dict ℕ UnifiedJob} {id : ℕ} {l : List ℕ}
    (h : Ancestry jobs id l) : ∀ a ∈ id :: l, a ∈ jobs.keys := by
  intro a ha
  obtain ⟨j, hj⟩ := h.rows a ha
  by_contra hk
  rw [jobs.get?_eq_none_of_not_mem hk] at hj
  cases hj

/-- The walk returns the templates of the ancestors; it stops only at the last one. -/
theorem ancestorLoop_eq {jobs : Dict ℕ UnifiedJob} {id : ℕ} {l : List ℕ}
    (h : Ancestry jobs id l) {fuel : ℕ} {wjIds : List ℕ} (hf : l.length ≤ fuel) (hn : l.Nodup)
    (hv : ∀ a ∈ l, a ∉ wjIds) :
    ancestorLoop jobs fuel wjIds ((jobs.get? id).bind UnifiedJob.getWorkflowJob) =
      l.filterMap (template jobs) := by
  induction h generalizing fuel wjIds with
  | root hj hr =>
    rw [hj, Option.bind_some, hr]
    cases fuel <;> rfl
  | @spawned id p j jp l hj hp hjp hstarted hroot hl ih =>
    obtain ⟨hpl, hn⟩ := List.nodup_cons.mp hn
    rw [hj, Option.bind_some, hp]
    cases fuel with
    | zero => cases hf
    | succ fuel =>
      simp only [ancestorLoop, hjp]
      cases ht : jp.workflowJobTemplate with
      | none =>
        obtain rfl := hl.nil_of_root hjp (hroot ht)
        simp [template, hjp, ht]
      | some t =>
        have hih := @ih fuel (p :: wjIds) (Nat.le_of_succ_le_succ hf) hn
          fun a ha hm => by
            rcases List.mem_cons.mp hm with rfl | hm
            · exact hpl ha
            · exact hv a (List.mem_cons_of_mem _ ha) hm
        rw [hjp, Option.bind_some] at hih
        simp only [if_neg (hv p List.mem_cons_self), hih]
        simp [template, hjp, ht]

theorem getAncestorWorkflows_eq {jobs : Dict ℕ UnifiedJob} {id : ℕ} {l : List ℕ}
    (h : Ancestry jobs id l) (hn : (id :: l).Nodup) :
    getAncestorWorkflows jobs id = l.filterMap (template jobs) := by
  obtain ⟨hid, hn⟩ := List.nodup_cons.mp hn
  apply ancestorLoop_eq h _ hn
  · intro a ha hm
    obtain rfl := List.mem_singleton.mp hm
    exact hid ha
  · exact hn.length_le_of_subset fun a ha => h.mem_keys a (List.mem_cons_of_mem _ ha)

/-- The nodes and the status of a job may change. -/
structure Kept (j j' : UnifiedJob) : Prop where
  isWorkflowJob : j'.isWorkflowJob = j.isWorkflowJob
  template : j'.workflowJobTemplate = j.workflowJobTemplate
  workflowJob : j'.getWorkflowJob = j.getWorkflowJob
  refused : j'.refused = j.refused

/-- The rows that exist are kept. -/
def Extends (jobs jobs' : Dict ℕ UnifiedJob) : Prop :=
  ∀ id j, jobs.get? id = some j → ∃ j', jobs'.get? id = some j' ∧ Kept j j'

theorem Ancestry.extends {jobs jobs' : Dict ℕ UnifiedJob} (he : Extends jobs jobs') {id : ℕ}
    {l : List ℕ} (h : Ancestry jobs id l) : Ancestry jobs' id l := by
  induction h with
  | root hj hr =>
    obtain ⟨j', hj', hk⟩ := he _ _ hj
    exact .root hj' (hk.workflowJob.trans hr)
  | spawned hj hp hjp hstarted hroot _ ih =>
    obtain ⟨j', hj', hk⟩ := he _ _ hj
    obtain ⟨jp', hjp', hkp⟩ := he _ _ hjp
    exact .spawned hj' (hk.workflowJob.trans hp) hjp' (hkp.refused.trans hstarted)
      (fun h => hkp.workflowJob.trans (hroot (hkp.template ▸ h))) ih

theorem Ancestry.templates_extends {jobs jobs' : Dict ℕ UnifiedJob} (he : Extends jobs jobs')
    {id : ℕ} {l : List ℕ} (h : Ancestry jobs id l) :
    (id :: l).filterMap (template jobs') = (id :: l).filterMap (template jobs) := by
  have hrow {a : ℕ} {j : UnifiedJob} (hj : jobs.get? a = some j) :
      template jobs' a = template jobs a := by
    obtain ⟨j', hj', hk⟩ := he a j hj
    rw [template, template, hj, hj', Option.bind_some, Option.bind_some, hk.template]
  induction h with
  | root hj => rw [List.filterMap_cons, List.filterMap_cons, hrow hj]; rfl
  | spawned hj _ _ _ _ _ ih => rw [List.filterMap_cons, hrow hj, ih, ← List.filterMap_cons]

end Forail.Scheduler.NestedWorkflows
