import Forail.Scheduler.TaskManagerModels

/-! One cycle of the task manager. A turn of `process_pending_tasks` first decides what
becomes of the task, which changes nothing, and then starts it: the graph and the books
take the task over before it is saved. -/

namespace Forail.Scheduler

/-- A job that was fetched together with the jobs that it depends on. -/
structure Task extends UnifiedJob where
  prefetched : List UnifiedJob

structure TaskManager where
  dependencyGraph : DependencyGraph
  models : TaskManagerModels
  startTaskLimit : ℕ
  preStartFailed : List ℕ
  tasksToUpdateJobExplanation : List UnifiedJob

/-- The arguments of `start_task`. The nodes are set in the job; `instance` is the execution
instance of the call, and `idle` says that `find_largest_idle_instance` returned it. -/
structure Start where
  job : UnifiedJob
  instanceGroup : Option ℕ
  executionInstance : Option Hostname
  idle : Bool

inductive Decision
  | dependencyFailed (dep : UnifiedJob)
  | blocked (blockedBy : UnifiedJob)
  | needsCapacity
  | limited
  | start (start : Start)

/-- What a turn depends on beside the task: the clock, the run time of the manager, and the
answer of `pre_start` (the explanation of a refusal). -/
structure Circumstances where
  timedOut : Bool
  now : ℤ
  preStart : Option String

/-- The job as `start_task` passes it to the books. -/
def Start.placed (st : Start) : UnifiedJob :=
  { st.job with instanceGroup := st.instanceGroup.or st.job.instanceGroup }

/-- The job at the end of `start_task`. -/
def Start.saved (st : Start) (preStart : Option String) : UnifiedJob :=
  match preStart with
  | some explanation => { st.placed with
      status := .failed
      jobExplanation := (if explanation = "" then "" else explanation ++ " ") ++
        "Task failed pre-start check." }
  | none => { st.placed with
      status := match st.job.kind with
        | .workflowJob _ _ _ => .running
        | _ => .waiting
      jobExplanation := "" }

namespace TaskManager

/-- The loop of `process_job_dep_failures`. -/
def failedDependency (t : Task) : Option UnifiedJob :=
  t.prefetched.find? fun dep => dep.status = .error || dep.status = .failed

def dependencyFailedExplanation (dep : UnifiedJob) : String :=
  "Previous Task Failed: \x7b\"job_type\": \"" ++ dep.kind.typeName ++ "\", \"job_name\": \"" ++
    dep.name ++ "\", \"job_id\": \"" ++ toString dep.id ++ "\"\x7d"

def jobBlockedBy (graph : DependencyGraph) (t : Task) : Option UnifiedJob :=
  (graph.taskBlockedBy t.toUnifiedJob).or (t.prefetched.find? fun dep => dep.status.active)

section Decide
variable (m : TaskManagerModels)

/-- The loop over the instance groups of an execution task whose controller is set. -/
def chooseGroup (job : UnifiedJob) (capacityType : NodeType) : List ℕ → Option Start
  | [] => none
  | pk :: pks =>
    match m.instanceGroups.get? pk with
    | none => chooseGroup job capacityType pks
    | some g =>
      if !m.hasRemainingCapacity g job.taskImpact false then chooseGroup job capacityType pks
      else if g.isContainerGroup then some ⟨job, some pk, none, false⟩
      else
        let place (h : Hostname) : UnifiedJob := { job with
          executionNode := some h
          -- a hybrid node controls its own tasks
          controllerNode := if m.nodeType h = some .hybrid then some h else job.controllerNode }
        match m.fitTaskToMostRemainingCapacityInstance g job.taskImpact none capacityType true with
        | some h => some ⟨place h, some pk, some h, false⟩
        | none =>
          match m.findLargestIdleInstance g capacityType with
          | some h => some ⟨place h, some pk, some h, true⟩
          | none => chooseGroup job capacityType pks

/-- The control plane group with the node in it that is to control the task. -/
def controlInstance (taskImpact impact : ℕ) : Option (TaskManagerInstanceGroup × Hostname) :=
  (m.instanceGroups.get? m.controlplaneIg).bind fun g =>
    (m.fitTaskToMostRemainingCapacityInstance g taskImpact (some impact) .control false).map
      fun h => (g, h)

/-- The part of the loop body after the tests for dependencies and blocking jobs, for a
task that needs capacity. -/
def place (job : UnifiedJob) (capacityType : NodeType) : Decision :=
  let controlImpact :=
    if capacityType = .control then job.taskImpact + m.controlTaskImpact else m.controlTaskImpact
  match controlInstance m job.taskImpact controlImpact with
  | none => .needsCapacity
  | some (g, h) =>
    let job := { job with controllerNode := some h }
    if capacityType = .control then
      if !m.hasRemainingCapacity g job.taskImpact true then .limited
      else .start ⟨{ job with executionNode := some h }, some m.controlplaneIg, some h, false⟩
    else
      match chooseGroup m job capacityType
          (m.getInstanceGroupsFromTaskCache job.preferredInstanceGroupsCache) with
      | some start => .start start
      | none => .needsCapacity

end Decide

/-- What the loop of `process_pending_tasks` decides about a task. -/
def decision (tm : TaskManager) (t : Task) : Decision :=
  match failedDependency t with
  | some dep => .dependencyFailed dep
  | none =>
    match jobBlockedBy tm.dependencyGraph t with
    | some blockedBy => .blocked blockedBy
    | none =>
      match t.kind.capacityType with
      | none => .start ⟨t.toUnifiedJob, none, none, false⟩
      | some capacityType => place tm.models t.toUnifiedJob capacityType

def startTask (tm : TaskManager) (st : Start) (preStart : Option String) : TaskManager :=
  { tm with
    dependencyGraph := tm.dependencyGraph.addJob st.job
    models := tm.models.consumeCapacity st.placed
    startTaskLimit := tm.startTaskLimit - 1
    preStartFailed :=
      if preStart.isSome then tm.preStartFailed ++ [st.job.id] else tm.preStartFailed }

/-- A new explanation is only noted for a task that has waited for 30 seconds. -/
def explain (tm : TaskManager) (t : Task) (now : ℤ) (explanation : String) : TaskManager :=
  if t.jobExplanation ≠ explanation ∧ t.created < now - 30000000 then
    { tm with tasksToUpdateJobExplanation :=
        tm.tasksToUpdateJobExplanation ++ [{ t.toUnifiedJob with jobExplanation := explanation }] }
  else tm

/-- One turn: the manager afterwards, and the job where it was saved. -/
def processPendingTask (tm : TaskManager) (t : Task) (c : Circumstances) :
    TaskManager × Option UnifiedJob :=
  match decision tm t with
  | .dependencyFailed dep =>
    ({ tm with preStartFailed := tm.preStartFailed ++ [t.id] },
      some { t.toUnifiedJob with
        status := .failed, jobExplanation := dependencyFailedExplanation dep })
  | .blocked blockedBy =>
    (explain tm t c.now
      ("waiting for " ++ blockedBy.kind.modelName ++ "-" ++ toString blockedBy.id ++ " to finish"),
      none)
  | .needsCapacity =>
    (explain tm t c.now
      "This job is not ready to start because there is not enough available capacity.", none)
  | .limited => (tm, none)
  | .start st => (startTask tm st c.preStart, some (st.saved c.preStart))

def processRunningTask (tm : TaskManager) (t : Task) : TaskManager :=
  { tm with
    dependencyGraph := tm.dependencyGraph.addJob t.toUnifiedJob
    models := tm.models.consumeCapacity t.toUnifiedJob }

def processRunningTasks (tm : TaskManager) (runningTasks : List Task) : TaskManager :=
  runningTasks.foldl processRunningTask tm

/-- The loop takes the keys of all running tasks. -/
theorem taken_processRunningTasks (tm : TaskManager) (runningTasks : List Task)
    (k : DependencyGraph.Key) :
    (tm.processRunningTasks runningTasks).dependencyGraph.taken k = true ↔
      tm.dependencyGraph.taken k = true ∨ ∃ t ∈ runningTasks, k ∈ t.kind.marks := by
  induction runningTasks generalizing tm with
  | nil => simp [processRunningTasks]
  | cons t runningTasks ih =>
    have hstep : (tm.processRunningTask t).dependencyGraph.taken k = true ↔
        tm.dependencyGraph.taken k = true ∨ k ∈ t.kind.marks :=
      DependencyGraph.taken_addJob tm.dependencyGraph t.toUnifiedJob k
    change ((tm.processRunningTask t).processRunningTasks runningTasks).dependencyGraph.taken k =
      true ↔ _
    rw [ih, hstep, List.exists_mem_cons_iff, or_assoc]

/-- The loop ends early at the start limit and when the manager has run for too long. -/
def processPendingTasks (tm : TaskManager) : List (Task × Circumstances) → TaskManager
  | [] => tm
  | (t, c) :: rest =>
    if tm.startTaskLimit = 0 ∨ c.timedOut then tm
    else (processPendingTask tm t c).1.processPendingTasks rest

/-- The calls of `start_task` in a run of `process_pending_tasks`, each with the books that
it finds. -/
def starts (tm : TaskManager) : List (Task × Circumstances) → List (TaskManagerModels × Start)
  | [] => []
  | (t, c) :: rest =>
    if tm.startTaskLimit = 0 ∨ c.timedOut then []
    else
      (match decision tm t with
        | .start st => [(tm.models, st)]
        | _ => []) ++ (processPendingTask tm t c).1.starts rest

/-! ### Which tasks are started, and where -/

/-- The control node passed the fit check of the control plane with this impact. -/
structure Controls (m : TaskManagerModels) (taskImpact impact : ℕ) (g : TaskManagerInstanceGroup)
    (c : Hostname) : Prop where
  group : m.instanceGroups.get? m.controlplaneIg = some g
  mem : c ∈ g.instanceHostnames
  fits : ∃ i, m.instances.get? c = some i ∧ i.serves .control = true ∧
    0 ≤ m.wouldBeRemaining i (TaskManagerModels.fitImpact (some impact) taskImpact) false

/-- The four ways to a call of `start_task`. -/
inductive StartCases (m : TaskManagerModels) (job : UnifiedJob) : Start → Prop
  | workflow : job.kind.capacityType = none → StartCases m job ⟨job, none, none, false⟩
  | control (g : TaskManagerInstanceGroup) (c : Hostname) :
      job.kind.capacityType = some .control →
      Controls m job.taskImpact (job.taskImpact + m.controlTaskImpact) g c →
      m.hasRemainingCapacity g job.taskImpact true = true →
      StartCases m job
        ⟨{ job with controllerNode := some c, executionNode := some c }, some m.controlplaneIg,
          some c, false⟩
  | container (cg g : TaskManagerInstanceGroup) (c : Hostname) (pk : ℕ) :
      job.kind.capacityType = some .execution →
      Controls m job.taskImpact m.controlTaskImpact cg c →
      m.instanceGroups.get? pk = some g → g.isContainerGroup = true →
      m.hasRemainingCapacity g job.taskImpact false = true →
      StartCases m job ⟨{ job with controllerNode := some c }, some pk, none, false⟩
  | execution (cg g : TaskManagerInstanceGroup) (c h : Hostname) (pk : ℕ)
      (i : TaskManagerInstance) (idle : Bool) :
      job.kind.capacityType = some .execution →
      Controls m job.taskImpact m.controlTaskImpact cg c →
      m.instanceGroups.get? pk = some g → g.isContainerGroup = false →
      m.hasRemainingCapacity g job.taskImpact false = true →
      h ∈ g.instanceHostnames → m.instances.get? h = some i → i.serves .execution = true →
      (idle = false → 0 ≤ m.wouldBeRemaining i job.taskImpact true) →
      StartCases m job
        ⟨{ job with
            controllerNode := if i.nodeType = .hybrid then some h else some c
            executionNode := some h }, some pk, some h, idle⟩

theorem chooseGroup_cases {m : TaskManagerModels} {job : UnifiedJob} {cg : TaskManagerInstanceGroup}
    {c : Hostname} (hk : job.kind.capacityType = some .execution)
    (hc : Controls m job.taskImpact m.controlTaskImpact cg c) {pks : List ℕ} {st : Start}
    (h : chooseGroup m { job with controllerNode := some c } .execution pks = some st) :
    StartCases m job st := by
  induction pks with
  | nil => cases h
  | cons pk pks ih =>
    unfold chooseGroup at h
    cases hg : m.instanceGroups.get? pk with
    | none => exact ih (by simpa [hg] using h)
    | some g =>
      simp only [hg] at h
      split_ifs at h with hrem hcont
      · exact ih h
      · obtain rfl := Option.some.inj h
        exact .container cg g c pk hk hc hg hcont (by simpa using hrem)
      · have hcont' : g.isContainerGroup = false := by simpa using hcont
        split at h
        next n hfit =>
          obtain ⟨hmem, i, hi, hserves, hfits⟩ := TaskManagerModels.fit_spec hfit
          obtain rfl := Option.some.inj h
          have hn : m.nodeType n = some i.nodeType := by rw [TaskManagerModels.nodeType, hi]; rfl
          simp only [hn, Option.some.injEq]
          exact .execution cg g c n pk i false hk hc hg hcont' (by simpa using hrem) hmem hi hserves
            fun _ => hfits
        next =>
          split at h
          next n hidle =>
            obtain ⟨hmem, i, hi, hserves⟩ := TaskManagerModels.idle_spec hidle
            obtain rfl := Option.some.inj h
            have hn : m.nodeType n = some i.nodeType := by rw [TaskManagerModels.nodeType, hi]; rfl
            simp only [hn, Option.some.injEq]
            exact .execution cg g c n pk i true hk hc hg hcont' (by simpa using hrem) hmem hi hserves
              (by simp)
          next => exact ih h

theorem controlInstance_spec {m : TaskManagerModels} {taskImpact impact : ℕ}
    {g : TaskManagerInstanceGroup} {c : Hostname}
    (h : controlInstance m taskImpact impact = some (g, c)) : Controls m taskImpact impact g c := by
  obtain ⟨g', hg, hmap⟩ := Option.bind_eq_some_iff.mp h
  obtain ⟨c', hfit, heq⟩ := Option.map_eq_some_iff.mp hmap
  obtain ⟨rfl, rfl⟩ := Prod.mk.inj heq
  obtain ⟨hmem, hi⟩ := TaskManagerModels.fit_spec hfit
  exact ⟨hg, hmem, hi⟩

theorem place_cases {m : TaskManagerModels} {job : UnifiedJob} {capacityType : NodeType}
    (hk : job.kind.capacityType = some capacityType) {st : Start}
    (h : place m job capacityType = .start st) : StartCases m job st := by
  unfold place at h
  rcases JobKind.capacityType_cases hk with rfl | rfl
  · simp only [if_true] at h
    split at h
    · cases h
    next g c hc =>
      split_ifs at h with hrem
      obtain rfl := Decision.start.inj h
      exact .control g c hk (controlInstance_spec hc) (by simpa using hrem)
  · simp only [reduceCtorEq, if_false] at h
    split at h
    · cases h
    next g c hc =>
      split at h
      next st' hst =>
        obtain rfl := Decision.start.inj h
        exact chooseGroup_cases hk (controlInstance_spec hc) hst
      next => cases h

/-- A task is started only if no dependency has failed and nothing blocks it. -/
theorem decision_start {tm : TaskManager} {t : Task} {st : Start} (h : decision tm t = .start st) :
    failedDependency t = none ∧ jobBlockedBy tm.dependencyGraph t = none ∧
      StartCases tm.models t.toUnifiedJob st := by
  unfold decision at h
  split at h
  · cases h
  next hf =>
    split at h
    · cases h
    next hb =>
      refine ⟨hf, hb, ?_⟩
      split at h
      next hk =>
        obtain rfl := Decision.start.inj h
        exact .workflow hk
      next hk => exact place_cases hk h

/-! ### A small cluster -/

/-- One node, which is all of the control plane. -/
def oneNode (nodeType : NodeType) (maxForks : ℤ) : TaskManagerModels where
  instances := Dict.empty.set 0 ⟨nodeType, 10, 0, 0⟩
  instanceGroups := Dict.empty.set 0 ⟨false, 0, 0, [0], 0, maxForks, by simp⟩
  controlplaneIg := 0
  globalInstanceGroups := [0]
  controlTaskImpact := 1

def fresh (models : TaskManagerModels) : TaskManager := ⟨.new, models, 100, [], []⟩

/-- A pending task without dependencies. -/
def pendingTask (kind : JobKind) (taskImpact : ℕ) : Task where
  id := 1
  kind := kind
  name := ""
  status := .pending
  launchType := .manual
  dependenciesProcessed := true
  dependentJobs := []
  taskImpact := taskImpact
  controllerNode := none
  executionNode := none
  instanceGroup := none
  preferredInstanceGroupsCache := none
  jobExplanation := ""
  created := 0
  prefetched := []

end TaskManager

end Forail.Scheduler
