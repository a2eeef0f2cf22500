import Forail.Scheduler.DependencyGraph
import Mathlib.Algebra.GroupWithZero.Nat

/-! The capacity books of one task manager cycle. Instances are shared by the groups they
are in; only a container group keeps counters of its own. Admission (`hasRemainingCapacity`,
`fitTaskToMostRemainingCapacityInstance`, `findLargestIdleInstance`) and consumption are
separate functions that both distinguish the node types. -/

namespace Forail.Scheduler

/-- Nodes of type `hop` are left out by the query for the instances. -/
inductive NodeType
  | control | execution | hybrid
  deriving DecidableEq

/-- `UnifiedJob.capacity_type`. -/
def JobKind.capacityType : JobKind → Option NodeType
  | .job _ _ _ _ | .inventoryUpdate _ _ | .adHocCommand _ => some .execution
  | .projectUpdate _ | .systemJob => some .control
  | .workflowJob _ _ _ | .workflowApproval => none

theorem JobKind.capacityType_cases {k : JobKind} {t : NodeType} (h : k.capacityType = some t) :
    t = .control ∨ t = .execution := by
  cases k <;> cases h <;> simp

structure TaskManagerInstance where
  nodeType : NodeType
  capacity : ℕ
  consumedCapacity : ℕ
  jobsRunning : ℕ

namespace TaskManagerInstance

def consumeCapacity (i : TaskManagerInstance) (impact : ℕ) (jobImpact : Bool) :
    TaskManagerInstance :=
  { i with
    consumedCapacity := i.consumedCapacity + impact
    jobsRunning := if jobImpact then i.jobsRunning + 1 else i.jobsRunning }

/-- Not below 0. -/
def remainingCapacity (i : TaskManagerInstance) : ℕ := i.capacity - i.consumedCapacity

/-- The node type is the one asked for, or `hybrid`. -/
def serves (i : TaskManagerInstance) (capacityType : NodeType) : Bool :=
  i.nodeType = capacityType || i.nodeType = .hybrid

end TaskManagerInstance

/-- The limits are 0 where there is none. -/
structure TaskManagerInstanceGroup where
  isContainerGroup : Bool
  containerGroupJobs : ℕ
  containerGroupConsumedForks : ℕ
  instanceHostnames : List Hostname
  maxConcurrentJobs : ℤ
  maxForks : ℤ
  nodup : instanceHostnames.Nodup

def TaskManagerInstanceGroup.consumeCapacity (g : TaskManagerInstanceGroup) (taskImpact : ℕ) :
    TaskManagerInstanceGroup :=
  { g with
    containerGroupJobs := g.containerGroupJobs + 1
    containerGroupConsumedForks := g.containerGroupConsumedForks + taskImpact }

/-- The instances and the groups with `AWX_CONTROL_NODE_TASK_IMPACT`. The groups stand under
their primary keys; the source also finds them by their names, which are unique too. -/
structure TaskManagerModels where
  instances : Dict Hostname TaskManagerInstance
  instanceGroups : Dict ℕ TaskManagerInstanceGroup
  controlplaneIg : ℕ
  globalInstanceGroups : List ℕ
  controlTaskImpact : ℕ

namespace TaskManagerModels

section Definitions
variable (m : TaskManagerModels)

def groupInstances (g : TaskManagerInstanceGroup) : List TaskManagerInstance :=
  g.instanceHostnames.filterMap m.instances.get?

def getJobsRunning (g : TaskManagerInstanceGroup) : ℕ :=
  if g.isContainerGroup then g.containerGroupJobs
  else ((m.groupInstances g).map TaskManagerInstance.jobsRunning).sum

def getConsumedCapacity (g : TaskManagerInstanceGroup) : ℕ :=
  if g.isContainerGroup then g.containerGroupConsumedForks
  else ((m.groupInstances g).map TaskManagerInstance.consumedCapacity).sum

/-- With `controlImpact` the group is asked for the control task, else for the task itself. -/
def hasRemainingCapacity (g : TaskManagerInstanceGroup) (taskImpact : ℕ) (controlImpact : Bool) :
    Bool :=
  let taskImpact : ℕ := if controlImpact then m.controlTaskImpact else taskImpact
  let jobImpact : ℤ := if controlImpact then 0 else 1
  let remainingJobs : ℤ :=
    if g.maxConcurrentJobs = 0 then 0 else g.maxConcurrentJobs - m.getJobsRunning g - jobImpact
  let remainingForks : ℤ :=
    if g.maxForks = 0 then 0 else g.maxForks - m.getConsumedCapacity g - taskImpact
  !(remainingJobs < 0 || remainingForks < 0)

/-- The impact that a fit check counts: a given impact of 0 is taken for none. -/
def fitImpact (impact : Option ℕ) (taskImpact : ℕ) : ℕ :=
  match impact with
  | some impact => if impact = 0 then taskImpact else impact
  | none => taskImpact

/-- What the instance would have left. -/
def wouldBeRemaining (i : TaskManagerInstance) (impact : ℕ) (addHybridControlCost : Bool) : ℤ :=
  let wouldBeRemaining : ℤ := i.remainingCapacity - impact
  if addHybridControlCost && i.nodeType = .hybrid then wouldBeRemaining - m.controlTaskImpact
  else wouldBeRemaining

/-- One turn of the loop: the best instance so far with what it would have left. -/
def fitStep (impact : ℕ) (capacityType : NodeType) (addHybridControlCost : Bool)
    (best : Option (Hostname × ℤ)) (h : Hostname) : Option (Hostname × ℤ) :=
  match m.instances.get? h with
  | none => best
  | some i =>
    if !i.serves capacityType then best
    else
      let remaining := m.wouldBeRemaining i impact addHybridControlCost
      if 0 ≤ remaining ∧ ∀ b ∈ best, b.2 < remaining then some (h, remaining) else best

def fitTaskToMostRemainingCapacityInstance (g : TaskManagerInstanceGroup) (taskImpact : ℕ)
    (impact : Option ℕ) (capacityType : NodeType) (addHybridControlCost : Bool) :
    Option Hostname :=
  (g.instanceHostnames.foldl
    (m.fitStep (fitImpact impact taskImpact) capacityType addHybridControlCost) none).map Prod.fst

def idleStep (capacityType : NodeType) (largest : Option (Hostname × ℕ)) (h : Hostname) :
    Option (Hostname × ℕ) :=
  match m.instances.get? h with
  | none => largest
  | some i =>
    if !i.serves capacityType then largest
    else if i.capacity ≤ 0 then largest
    else if i.jobsRunning = 0 ∨ i.remainingCapacity = i.capacity then
      match largest with
      | none => some (h, i.capacity)
      | some l => if l.2 < i.capacity then some (h, i.capacity) else largest
    else largest

def findLargestIdleInstance (g : TaskManagerInstanceGroup) (capacityType : NodeType) :
    Option Hostname :=
  (g.instanceHostnames.foldl (m.idleStep capacityType) none).map Prod.fst

/-- Groups in the cache that no longer exist are skipped. -/
def getInstanceGroupsFromTaskCache (cache : Option (List ℕ)) : List ℕ :=
  let igs := (cache.getD []).filter fun pk => (m.instanceGroups.get? pk).isSome
  if igs.length = 0 then m.globalInstanceGroups else igs

/-- Consumption on one node; a node that is not known, or of another type, bears nothing. -/
def consumeAt (node : Option Hostname) (nodeTypes : List NodeType) (impact : ℕ)
    (jobImpact : Bool) : TaskManagerModels :=
  match node with
  | none => m
  | some h => { m with
      instances := m.instances.modify h fun i =>
        if i.nodeType ∈ nodeTypes then i.consumeCapacity impact jobImpact else i }

/-- `TaskManagerInstances.consume_capacity`: the execution node bears the task and the
controller node the control cost. -/
def consumeOnInstances (job : UnifiedJob) : TaskManagerModels :=
  (m.consumeAt job.executionNode [.hybrid, .execution] job.taskImpact true).consumeAt
    job.controllerNode [.hybrid, .control] m.controlTaskImpact false

/-- `TaskManagerModels.consume_capacity`: a container group has counters of its own. -/
def consumeCapacity (job : UnifiedJob) : TaskManagerModels :=
  let m := m.consumeOnInstances job
  match job.instanceGroup with
  | none => m
  | some pk => { m with
      instanceGroups := m.instanceGroups.modify pk fun g =>
        if g.isContainerGroup then g.consumeCapacity job.taskImpact else g }

end Definitions

/-! ### Consumption, node by node -/

def consumed (m : TaskManagerModels) (h : Hostname) : ℕ :=
  ((m.instances.get? h).map TaskManagerInstance.consumedCapacity).getD 0

def running (m : TaskManagerModels) (h : Hostname) : ℕ :=
  ((m.instances.get? h).map TaskManagerInstance.jobsRunning).getD 0

def capacity (m : TaskManagerModels) (h : Hostname) : ℕ :=
  ((m.instances.get? h).map TaskManagerInstance.capacity).getD 0

def nodeType (m : TaskManagerModels) (h : Hostname) : Option NodeType :=
  (m.instances.get? h).map TaskManagerInstance.nodeType

/-- The node is known and of one of the types. -/
def bears (m : TaskManagerModels) (node : Option Hostname) (nodeTypes : List NodeType)
    (h : Hostname) : Bool :=
  node = some h && (m.nodeType h).any fun t => t ∈ nodeTypes

section Consumption
variable (m : TaskManagerModels) (node : Option Hostname) (nodeTypes : List NodeType) (impact : ℕ)
  (jobImpact : Bool)

theorem get?_consumeAt (h : Hostname) :
    (m.consumeAt node nodeTypes impact jobImpact).instances.get? h =
      (m.instances.get? h).map fun i =>
        if m.bears node nodeTypes h then i.consumeCapacity impact jobImpact else i := by
  unfold consumeAt bears nodeType
  cases node with
  | none => simp
  | some h' =>
    by_cases he : h = h'
    · subst he
      cases hi : m.instances.get? h <;> simp [Dict.get?_modify, hi]
    · have hne : h' ≠ h := fun h => he h.symm
      simp [Dict.get?_modify, he, hne]

@[simp] theorem consumeAt_instanceGroups :
    (m.consumeAt node nodeTypes impact jobImpact).instanceGroups = m.instanceGroups := by
  cases node <;> rfl

@[simp] theorem nodeType_consumeAt (h : Hostname) :
    (m.consumeAt node nodeTypes impact jobImpact).nodeType h = m.nodeType h := by
  rw [nodeType, get?_consumeAt, Option.map_map, nodeType]
  congr 1
  funext i
  rw [Function.comp_apply]
  split_ifs <;> rfl

@[simp] theorem capacity_consumeAt (h : Hostname) :
    (m.consumeAt node nodeTypes impact jobImpact).capacity h = m.capacity h := by
  rw [capacity, get?_consumeAt, Option.map_map, capacity]
  congr 2
  funext i
  rw [Function.comp_apply]
  split_ifs <;> rfl

theorem consumed_consumeAt (h : Hostname) :
    (m.consumeAt node nodeTypes impact jobImpact).consumed h =
      m.consumed h + if m.bears node nodeTypes h then impact else 0 := by
  rw [consumed, get?_consumeAt, consumed]
  cases hi : m.instances.get? h with
  | none => simp [bears, nodeType, hi]
  | some i =>
    simp only [Option.map_some, Option.getD_some]
    split_ifs <;> rfl

theorem running_consumeAt (h : Hostname) :
    (m.consumeAt node nodeTypes impact jobImpact).running h =
      m.running h + if m.bears node nodeTypes h && jobImpact then 1 else 0 := by
  rw [running, get?_consumeAt, running]
  cases hi : m.instances.get? h with
  | none => simp [bears, nodeType, hi]
  | some i =>
    simp only [Option.map_some, Option.getD_some, Bool.and_eq_true]
    cases jobImpact <;> split_ifs <;> simp_all [TaskManagerInstance.consumeCapacity]

end Consumption

section Consume
variable (m : TaskManagerModels) (job : UnifiedJob)

theorem consumeCapacity_instances :
    (m.consumeCapacity job).instances = (m.consumeOnInstances job).instances := by
  unfold consumeCapacity
  cases job.instanceGroup <;> rfl

@[simp] theorem capacity_consumeCapacity (h : Hostname) :
    (m.consumeCapacity job).capacity h = m.capacity h := by
  have hn := capacity_consumeAt (m.consumeAt job.executionNode [.hybrid, .execution]
    job.taskImpact true) job.controllerNode [.hybrid, .control] m.controlTaskImpact false h
  rw [capacity, consumeCapacity_instances]
  exact hn.trans (capacity_consumeAt _ _ _ _ _ h)

/-- What a started job adds to a node. -/
theorem consumed_consumeCapacity (h : Hostname) :
    (m.consumeCapacity job).consumed h = m.consumed h +
      (if m.bears job.executionNode [.hybrid, .execution] h then job.taskImpact else 0) +
      if m.bears job.controllerNode [.hybrid, .control] h then m.controlTaskImpact else 0 := by
  rw [consumed, consumeCapacity_instances]
  change (m.consumeOnInstances job).consumed h = _
  rw [consumeOnInstances, consumed_consumeAt, consumed_consumeAt, bears, bears, bears,
    nodeType_consumeAt]

theorem running_consumeCapacity (h : Hostname) :
    (m.consumeCapacity job).running h =
      m.running h + if m.bears job.executionNode [.hybrid, .execution] h then 1 else 0 := by
  rw [running, consumeCapacity_instances]
  change (m.consumeOnInstances job).running h = _
  rw [consumeOnInstances, running_consumeAt, running_consumeAt, Bool.and_false, Bool.and_true,
    if_neg Bool.false_ne_true, Nat.add_zero]

end Consume

/-! ### What the two searches return -/

section Search
variable {m : TaskManagerModels} {g : TaskManagerInstanceGroup} {h : Hostname}

/-- A loop over the hostnames that keeps an old candidate or takes the current one. -/
theorem mem_of_foldl {β : Type} {step : Option (Hostname × β) → Hostname → Option (Hostname × β)}
    {P : Hostname → Prop}
    (hs : ∀ best h, ∀ b ∈ step best h, b ∈ best ∨ b.1 = h ∧ P h) (hostnames : List Hostname)
    {best : Option (Hostname × β)} {b : Hostname × β} (hb : b ∈ hostnames.foldl step best) :
    b ∈ best ∨ b.1 ∈ hostnames ∧ P b.1 := by
  induction hostnames generalizing best with
  | nil => exact .inl hb
  | cons h hostnames ih =>
    rcases ih hb with hb | ⟨hm, hp⟩
    · rcases hs best h b hb with hb | ⟨rfl, hp⟩
      · exact .inl hb
      · exact .inr ⟨List.mem_cons_self, hp⟩
    · exact .inr ⟨List.mem_cons_of_mem _ hm, hp⟩

/-- The instance that fits is a member of the group of a suitable type, and the impact
does not exceed what it has left. -/
theorem fit_spec {taskImpact : ℕ} {impact : Option ℕ} {capacityType : NodeType} {add : Bool}
    (hf : m.fitTaskToMostRemainingCapacityInstance g taskImpact impact capacityType add = some h) :
    h ∈ g.instanceHostnames ∧ ∃ i, m.instances.get? h = some i ∧ i.serves capacityType = true ∧
      0 ≤ m.wouldBeRemaining i (fitImpact impact taskImpact) add := by
  obtain ⟨b, hb, rfl⟩ := Option.map_eq_some_iff.mp hf
  refine (mem_of_foldl (P := fun h => ∃ i, m.instances.get? h = some i ∧
    i.serves capacityType = true ∧ 0 ≤ m.wouldBeRemaining i (fitImpact impact taskImpact) add)
    (fun best h b hb => ?_) _ hb).resolve_left (by simp)
  unfold fitStep at hb
  cases hi : m.instances.get? h with
  | none => exact .inl (by simpa [hi] using hb)
  | some i =>
    simp only [hi] at hb
    split_ifs at hb with hserves hrem
    · exact .inl hb
    · obtain rfl := Option.mem_some_iff.mp hb
      exact .inr ⟨rfl, i, rfl, by simpa using hserves, hrem.1⟩
    · exact .inl hb

theorem idle_spec {capacityType : NodeType}
    (hf : m.findLargestIdleInstance g capacityType = some h) :
    h ∈ g.instanceHostnames ∧ ∃ i, m.instances.get? h = some i ∧ i.serves capacityType = true := by
  obtain ⟨b, hb, rfl⟩ := Option.map_eq_some_iff.mp hf
  refine (mem_of_foldl (P := fun h => ∃ i, m.instances.get? h = some i ∧
    i.serves capacityType = true) (fun best h b hb => ?_) _ hb).resolve_left (by simp)
  unfold idleStep at hb
  cases hi : m.instances.get? h with
  | none => exact .inl (by simpa [hi] using hb)
  | some i =>
    simp only [hi] at hb
    split_ifs at hb with hserves hcap hidle
    · exact .inl hb
    · exact .inl hb
    · have hp : i.serves capacityType = true := by simpa using hserves
      cases best with
      | none =>
        obtain rfl := Option.mem_some_iff.mp hb
        exact .inr ⟨rfl, i, rfl, hp⟩
      | some l =>
        dsimp only at hb
        split_ifs at hb
        · obtain rfl := Option.mem_some_iff.mp hb
          exact .inr ⟨rfl, i, rfl, hp⟩
        · exact .inl hb
    · exact .inl hb

end Search

end TaskManagerModels

end Forail.Scheduler
