import Forail.Base.Dict
import Forail.Models.UnifiedJob
import Mathlib.Data.Int.Notation

/-! The dependency graph of one task manager cycle: six tables, each with the first job
that was added under a key. `marks` lists the keys that a kind of job is stored under and
`reads` those that it looks up; the tables are then a set of taken keys, which `addJob`
enlarges by the first list and `taskBlockedBy` tests for the second. -/

namespace Forail.Scheduler

abbrev Hostname := ℕ

/-- The concrete class of a unified job with the ids that the graph reads from it. The
inventory of an inventory update is that of its source. -/
inductive JobKind
  | projectUpdate (project : ℕ)
  | inventoryUpdate (inventorySource : ℕ) (inventory : Option ℕ)
  | job (jobTemplate project inventory : Option ℕ) (allowSimultaneous : Bool)
  | systemJob
  | adHocCommand (inventory : Option ℕ)
  | workflowJob (workflowJobTemplate unifiedJobTemplate : Option ℕ) (allowSimultaneous : Bool)
  | workflowApproval
  deriving DecidableEq

/-- `get_type_for_model`. -/
def JobKind.typeName : JobKind → String
  | projectUpdate _ => "project_update"
  | inventoryUpdate _ _ => "inventory_update"
  | job _ _ _ _ => "job"
  | systemJob => "system_job"
  | adHocCommand _ => "ad_hoc_command"
  | workflowJob _ _ _ => "workflow_job"
  | workflowApproval => "workflow_approval"

/-- `_meta.model_name`. -/
def JobKind.modelName : JobKind → String
  | projectUpdate _ => "projectupdate"
  | inventoryUpdate _ _ => "inventoryupdate"
  | job _ _ _ _ => "job"
  | systemJob => "systemjob"
  | adHocCommand _ => "adhoccommand"
  | workflowJob _ _ _ => "workflowjob"
  | workflowApproval => "workflowapproval"

/-- The fields of a unified job that the task manager reads or writes; a node that is not
set is the empty text of the source. -/
structure UnifiedJob where
  id : ℕ
  kind : JobKind
  name : String
  status : Status
  launchType : LaunchType
  dependenciesProcessed : Bool
  dependentJobs : List ℕ
  taskImpact : ℕ
  controllerNode : Option Hostname
  executionNode : Option Hostname
  instanceGroup : Option ℕ
  preferredInstanceGroupsCache : Option (List ℕ)
  jobExplanation : String
  created : ℤ

structure DependencyGraph where
  projectUpdates : Dict ℕ UnifiedJob
  inventoryUpdates : Dict ℕ UnifiedJob
  inventorySourceUpdates : Dict ℕ UnifiedJob
  jobTemplateJobs : Dict ℕ UnifiedJob
  systemJob : Dict String UnifiedJob
  workflowJobTemplatesJobs : Dict ℕ UnifiedJob

namespace DependencyGraph

def new : DependencyGraph := ⟨.empty, .empty, .empty, .empty, .empty, .empty⟩

/-- Only the first job of a key is kept; a job without a key is ignored. -/
def markIfNoKey {κ : Type} [DecidableEq κ] (table : Dict κ UnifiedJob) (id : Option κ)
    (job : UnifiedJob) : Dict κ UnifiedJob :=
  match id with
  | none => table
  | some id => if (table.get? id).isSome then table else table.set id job

def getItem {κ : Type} [DecidableEq κ] (table : Dict κ UnifiedJob) (id : Option κ) :
    Option UnifiedJob := id.bind table.get?

section Marks
variable (g : DependencyGraph) (job : UnifiedJob)

def markSystemJob : DependencyGraph :=
  { g with systemJob := markIfNoKey g.systemJob (some "system_job") job }

def markProjectUpdate (project : ℕ) : DependencyGraph :=
  { g with projectUpdates := markIfNoKey g.projectUpdates (some project) job }

def markInventoryUpdate (inventory : Option ℕ) : DependencyGraph :=
  { g with inventoryUpdates := markIfNoKey g.inventoryUpdates inventory job }

def markInventorySourceUpdate (inventorySource : ℕ) : DependencyGraph :=
  { g with inventorySourceUpdates := markIfNoKey g.inventorySourceUpdates (some inventorySource) job }

def markJobTemplateJob (jobTemplate : Option ℕ) : DependencyGraph :=
  { g with jobTemplateJobs := markIfNoKey g.jobTemplateJobs jobTemplate job }

/-- A sliced workflow job has no workflow job template and is stored under its job template. -/
def markWorkflowJob (workflowJobTemplate unifiedJobTemplate : Option ℕ) : DependencyGraph :=
  { g with
    workflowJobTemplatesJobs := markIfNoKey g.workflowJobTemplatesJobs
      (workflowJobTemplate.or unifiedJobTemplate) job }

def addJob : DependencyGraph :=
  match job.kind with
  | .projectUpdate project => g.markProjectUpdate job project
  | .inventoryUpdate source inventory =>
    (g.markInventoryUpdate job inventory).markInventorySourceUpdate job source
  | .job jobTemplate _ _ _ => g.markJobTemplateJob job jobTemplate
  | .workflowJob workflowJobTemplate unifiedJobTemplate _ =>
    g.markWorkflowJob job workflowJobTemplate unifiedJobTemplate
  | .systemJob => g.markSystemJob job
  | .adHocCommand inventory => g.markInventoryUpdate job inventory
  | .workflowApproval => g

end Marks

section Blocks
variable (g : DependencyGraph)

def projectUpdateBlockedBy (project : ℕ) : Option UnifiedJob :=
  getItem g.projectUpdates (some project)

def inventoryUpdateBlockedBy (inventorySource : ℕ) : Option UnifiedJob :=
  getItem g.inventorySourceUpdates (some inventorySource)

def jobBlockedBy (jobTemplate project inventory : Option ℕ) (allowSimultaneous : Bool) :
    Option UnifiedJob :=
  let projectBlock := getItem g.projectUpdates project
  let inventoryBlock := getItem g.inventoryUpdates inventory
  let jobBlock := if allowSimultaneous then none else getItem g.jobTemplateJobs jobTemplate
  projectBlock.or (inventoryBlock.or jobBlock)

def workflowJobBlockedBy (workflowJobTemplate unifiedJobTemplate : Option ℕ)
    (allowSimultaneous : Bool) : Option UnifiedJob :=
  if allowSimultaneous then none
  else if workflowJobTemplate.isSome then getItem g.workflowJobTemplatesJobs workflowJobTemplate
  else
    (getItem g.workflowJobTemplatesJobs unifiedJobTemplate).or
      (getItem g.jobTemplateJobs unifiedJobTemplate)

def systemJobBlockedBy : Option UnifiedJob := getItem g.systemJob (some "system_job")

def adHocCommandBlockedBy (inventory : Option ℕ) : Option UnifiedJob :=
  getItem g.inventoryUpdates inventory

def taskBlockedBy (job : UnifiedJob) : Option UnifiedJob :=
  match job.kind with
  | .projectUpdate project => g.projectUpdateBlockedBy project
  | .inventoryUpdate source _ => g.inventoryUpdateBlockedBy source
  | .job jobTemplate project inventory simultaneous =>
    g.jobBlockedBy jobTemplate project inventory simultaneous
  | .systemJob => g.systemJobBlockedBy
  | .adHocCommand inventory => g.adHocCommandBlockedBy inventory
  | .workflowJob workflowJobTemplate unifiedJobTemplate simultaneous =>
    g.workflowJobBlockedBy workflowJobTemplate unifiedJobTemplate simultaneous
  | .workflowApproval => none

end Blocks

/-! ### The tables as a set of taken keys -/

/-- A table with one of its keys. -/
inductive Key
  | project (id : ℕ)
  | inventory (id : ℕ)
  | inventorySource (id : ℕ)
  | jobTemplate (id : ℕ)
  | system
  | workflow (id : ℕ)
  deriving DecidableEq

def entry (g : DependencyGraph) : Key → Option UnifiedJob
  | .project id => g.projectUpdates.get? id
  | .inventory id => g.inventoryUpdates.get? id
  | .inventorySource id => g.inventorySourceUpdates.get? id
  | .jobTemplate id => g.jobTemplateJobs.get? id
  | .system => g.systemJob.get? "system_job"
  | .workflow id => g.workflowJobTemplatesJobs.get? id

/-- Some job is stored under the key. -/
def taken (g : DependencyGraph) (k : Key) : Bool := (g.entry k).isSome

end DependencyGraph

open DependencyGraph

/-- The keys that a job is stored under. -/
def JobKind.marks : JobKind → List Key
  | projectUpdate project => [.project project]
  | inventoryUpdate source inventory => .inventorySource source :: inventory.toList.map .inventory
  | job jobTemplate _ _ _ => jobTemplate.toList.map .jobTemplate
  | systemJob => [.system]
  | adHocCommand inventory => inventory.toList.map .inventory
  | workflowJob workflowJobTemplate unifiedJobTemplate _ =>
    (workflowJobTemplate.or unifiedJobTemplate).toList.map .workflow
  | workflowApproval => []

/-- The keys that a job is looked up under. A sliced workflow job reads two tables, a job
of the same template only that of the jobs. -/
def JobKind.reads : JobKind → List Key
  | projectUpdate project => [.project project]
  | inventoryUpdate source _ => [.inventorySource source]
  | job jobTemplate project inventory simultaneous =>
    project.toList.map .project ++ inventory.toList.map .inventory ++
      if simultaneous then [] else jobTemplate.toList.map .jobTemplate
  | systemJob => [.system]
  | adHocCommand inventory => inventory.toList.map .inventory
  | workflowJob workflowJobTemplate unifiedJobTemplate simultaneous =>
    if simultaneous then []
    else match workflowJobTemplate with
      | some id => [.workflow id]
      | none => unifiedJobTemplate.toList.flatMap fun id => [.workflow id, .jobTemplate id]
  | workflowApproval => []

namespace DependencyGraph

theorem isSome_markIfNoKey {κ : Type} [DecidableEq κ] (table : Dict κ UnifiedJob) (id : Option κ)
    (job : UnifiedJob) (key : κ) :
    ((markIfNoKey table id job).get? key).isSome = true ↔
      (table.get? key).isSome = true ∨ id = some key := by
  cases id with
  | none => simp [markIfNoKey]
  | some id =>
    rw [markIfNoKey]
    by_cases hk : key = id
    · subst hk
      by_cases ht : (table.get? key).isSome
      · rw [if_pos ht]
        simp [ht]
      · rw [if_neg ht, Dict.get?_set, if_pos rfl]
        simp
    · have hne : id ≠ key := fun h => hk h.symm
      split_ifs with ht
      · simp [hne]
      · rw [Dict.get?_set, if_neg hk]
        simp [hne]

/-- Adding a job takes the keys of its kind and leaves the others as they were. -/
theorem taken_addJob (g : DependencyGraph) (job : UnifiedJob) (k : Key) :
    (g.addJob job).taken k = true ↔ g.taken k = true ∨ k ∈ job.kind.marks := by
  unfold addJob taken JobKind.marks
  cases job.kind with
  | projectUpdate project =>
    cases k <;> simp [entry, markProjectUpdate, isSome_markIfNoKey, @eq_comm ℕ]
  | inventoryUpdate source inventory =>
    cases k <;> simp [entry, markInventoryUpdate, markInventorySourceUpdate, isSome_markIfNoKey,
      @eq_comm ℕ]
  | job jobTemplate project inventory simultaneous =>
    cases k <;> simp [entry, markJobTemplateJob, isSome_markIfNoKey]
  | systemJob => cases k <;> simp [entry, markSystemJob, isSome_markIfNoKey]
  | adHocCommand inventory => cases k <;> simp [entry, markInventoryUpdate, isSome_markIfNoKey]
  | workflowJob workflowJobTemplate unifiedJobTemplate simultaneous =>
    cases k <;> simp [entry, markWorkflowJob, isSome_markIfNoKey]
  | workflowApproval => simp

theorem isSome_getItem {κ : Type} [DecidableEq κ] (table : Dict κ UnifiedJob) (id : Option κ) :
    (getItem table id).isSome = true ↔ ∃ key ∈ id, (table.get? key).isSome = true := by
  cases id <;> simp [getItem]

/-- A job is blocked exactly when one of the keys that it reads is taken. -/
theorem isSome_taskBlockedBy (g : DependencyGraph) (job : UnifiedJob) :
    (g.taskBlockedBy job).isSome = true ↔ ∃ k ∈ job.kind.reads, g.taken k = true := by
  unfold taskBlockedBy taken JobKind.reads
  cases job.kind with
  | projectUpdate project => simp [projectUpdateBlockedBy, getItem, entry]
  | inventoryUpdate source inventory => simp [inventoryUpdateBlockedBy, getItem, entry]
  | job jobTemplate project inventory simultaneous =>
    cases simultaneous <;> simp [jobBlockedBy, isSome_getItem, entry, or_and_right, exists_or]
  | systemJob => simp [systemJobBlockedBy, getItem, entry]
  | adHocCommand inventory => simp [adHocCommandBlockedBy, isSome_getItem, entry]
  | workflowJob workflowJobTemplate unifiedJobTemplate simultaneous =>
    cases simultaneous with
    | true => simp [workflowJobBlockedBy]
    | false =>
      cases workflowJobTemplate with
      | some id => simp [workflowJobBlockedBy, getItem, entry]
      | none => cases unifiedJobTemplate <;> simp [workflowJobBlockedBy, getItem, entry]
  | workflowApproval => simp

end DependencyGraph

end Forail.Scheduler
