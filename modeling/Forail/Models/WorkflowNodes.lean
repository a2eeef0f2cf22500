import Forail.Base.Dict
import Forail.Base.Keyed
import Forail.Base.Value

/-! The nodes of a workflow job, which a launch creates from the nodes of the template and a relaunch from
those of the job: first one node for each, then the edges, through the links from the old nodes to the new
ones. -/

namespace Forail.WorkflowNodes

inductive Relationship
  | always | success | failure
  deriving DecidableEq

/-- `WorkflowNodeBase` with the identifier. Instance groups stand in the order of their positions: a group
that is added comes last. -/
structure Node where
  pk : ℕ
  identifier : String
  unifiedJobTemplate : Option ℕ
  allParentsMustConverge : Bool
  extraData : Dict String Value
  surveyPasswords : Value
  inventory : Option ℕ
  charPrompts : Value
  executionEnvironment : Option ℕ
  credentials : Related ℕ
  labels : Related ℕ
  instanceGroups : Related ℕ
  children : Relationship → Related ℕ

structure WorkflowJobTemplateNode extends Node where
  workflowJobTemplate : ℕ

structure WorkflowJobNode extends Node where
  workflowJob : Option ℕ
  job : Option ℕ
  ancestorArtifacts : Value
  doNotRun : Bool

/-- The table of the nodes of jobs. -/
structure JobNodes where
  rows : List WorkflowJobNode
  next : ℕ
  nodup : (rows.map fun r => r.pk).Nodup
  fresh : ∀ r ∈ rows, r.pk < next

namespace JobNodes

def insert (t : JobNodes) (row : WorkflowJobNode) : JobNodes where
  rows := t.rows ++ [{ row with pk := t.next }]
  next := t.next + 1
  nodup := by
    rw [List.map_append, List.map_singleton]
    refine t.nodup.append (List.nodup_singleton _) fun pk hpk hmem => ?_
    obtain ⟨r, hr, rfl⟩ := List.mem_map.mp hpk
    exact absurd (List.mem_singleton.mp hmem) (Nat.ne_of_lt (t.fresh r hr))
  fresh := by
    intro r hr
    rcases List.mem_append.mp hr with hr | hr
    · exact Nat.lt_succ_of_lt (t.fresh r hr)
    · rw [List.mem_singleton.mp hr]
      exact Nat.lt_succ_self _

def modify (t : JobNodes) (pk : ℕ) (f : WorkflowJobNode → WorkflowJobNode) (hf : ∀ r, (f r).pk = r.pk) :
    JobNodes where
  rows := Keyed.modify (fun r : WorkflowJobNode => r.pk) t.rows pk f
  next := t.next
  nodup := by
    rw [Keyed.keys_modify hf]
    exact t.nodup
  fresh := by
    intro r hr
    obtain ⟨r, hmem, rfl⟩ := Keyed.mem_modify.mp hr
    split_ifs
    · rw [hf]
      exact t.fresh r hmem
    · exact t.fresh r hmem

end JobNodes

/-- Children of one kind are added. -/
def WorkflowJobNode.withChildren (rel : Relationship) (ids : List ℕ) (r : WorkflowJobNode) :
    WorkflowJobNode :=
  { r with children := Function.update r.children rel ((r.children rel).addAll ids) }

/-! ### Copying nodes -/

/-- `create_workflow_job_node`. Each field of the list is that of the old node, but for the job; credentials,
labels and instance groups are added one by one. -/
def newNode (node : Node) (workflowJob : ℕ) : WorkflowJobNode where
  pk := 0
  identifier := node.identifier
  unifiedJobTemplate := node.unifiedJobTemplate
  allParentsMustConverge := node.allParentsMustConverge
  extraData := node.extraData
  surveyPasswords := node.surveyPasswords
  inventory := node.inventory
  charPrompts := node.charPrompts
  executionEnvironment := node.executionEnvironment
  credentials := Related.empty.addAll node.credentials.ids
  labels := Related.empty.addAll node.labels.ids
  instanceGroups := Related.empty.addAll node.instanceGroups.ids
  children := fun _ => .empty
  workflowJob := some workflowJob
  job := none
  ancestorArtifacts := .dict []
  doNotRun := false

/-- `_create_workflow_nodes`: the links and the table. -/
def createWorkflowNodes (workflowJob : ℕ) (oldNodes : List Node) (start : Dict ℕ ℕ × JobNodes) :
    Dict ℕ ℕ × JobNodes :=
  oldNodes.foldl (fun (links, t) node => (links.set node.pk t.next, t.insert (newNode node workflowJob)))
    start

def addChild (t : JobNodes) (pk : ℕ) (rel : Relationship) (child : ℕ) : JobNodes :=
  t.modify pk (WorkflowJobNode.withChildren rel [child]) fun _ => rfl

/-- The loop over the children of a node; a child without a link raises. -/
def inheritChildren (links : Dict ℕ ℕ) (new : ℕ) (rel : Relationship) (children : List ℕ) (t : JobNodes) :
    Option JobNodes :=
  children.foldlM (fun t child => do
    let newChild ← links.get? child
    some (addChild t new rel newChild)) t

/-- `_inherit_node_relationships` -/
def inheritNodeRelationships (links : Dict ℕ ℕ) (oldNodes : List Node) (t : JobNodes) : Option JobNodes :=
  oldNodes.foldlM (fun t node => do
    let new ← links.get? node.pk
    [Relationship.always, .success, .failure].foldlM
      (fun t rel => inheritChildren links new rel (node.children rel).ids t) t) t

def copyNodesFromOriginal (workflowJob : ℕ) (oldNodes : List Node) (t : JobNodes) : Option JobNodes :=
  let (links, t) := createWorkflowNodes workflowJob oldNodes (.empty, t)
  inheritNodeRelationships links oldNodes t

/-! ### Launch and relaunch -/

/-- `nextJob` is the id of the next job. -/
structure Db where
  templateNodes : List WorkflowJobTemplateNode
  jobNodes : JobNodes
  nextJob : ℕ

namespace Db

def templateNodesOf (db : Db) (template : ℕ) : List Node :=
  (db.templateNodes.filter fun n => n.workflowJobTemplate = template).map fun n => n.toNode

def jobNodesOf (db : Db) (job : ℕ) : List Node :=
  (db.jobNodes.rows.filter fun r => r.workflowJob = some job).map fun r => r.toNode

/-- The answers to the survey of a node, which are a dictionary. -/
def applyAnswers (nodeSurveyData : Dict String Value) (r : WorkflowJobNode) : WorkflowJobNode :=
  match nodeSurveyData.get? r.identifier with
  | some (.dict answers) => { r with extraData := r.extraData.update answers }
  | _ => r

theorem pk_applyAnswers (nodeSurveyData : Dict String Value) (r : WorkflowJobNode) :
    (applyAnswers nodeSurveyData r).pk = r.pk := by
  unfold applyAnswers
  split <;> rfl

/-- The loop over the nodes of the new job. -/
def applyNodeSurveyData (job : ℕ) (nodeSurveyData : Dict String Value) (t : JobNodes) : JobNodes where
  rows := t.rows.map fun r => if r.workflowJob = some job then applyAnswers nodeSurveyData r else r
  next := t.next
  nodup := by
    have hpks : (t.rows.map fun r => if r.workflowJob = some job then applyAnswers nodeSurveyData r else r).map
        (fun r => r.pk) = t.rows.map fun r => r.pk := by
      rw [List.map_map]
      refine List.map_congr_left fun r _ => ?_
      rw [Function.comp_apply]
      split_ifs
      · exact pk_applyAnswers nodeSurveyData r
      · rfl
    rw [hpks]
    exact t.nodup
  fresh := by
    intro r hr
    obtain ⟨r, hmem, rfl⟩ := List.mem_map.mp hr
    split_ifs
    · rw [pk_applyAnswers]
      exact t.fresh r hmem
    · exact t.fresh r hmem

/-- `WorkflowJobTemplate.create_unified_job`: the new job, whose own columns are left out, and its nodes. -/
def createUnifiedJob (db : Db) (template : ℕ) (nodeSurveyData : Dict String Value) : Option (ℕ × Db) := do
  let job := db.nextJob
  let t ← copyNodesFromOriginal job (db.templateNodesOf template) db.jobNodes
  some (job, ⟨db.templateNodes, applyNodeSurveyData job nodeSurveyData t, db.nextJob + 1⟩)

/-- What the code reads of a job: its template, and whether the prompts of its launch are known. -/
structure WorkflowJob where
  id : ℕ
  unifiedJobTemplate : Option ℕ
  hasPrompts : Bool

/-- `copy_unified_job`; a template spawns the new job, where the prompts of the launch are known. -/
def copyUnifiedJob (spawn : ℕ → Db → Option (ℕ × Db)) (db : Db) (self : WorkflowJob) : Option (ℕ × Db) :=
  match self.unifiedJobTemplate, self.hasPrompts with
  | some template, true => spawn template db
  | _, _ => some (db.nextJob, { db with nextJob := db.nextJob + 1 })

/-- `create_relaunch_workflow_job` -/
def createRelaunchWorkflowJob (spawn : ℕ → Db → Option (ℕ × Db)) (db : Db) (self : WorkflowJob) :
    Option (ℕ × Db) := do
  let (job, db) ← copyUnifiedJob spawn db self
  if self.unifiedJobTemplate.isNone then
    let t ← copyNodesFromOriginal job (db.jobNodesOf self.id) db.jobNodes
    some (job, { db with jobNodes := t })
  else some (job, db)

end Db

end Forail.WorkflowNodes
