import Forail.Models.SurveyVariables

/-! The variables of a job that a workflow node spawns: the prompts of node and workflow job, the
artifacts of the ancestors, and the save of the node afterwards. A dictionary that belongs to the
node is kept apart from a copy, because a change to it is a change of the node. -/

namespace Forail.NodeJobs

open SurveyVariables

variable {V : Type*}

/-- `extra_data` or `extra_vars`: a dictionary, or a text in JSON or YAML. -/
inductive ExtraData (V : Type*)
  | dict (d : Dict String V)
  | text (s : String)

/-- The variables, with `parse` for `parse_yaml_or_json`; an empty text is not parsed. -/
def ExtraData.vars (parse : String → Dict String V) : ExtraData V → Dict String V
  | .dict d => d
  | .text s => if s = "" then .empty else parse s

/-- The variables and password keys that a workflow job or a launch config keeps. -/
structure LaunchConfig (V : Type*) where
  extraVars : ExtraData V
  surveyPasswords : Dict String String

/-- A workflow job with its own config; for a sliced job `slice` holds its launch config, which
may be missing. -/
structure WorkflowJob (V : Type*) where
  own : LaunchConfig V
  slice : Option (Option (LaunchConfig V))
  createdBy : Option ℕ
  nodeCount : ℕ

/-- The config that `prompts_dict` reads. -/
def WorkflowJob.config (wj : WorkflowJob V) : LaunchConfig V :=
  match wj.slice with
  | none => wj.own
  | some none => ⟨.dict .empty, .empty⟩
  | some (some config) => config

structure WorkflowJobNode (V : Type*) where
  extraData : ExtraData V
  surveyPasswords : Dict String String
  ancestorArtifacts : Dict String V
  job : Option ℕ

/-- A parent with the effective artifacts of its job. -/
structure ParentNode (V : Type*) where
  ancestorArtifacts : Dict String V
  effectiveArtifacts : Option (Dict String V)

/-! ### References -/

/-- What a local name refers to: the `extra_data` of the node, or another dictionary. -/
inductive VarsRef (V : Type*)
  | extraData
  | other (d : Dict String V)

/-- Likewise for `survey_passwords`. -/
inductive PasswordsRef
  | surveyPasswords
  | other (d : Dict String String)

namespace VarsRef

def read (node : WorkflowJobNode V) : VarsRef V → Dict String V
  | .extraData =>
    match node.extraData with
    | .dict d => d
    | .text _ => .empty
  | .other d => d

/-- `dict.update`, which changes the node where the name refers to its dictionary. -/
def update (node : WorkflowJobNode V) (d : Dict String V) : VarsRef V → WorkflowJobNode V × VarsRef V
  | .extraData =>
    ({ node with extraData := .dict ((read node .extraData).update d.entries) }, .extraData)
  | .other e => (node, .other (e.update d.entries))

end VarsRef

namespace PasswordsRef

def read (node : WorkflowJobNode V) : PasswordsRef → Dict String String
  | .surveyPasswords => node.surveyPasswords
  | .other d => d

def update (node : WorkflowJobNode V) (d : Dict String String) :
    PasswordsRef → WorkflowJobNode V × PasswordsRef
  | .surveyPasswords =>
    ({ node with surveyPasswords := node.surveyPasswords.update d.entries }, .surveyPasswords)
  | .other e => (node, .other (e.update d.entries))

end PasswordsRef

/-! ### The prompts -/

/-- The entries `extra_vars` and `survey_passwords` of a dictionary of prompts. -/
structure Prompts (V : Type*) where
  extraVars : Option (VarsRef V)
  surveyPasswords : Option PasswordsRef

/-- A dictionary that is left out where it is empty. -/
def nonempty? {ν : Type*} (d : Dict String ν) : Option (Dict String ν) :=
  if d.entries.isEmpty then none else some d

/-- `prompts_dict` of a node. A dictionary is handed out itself, a text parsed. -/
def WorkflowJobNode.promptsDict (parse : String → Dict String V) (node : WorkflowJobNode V) :
    Prompts V where
  extraVars :=
    match node.extraData with
    | .dict d => (nonempty? d).map fun _ => .extraData
    | .text s => (nonempty? ((ExtraData.text s).vars parse)).map .other
  surveyPasswords := (nonempty? node.surveyPasswords).map fun _ => .surveyPasswords

/-- `prompts_dict` of a workflow job. No name for one of its dictionaries is used for a change. -/
def WorkflowJob.promptsDict (parse : String → Dict String V) (wj : WorkflowJob V) : Prompts V where
  extraVars := (nonempty? (wj.config.extraVars.vars parse)).map .other
  surveyPasswords := (nonempty? wj.config.surveyPasswords).map .other

/-- `node_prompts_data.update(wj_prompts_data)`. -/
def Prompts.update (p q : Prompts V) : Prompts V :=
  ⟨q.extraVars.or p.extraVars, q.surveyPasswords.or p.surveyPasswords⟩

/-- The prompts that the template is offered, the node as the combination leaves it, and
`wj_special_vars` and `wj_special_passwords`. -/
structure Combined (V : Type*) where
  node : WorkflowJobNode V
  prompts : Prompts V
  specialVars : Dict String V
  specialPasswords : Dict String String

/-- The combination of the prompts of node and workflow job. -/
def combine (parse : String → Dict String V) (t : SurveyTemplate V) (node : WorkflowJobNode V)
    (wj : WorkflowJob V) : Combined V :=
  let nodePrompts := node.promptsDict parse
  let wjPrompts := wj.promptsDict parse
  let wjVars := (wjPrompts.extraVars.map (VarsRef.read node)).getD .empty
  let wjPasswords := (wjPrompts.surveyPasswords.map (PasswordsRef.read node)).getD .empty
  if !t.isWorkflow then ⟨node, nodePrompts.update ⟨none, none⟩, wjVars, wjPasswords⟩
  else
    match nodePrompts.extraVars, nodePrompts.surveyPasswords with
    | some ref, _ =>
      let (node, ref) := ref.update node wjVars
      ⟨node, { nodePrompts with extraVars := some ref }.update { wjPrompts with extraVars := none },
        .empty, .empty⟩
    | none, some ref =>
      let (node, ref) := ref.update node wjPasswords
      ⟨node, { nodePrompts with surveyPasswords := some ref }.update
        { wjPrompts with surveyPasswords := none }, .empty, .empty⟩
    | none, none => ⟨node, nodePrompts.update wjPrompts, .empty, .empty⟩

/-- The `extra_vars` of the fields that the template accepts. No template accepts
`survey_passwords`, which only tell it what to decrypt. -/
def acceptedVars [BEq V] (secrets : Secrets V) (t : SurveyTemplate V) (c : Combined V) :
    Option (Dict String V) :=
  nonempty? (acceptOrIgnoreVariables secrets t
    ((c.prompts.extraVars.map (VarsRef.read c.node)).getD .empty)
    ((c.prompts.surveyPasswords.map (PasswordsRef.read c.node)).getD .empty)).accepted

/-! ### The arguments of the new job -/

/-- `aa_dict`. -/
def ancestorArtifacts (parents : List (ParentNode V)) : Dict String V :=
  parents.foldl (fun aa parent =>
    let aa := aa.update parent.ancestorArtifacts.entries
    match parent.effectiveArtifacts with
    | none => aa
    | some artifacts => aa.update artifacts.entries) .empty

def noLog : String := "_ansible_no_log"

def replaceStr : String := "$encrypted$"

/-- `password_dict`. The accepted fields hold none to begin with. -/
def passwordDict (aa : Dict String V) (specialPasswords : Dict String String) : Dict String String :=
  let hidden := if noLog ∈ aa.keys then (aa.keys.filter (· ≠ noLog)).map fun k => (k, replaceStr)
    else []
  (Dict.empty.update hidden).update specialPasswords.entries

/-- The keyword arguments, with the slice number and count of a slice. -/
structure JobKwargs (V : Type*) where
  extraVars : Option (Dict String V)
  surveyPasswords : Option (Dict String String)
  createdBy : Option ℕ
  jobSlice : Option (V × ℕ)

/-- A template with variables of its own, or any other kind of template. -/
inductive UnifiedJobTemplate (V : Type*)
  | survey (t : SurveyTemplate V)
  | other

/-- The arguments and the node, with `ancestor_artifacts` set. The prompts of other templates
hold no variables. -/
def getJobKwargs [BEq V] (secrets : Secrets V) (parse : String → Dict String V)
    (ujt : UnifiedJobTemplate V) (node : WorkflowJobNode V) (wj : WorkflowJob V)
    (parents : List (ParentNode V)) : JobKwargs V × WorkflowJobNode V :=
  let (accepted, c) : Option (Dict String V) × Combined V :=
    match ujt with
    | .survey t =>
      let c := combine parse t node wj
      (acceptedVars secrets t c, c)
    | .other => (none, ⟨node, ⟨none, none⟩, .empty, .empty⟩)
  let aa := ancestorArtifacts parents
  let node := if aa.entries.isEmpty || parents.isEmpty then c.node
    else { c.node with ancestorArtifacts := aa }
  let functional : Dict String V :=
    match ujt with
    | .survey _ => aa.erase noLog
    | .other => .empty
  let extraVars := ((accepted.getD .empty).update functional.entries).update c.specialVars.entries
  let jobSlice := if parents.isEmpty then node.ancestorArtifacts.get? "job_slice" else none
  (⟨nonempty? extraVars, nonempty? (passwordDict aa c.specialPasswords), wj.createdBy,
    jobSlice.map fun number => (number, wj.nodeCount)⟩, node)

/-- The loop body of `spawn_workflow_graph_jobs` for a node, up to `spawn_node.save()`: the
arguments of the job with id `job`, and the row written. -/
def spawn [BEq V] (secrets : Secrets V) (parse : String → Dict String V)
    (ujt : UnifiedJobTemplate V) (node : WorkflowJobNode V) (wj : WorkflowJob V)
    (parents : List (ParentNode V)) (job : ℕ) : JobKwargs V × WorkflowJobNode V :=
  let (kv, node) := getJobKwargs secrets parse ujt node wj parents
  (kv, { node with job := some job })

end Forail.NodeJobs
