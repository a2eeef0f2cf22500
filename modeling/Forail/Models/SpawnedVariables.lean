import Forail.Models.NodeJobKwargs
import Mathlib.Data.List.Induction

/-! The sources of the variables of a spawned job: the node, the workflow job and the artifacts of
the ancestors. The combination of the prompts offers the template the variables of the node, for
a nested workflow those of the workflow job over them. -/

namespace Forail.NodeJobs

open SurveyVariables

variable {V : Type*}

/-! ### The sources of a variable -/

def WorkflowJobNode.vars (parse : String → Dict String V) (node : WorkflowJobNode V) :
    Dict String V := node.extraData.vars parse

def WorkflowJob.vars (parse : String → Dict String V) (wj : WorkflowJob V) : Dict String V :=
  wj.config.extraVars.vars parse

def WorkflowJob.passwords (wj : WorkflowJob V) : Dict String String := wj.config.surveyPasswords

/-- The artifact that the ancestors pass down under a key: that of the last parent that has one,
of its job before those that it inherited. -/
def artifact (parents : List (ParentNode V)) (k : String) : Option V :=
  parents.reverse.findSome? fun parent =>
    (parent.effectiveArtifacts.bind fun artifacts => artifacts.get? k).or
      (parent.ancestorArtifacts.get? k)

theorem get?_ancestorArtifacts (parents : List (ParentNode V)) (k : String) :
    (ancestorArtifacts parents).get? k = artifact parents k := by
  induction parents using List.reverseRecOn with
  | nil => rfl
  | append_singleton parents parent ih =>
    have hlast : artifact (parents ++ [parent]) k =
        ((parent.effectiveArtifacts.bind fun artifacts => artifacts.get? k).or
          (parent.ancestorArtifacts.get? k)).or (artifact parents k) := by
      rw [artifact, List.reverse_concat, List.findSome?_cons]
      cases (parent.effectiveArtifacts.bind fun artifacts => artifacts.get? k).or
        (parent.ancestorArtifacts.get? k) <;> rfl
    rw [hlast, ← ih, ancestorArtifacts, List.foldl_append, List.foldl_cons, List.foldl_nil,
      ← ancestorArtifacts]
    cases parent.effectiveArtifacts with
    | none => rw [Dict.get?_update, Option.bind_none, Option.none_or]
    | some artifacts => rw [Dict.get?_update, Dict.get?_update, Option.bind_some, Option.or_assoc]

@[simp] theorem getD_nonempty {ν : Type*} (d : Dict String ν) : (nonempty? d).getD .empty = d := by
  unfold nonempty?
  split_ifs with h
  · exact (Dict.eq_empty (List.isEmpty_iff.mp h)).symm
  · rfl

theorem nonempty_eq_none {ν : Type*} {d : Dict String ν} : nonempty? d = none ↔ d = .empty := by
  unfold nonempty?
  split_ifs with h
  · exact iff_of_true rfl (Dict.eq_empty (List.isEmpty_iff.mp h))
  · refine iff_of_false (by simp) fun hd => h ?_
    rw [hd]
    rfl

/-! ### The combination -/

/-- The variables that the template is offered. -/
def offeredVars (parse : String → Dict String V) (t : SurveyTemplate V) (node : WorkflowJobNode V)
    (wj : WorkflowJob V) : Dict String V :=
  if t.isWorkflow then (node.vars parse).update (wj.vars parse).entries else node.vars parse

/-- The password keys that it is told: for a nested workflow those of the workflow job take the
place of the node's, or are added to them where the node has no variables. -/
def offeredPasswords (parse : String → Dict String V) (t : SurveyTemplate V)
    (node : WorkflowJobNode V) (wj : WorkflowJob V) : Dict String String :=
  if t.isWorkflow then
    match nonempty? (node.vars parse), nonempty? node.surveyPasswords with
    | some _, _ => (nonempty? wj.passwords).getD node.surveyPasswords
    | none, _ => node.surveyPasswords.update wj.passwords.entries
  else node.surveyPasswords

/-- The node after the combination: where its template is a workflow, a dictionary of the node
with variables or else its password keys are updated. -/
def combinedNode (parse : String → Dict String V) (t : SurveyTemplate V)
    (node : WorkflowJobNode V) (wj : WorkflowJob V) : WorkflowJobNode V :=
  if t.isWorkflow then
    match nonempty? (node.vars parse), nonempty? node.surveyPasswords, node.extraData with
    | some _, _, .dict d => { node with extraData := .dict (d.update (wj.vars parse).entries) }
    | some _, _, .text _ => node
    | none, some d, _ => { node with surveyPasswords := d.update wj.passwords.entries }
    | none, none, _ => node
  else node

theorem nonempty_eq_some {ν : Type*} {d e : Dict String ν} (h : nonempty? d = some e) : e = d := by
  unfold nonempty? at h
  split_ifs at h
  exact (Option.some.inj h).symm

section Combine
variable (parse : String → Dict String V) (node : WorkflowJobNode V) (wj : WorkflowJob V)

theorem wjVars_eq : (((wj.promptsDict parse).extraVars.map (VarsRef.read node)).getD .empty) =
    wj.vars parse := by
  simp [WorkflowJob.promptsDict, VarsRef.read, Function.comp_def, WorkflowJob.vars]

theorem wjPasswords_eq :
    (((wj.promptsDict parse).surveyPasswords.map (PasswordsRef.read node)).getD .empty) =
      wj.passwords := by
  simp [WorkflowJob.promptsDict, PasswordsRef.read, Function.comp_def, WorkflowJob.passwords]

/-- The name that a node with variables hands out, and what it reads. -/
theorem promptsDict_vars {d : Dict String V} (h : nonempty? (node.vars parse) = some d) :
    (∃ s, node.extraData = .text s ∧ (node.promptsDict parse).extraVars = some (.other d)) ∨
      node.extraData = .dict d ∧ (node.promptsDict parse).extraVars = some .extraData := by
  obtain rfl := nonempty_eq_some h
  unfold WorkflowJobNode.vars at h ⊢
  unfold WorkflowJobNode.promptsDict
  cases he : node.extraData with
  | dict d =>
    rw [he] at h
    exact .inr ⟨rfl, by simp [show nonempty? d = some d from h]⟩
  | text s =>
    rw [he] at h
    exact .inl ⟨s, rfl, by simp [h]⟩

theorem promptsDict_no_vars (h : nonempty? (node.vars parse) = none) :
    (node.promptsDict parse).extraVars = none := by
  unfold WorkflowJobNode.vars at h
  unfold WorkflowJobNode.promptsDict
  cases he : node.extraData with
  | dict d =>
    rw [he] at h
    simp [show nonempty? d = none from h]
  | text s =>
    rw [he] at h
    simp [h]

theorem read_promptsDict :
    ((node.promptsDict parse).extraVars.map (VarsRef.read node)).getD .empty = node.vars parse := by
  cases h : nonempty? (node.vars parse) with
  | none =>
    rw [promptsDict_no_vars parse node h, nonempty_eq_none.mp h]
    rfl
  | some d =>
    rw [← nonempty_eq_some h]
    rcases promptsDict_vars parse node h with ⟨s, -, hr⟩ | ⟨he, hr⟩
    · rw [hr]
      rfl
    · rw [hr]
      simp [VarsRef.read, he]

theorem read_passwords :
    ((node.promptsDict parse).surveyPasswords.map (PasswordsRef.read node)).getD .empty =
      node.surveyPasswords := by
  simp [WorkflowJobNode.promptsDict, PasswordsRef.read, Option.map_map, Function.comp_def]
  cases h : nonempty? node.surveyPasswords with
  | none => exact (nonempty_eq_none.mp h).symm
  | some d => rfl

theorem promptsDict_passwords : (node.promptsDict parse).surveyPasswords =
    (nonempty? node.surveyPasswords).map fun _ => .surveyPasswords := rfl

theorem wj_passwords : (wj.promptsDict parse).surveyPasswords =
    (nonempty? wj.passwords).map .other := rfl

theorem wj_vars : (wj.promptsDict parse).extraVars =
    (nonempty? (wj.vars parse)).map .other := rfl

/-- The combination in terms of the two sources. -/
structure CombineSpec (t : SurveyTemplate V) (c : Combined V) : Prop where
  node_eq : c.node = combinedNode parse t node wj
  vars : (c.prompts.extraVars.map (VarsRef.read c.node)).getD .empty = offeredVars parse t node wj
  passwords : (c.prompts.surveyPasswords.map (PasswordsRef.read c.node)).getD .empty =
    offeredPasswords parse t node wj
  specialVars : c.specialVars = if t.isWorkflow then .empty else wj.vars parse
  specialPasswords : c.specialPasswords = if t.isWorkflow then .empty else wj.passwords

theorem combine_spec (t : SurveyTemplate V) :
    CombineSpec parse node wj t (combine parse t node wj) := by
  cases hw : t.isWorkflow with
  | false =>
    have hc : combine parse t node wj =
        ⟨node, node.promptsDict parse, wj.vars parse, wj.passwords⟩ := by
      simp [combine, hw, Prompts.update, wjVars_eq, wjPasswords_eq]
    rw [hc]
    exact ⟨by simp [combinedNode, hw], by simp [read_promptsDict, offeredVars, hw],
      by simp [read_passwords, offeredPasswords, hw], by simp [hw], by simp [hw]⟩
  | true =>
    cases hv : nonempty? (node.vars parse) with
    | some d =>
      -- the variables of the workflow job are stored over those of the node
      have hpasswords (n : WorkflowJobNode V) (hn : n.surveyPasswords = node.surveyPasswords) :
          ((((wj.promptsDict parse).surveyPasswords.or (node.promptsDict parse).surveyPasswords)).map
            (PasswordsRef.read n)).getD .empty = offeredPasswords parse t node wj := by
        rw [offeredPasswords, if_pos hw, hv, promptsDict_passwords, wj_passwords]
        cases nonempty? wj.passwords with
        | some e => rfl
        | none =>
          cases hp : nonempty? node.surveyPasswords with
          | some e => exact hn
          | none => exact (nonempty_eq_none.mp hp).symm
      obtain rfl := nonempty_eq_some hv
      rcases promptsDict_vars parse node hv with ⟨s, he, hr⟩ | ⟨he, hr⟩
      · have hc : combine parse t node wj = ⟨node,
            ⟨some (.other ((node.vars parse).update (wj.vars parse).entries)),
              (wj.promptsDict parse).surveyPasswords.or (node.promptsDict parse).surveyPasswords⟩,
            .empty, .empty⟩ := by
          simp [combine, hw, hr, VarsRef.update, Prompts.update, wjVars_eq]
        rw [hc]
        exact ⟨by simp [combinedNode, hw, hv, he], by simp [VarsRef.read, offeredVars, hw],
          hpasswords node rfl, by simp [hw], by simp [hw]⟩
      · have hc : combine parse t node wj =
            ⟨{ node with extraData := .dict ((node.vars parse).update (wj.vars parse).entries) },
              ⟨some .extraData,
                (wj.promptsDict parse).surveyPasswords.or (node.promptsDict parse).surveyPasswords⟩,
              .empty, .empty⟩ := by
          simp [combine, hw, hr, VarsRef.update, VarsRef.read, Prompts.update, wjVars_eq, he]
        rw [hc]
        exact ⟨by simp [combinedNode, hw, hv, he], by simp [VarsRef.read, offeredVars, hw],
          hpasswords _ rfl, by simp [hw], by simp [hw]⟩
    | none =>
      have hr := promptsDict_no_vars parse node hv
      have hnone := nonempty_eq_none.mp hv
      have hvars (n : WorkflowJobNode V) :
          (((wj.promptsDict parse).extraVars.or none).map (VarsRef.read n)).getD .empty =
            offeredVars parse t node wj := by
        rw [offeredVars, if_pos hw, hnone, Dict.update_empty, Option.or_none, wjVars_eq]
      cases hp : nonempty? node.surveyPasswords with
      | some d =>
        obtain rfl := nonempty_eq_some hp
        have hc : combine parse t node wj =
            ⟨{ node with surveyPasswords := node.surveyPasswords.update wj.passwords.entries },
              ⟨(wj.promptsDict parse).extraVars.or none, some .surveyPasswords⟩,
              .empty, .empty⟩ := by
          simp [combine, hw, hr, promptsDict_passwords, hp, PasswordsRef.update, Prompts.update,
            wjPasswords_eq]
        rw [hc]
        exact ⟨by simp [combinedNode, hw, hv, hp], hvars _,
          by simp [PasswordsRef.read, offeredPasswords, hw, hv, hp], by simp [hw], by simp [hw]⟩
      | none =>
        have hc : combine parse t node wj =
            ⟨node, ⟨(wj.promptsDict parse).extraVars.or none,
              (wj.promptsDict parse).surveyPasswords.or none⟩, .empty, .empty⟩ := by
          simp [combine, hw, hr, promptsDict_passwords, hp, Prompts.update]
        rw [hc]
        refine ⟨by simp [combinedNode, hw, hv, hp], hvars _, ?_, by simp [hw], by simp [hw]⟩
        dsimp only
        rw [Option.or_none, wjPasswords_eq, offeredPasswords, if_pos hw, hv,
          nonempty_eq_none.mp hp, Dict.update_empty]

end Combine

end Forail.NodeJobs
