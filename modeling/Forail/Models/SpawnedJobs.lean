import Forail.Models.SpawnedVariables

/-! What a workflow node passes to its job and keeps itself. For a job template the variables come
out in the order of precedence and the node is left alone; for a nested workflow the variables of
the workflow job are stored in those of the node, the artifacts over both, and the password keys
of neither are passed on. -/

namespace Forail.NodeJobs

open SurveyVariables

variable {V : Type*} [BEq V]

section Spawn
variable (secrets : Secrets V) (parse : String → Dict String V) (t : SurveyTemplate V)
  (node : WorkflowJobNode V) (wj : WorkflowJob V) (parents : List (ParentNode V)) (job : ℕ)

/-- Each variable has the value of its first source (workflow job, artifacts, node), all password
keys are there, and the node keeps its variables and password keys. -/
structure SpawnedRight (kv : JobKwargs V) (saved : WorkflowJobNode V) : Prop where
  extraVars : ∀ k, (kv.extraVars.getD .empty).get? k =
    if k = noLog then none
    else ((wj.vars parse).get? k).or ((artifact parents k).or ((node.vars parse).get? k))
  surveyPasswords : ∀ k, k ∈ node.surveyPasswords.keys ∨ k ∈ wj.passwords.keys →
    k ∈ (kv.surveyPasswords.getD .empty).keys
  kept : saved = { node with ancestorArtifacts := saved.ancestorArtifacts, job := some job }

/-- The variables that the template accepts of those offered to it. -/
def accepted : Dict String V :=
  (acceptOrIgnoreVariables secrets t (offeredVars parse t node wj)
    (offeredPasswords parse t node wj)).accepted

/-- The conditions on the sources. For a job template the first three say that no source but the
artifacts has `_ansible_no_log`, that the template accepts the variables that only the node has,
and that the password keys of the node are those of the workflow job or hidden artifacts. For a
nested workflow all offered variables are accepted, artifacts do not change variables of the
workflow job, all password keys are hidden artifacts, and what is stored in the dictionaries of
the node is there already. -/
structure Clear : Prop where
  unmarked : (accepted secrets parse t node wj).get? noLog = none ∧
    (t.isWorkflow = false → (wj.vars parse).get? noLog = none)
  accepted : ∀ k ≠ noLog, artifact parents k = none →
    (t.isWorkflow = false → (wj.vars parse).get? k = none) →
      (accepted secrets parse t node wj).get? k = (offeredVars parse t node wj).get? k
  unshadowed : t.isWorkflow = true → ∀ k ≠ noLog, ∀ v a, (wj.vars parse).get? k = some v →
    artifact parents k = some a → a = v
  passwords : ∀ k, k ∈ node.surveyPasswords.keys ∨ k ∈ wj.passwords.keys →
    (t.isWorkflow = false ∧ k ∈ wj.passwords.keys) ∨
      (k ≠ noLog ∧ (artifact parents k).isSome = true ∧ (artifact parents noLog).isSome = true)
  vars_kept : t.isWorkflow = true → ∀ d, node.extraData = .dict d → nonempty? d ≠ none →
    Within (wj.vars parse) d
  passwords_kept : t.isWorkflow = true → nonempty? (node.vars parse) = none →
    nonempty? node.surveyPasswords ≠ none → Within wj.passwords node.surveyPasswords

/-! ### What is passed on -/

theorem spawn_extraVars (k : String) :
    (((spawn secrets parse (.survey t) node wj parents job).1.extraVars).getD .empty).get? k =
      ((if t.isWorkflow then .empty else wj.vars parse).get? k).or
        ((if k = noLog then none else artifact parents k).or
          ((accepted secrets parse t node wj).get? k)) := by
  have hspec := combine_spec parse node wj t
  have hkv : (spawn secrets parse (.survey t) node wj parents job).1.extraVars = nonempty?
      (((accepted secrets parse t node wj).update ((ancestorArtifacts parents).erase noLog).entries).update
        (if t.isWorkflow then .empty else wj.vars parse).entries) := by
    rw [accepted, ← hspec.vars, ← hspec.passwords, ← hspec.specialVars]
    simp only [spawn, getJobKwargs, acceptedVars, getD_nonempty]
  rw [hkv, getD_nonempty, Dict.get?_update, Dict.get?_update, Dict.get?_erase,
    get?_ancestorArtifacts]

omit [BEq V] in
theorem mem_passwordDict (aa : Dict String V) (special : Dict String String) (k : String) :
    k ∈ (passwordDict aa special).keys ↔
      (k ≠ noLog ∧ k ∈ aa.keys ∧ noLog ∈ aa.keys) ∨ k ∈ special.keys := by
  have hempty : k ∉ (Dict.empty : Dict String String).keys := List.not_mem_nil
  rw [passwordDict, Dict.mem_keys_update, Dict.mem_keys_update]
  refine or_congr ?_ Iff.rfl
  split_ifs with h
  · simp [h, hempty, and_comm]
  · simp [h, hempty]

omit [BEq V] in
theorem mem_ancestorArtifacts (k : String) :
    k ∈ (ancestorArtifacts parents).keys ↔ (artifact parents k).isSome = true := by
  rw [Dict.mem_keys_iff, get?_ancestorArtifacts]

theorem spawn_surveyPasswords (k : String) :
    k ∈ (((spawn secrets parse (.survey t) node wj parents job).1.surveyPasswords).getD .empty).keys ↔
      (k ≠ noLog ∧ (artifact parents k).isSome = true ∧ (artifact parents noLog).isSome = true) ∨
        (t.isWorkflow = false ∧ k ∈ wj.passwords.keys) := by
  have hkv : (spawn secrets parse (.survey t) node wj parents job).1.surveyPasswords =
      nonempty? (passwordDict (ancestorArtifacts parents)
        (if t.isWorkflow then .empty else wj.passwords)) := by
    rw [← (combine_spec parse node wj t).specialPasswords]
    rfl
  rw [hkv, getD_nonempty, mem_passwordDict, mem_ancestorArtifacts, mem_ancestorArtifacts]
  refine or_congr_right ?_
  cases t.isWorkflow <;> simp [Dict.keys, Dict.empty]

theorem spawn_saved : (spawn secrets parse (.survey t) node wj parents job).2 =
    { combinedNode parse t node wj with
      ancestorArtifacts := (spawn secrets parse (.survey t) node wj parents job).2.ancestorArtifacts
      job := some job } := by
  rw [← (combine_spec parse node wj t).node_eq]
  simp only [spawn, getJobKwargs]
  split_ifs <;> rfl

omit [BEq V] in
theorem get?_offeredVars (k : String) : (offeredVars parse t node wj).get? k =
    ((if t.isWorkflow then wj.vars parse else .empty).get? k).or ((node.vars parse).get? k) := by
  unfold offeredVars
  cases t.isWorkflow with
  | false => rfl
  | true => exact Dict.get?_update _ _ k

/-! ### What the node keeps -/

omit [BEq V] in
theorem combinedNode_vars : (combinedNode parse t node wj).extraData = node.extraData ↔
    (t.isWorkflow = true → ∀ d, node.extraData = .dict d → nonempty? d ≠ none →
      Within (wj.vars parse) d) := by
  unfold combinedNode
  cases t.isWorkflow with
  | false => simp
  | true =>
    cases he : node.extraData with
    | text s =>
      cases nonempty? (node.vars parse) <;> cases nonempty? node.surveyPasswords <;> simp [he]
    | dict d =>
      have hvars : node.vars parse = d := by rw [WorkflowJobNode.vars, he, ExtraData.vars]
      rw [hvars]
      cases hd : nonempty? d with
      | none => cases nonempty? node.surveyPasswords <;> simp [he, hd]
      | some e => simp [hd, Dict.update_eq_self_iff, Within]

omit [BEq V] in
theorem combinedNode_passwords :
    (combinedNode parse t node wj).surveyPasswords = node.surveyPasswords ↔
      (t.isWorkflow = true → nonempty? (node.vars parse) = none →
        nonempty? node.surveyPasswords ≠ none → Within wj.passwords node.surveyPasswords) := by
  unfold combinedNode
  cases t.isWorkflow with
  | false => simp
  | true =>
    cases nonempty? (node.vars parse) with
    | some e => cases node.extraData <;> simp
    | none =>
      cases hp : nonempty? node.surveyPasswords with
      | none => simp
      | some e =>
        obtain rfl := nonempty_eq_some hp
        simp [Dict.update_eq_self_iff, Within]

omit [BEq V] in
theorem kept_iff {saved c : WorkflowJobNode V}
    (h : saved = { c with ancestorArtifacts := saved.ancestorArtifacts, job := some job }) :
    saved = { node with ancestorArtifacts := saved.ancestorArtifacts, job := some job } ↔
      c.extraData = node.extraData ∧ c.surveyPasswords = node.surveyPasswords := by
  obtain ⟨extraData, surveyPasswords, aa, j⟩ := saved
  simp only [WorkflowJobNode.mk.injEq] at h ⊢
  obtain ⟨rfl, rfl, -, rfl⟩ := h
  simp

/-- A node passes on its variables in the order of precedence, with all password keys, and keeps
what it had, exactly under the conditions on its sources. -/
theorem spawnedRight_iff :
    SpawnedRight parse node wj parents job (spawn secrets parse (.survey t) node wj parents job).1
      (spawn secrets parse (.survey t) node wj parents job).2 ↔
    Clear secrets parse t node wj parents := by
  have hkept := kept_iff node job (spawn_saved secrets parse t node wj parents job)
  rw [combinedNode_vars, combinedNode_passwords] at hkept
  constructor
  · intro h
    refine ⟨?_, fun k hk ha hw => ?_, fun hw k hk v a hv ha => ?_, fun k hk => ?_,
      (hkept.mp h.kept).1, (hkept.mp h.kept).2⟩
    · have hlog := h.extraVars noLog
      rw [spawn_extraVars, if_pos rfl, if_pos rfl, Option.or_eq_none_iff, Option.none_or] at hlog
      refine ⟨hlog.2, fun hw => ?_⟩
      simpa [hw] using hlog.1
    · have hvar := h.extraVars k
      rw [spawn_extraVars, if_neg hk, if_neg hk, ha, Option.none_or, Option.none_or] at hvar
      rw [get?_offeredVars]
      cases hn : t.isWorkflow with
      | false => simpa [hn, hw hn] using hvar
      | true => simpa [hn] using hvar
    · have hvar := h.extraVars k
      rw [spawn_extraVars, if_neg hk, if_neg hk, ha, hv] at hvar
      simpa [hw] using hvar
    · exact ((spawn_surveyPasswords secrets parse t node wj parents job k).mp
        (h.surveyPasswords k hk)).symm
  · intro h
    refine ⟨fun k => ?_, fun k hk => ?_, hkept.mpr ⟨h.vars_kept, h.passwords_kept⟩⟩
    · rw [spawn_extraVars]
      by_cases hk : k = noLog
      · subst hk
        rw [if_pos rfl, if_pos rfl, Option.none_or, h.unmarked.1, Option.or_none]
        cases hn : t.isWorkflow with
        | false => simpa using h.unmarked.2 hn
        | true => rfl
      · rw [if_neg hk, if_neg hk]
        cases ha : artifact parents k with
        | none =>
          rw [Option.none_or, Option.none_or]
          cases hn : t.isWorkflow with
          | false =>
            cases hw : (wj.vars parse).get? k with
            | some v => simp [hw]
            | none =>
              have hacc := h.accepted k hk ha fun _ => hw
              rw [get?_offeredVars] at hacc
              simpa [hn, hw] using hacc
          | true =>
            have hacc := h.accepted k hk ha fun hf => absurd (hn.symm.trans hf) (by simp)
            rw [get?_offeredVars] at hacc
            simpa [hn] using hacc
        | some a =>
          cases hw : (wj.vars parse).get? k with
          | none => cases hn : t.isWorkflow <;> simp [hw]
          | some v =>
            cases hn : t.isWorkflow with
            | false => simp [hw]
            | true => simp [h.unshadowed hn k hk v a hw ha]
    · exact (spawn_surveyPasswords secrets parse t node wj parents job k).mpr
        (h.passwords k hk).symm

end Spawn

/-! ### A nested workflow -/

/-- A workflow job template that accepts all variables. -/
def openWorkflow : SurveyTemplate ℕ := ⟨true, false, [], true, .empty⟩

def plain : Secrets ℕ := ⟨fun _ => false, id⟩

/-- A node with the variable `a` in a workflow job with the variable `b`. -/
def nestedNode : WorkflowJobNode ℕ := ⟨.dict (.ofList [("a", 1)]), .empty, .empty, none⟩

def parentJob : WorkflowJob ℕ := ⟨⟨.text "b: 2", .empty⟩, none, none, 1⟩

def parseOne (s : String) : Dict String ℕ := if s = "b: 2" then .ofList [("b", 2)] else .empty

/-- The save of the node stores the variable of the workflow job in it. -/
theorem nestedNode_changed : ¬ SpawnedRight parseOne nestedNode parentJob [] 9
    (spawn plain parseOne (.survey openWorkflow) nestedNode parentJob [] 9).1
    (spawn plain parseOne (.survey openWorkflow) nestedNode parentJob [] 9).2 := by
  intro h
  have hkept := congrArg (fun n => (n.extraData.vars parseOne).get? "b") h.kept
  exact absurd hkept (by decide)

end Forail.NodeJobs
