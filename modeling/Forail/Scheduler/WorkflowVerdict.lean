import Forail.Scheduler.WorkflowInvariant

/-! The verdict over a finished workflow. A node fails the workflow if it has no error handling path
and its job ended badly or it never got one for lack of a template. The verdict looks at the template
before it looks at the job, and at the job of a node that is marked do-not-run. -/

namespace Forail.Scheduler

namespace WorkflowGraph

/-- A child is reached when the node fails. -/
def Handled (w : WorkflowGraph) (n : NodeId) : Prop :=
  ∃ c, w.Edge .failureNodes n c ∨ w.Edge .alwaysNodes n c

end WorkflowGraph

namespace WorkflowNode

/-- The job ended in failed, error or canceled. -/
def EndedBadly (o : WorkflowNode) : Prop :=
  o.job = some .failed ∨ o.job = some .error ∨ o.job = some .canceled

/-- The node has failed: its job ended badly, or there was no template to create one. -/
def Failed (o : WorkflowNode) : Prop :=
  o.doNotRun = false ∧ (o.EndedBadly ∨ o.job = none ∧ o.unifiedJobTemplate = none)

/-- What the verdict takes for failed: a job that is successful and whose template has been deleted
since, and a job of a node that shall not run. -/
def Misjudged (o : WorkflowNode) : Prop :=
  o.doNotRun = false ∧ o.job = some .successful ∧ o.unifiedJobTemplate = none ∨
    o.doNotRun = true ∧ o.EndedBadly

/-- The test of `has_workflow_failed` for the failed nodes. -/
def takenForFailed (o : WorkflowNode) : Bool :=
  (!o.doNotRun && o.unifiedJobTemplate.isNone) ||
    (match o.job with
      | some st => st ∈ [Status.failed, .canceled, .error]
      | none => false)

theorem endedBadly_iff (o : WorkflowNode) : o.EndedBadly ↔
    (match o.job with
      | some st => decide (st ∈ [Status.failed, .canceled, .error])
      | none => false) = true := by
  unfold EndedBadly
  cases o.job with
  | none => simp
  | some st => cases st <;> simp

/-- In a finished workflow the failed and the misjudged nodes are taken for failed, and no other. -/
theorem takenForFailed_iff {o : WorkflowNode}
    (hdone : o.doNotRun = true ∧ o.job = none ∨ o.finished = true) :
    o.takenForFailed = true ↔ o.Failed ∨ o.Misjudged := by
  rw [takenForFailed, Bool.or_eq_true, ← o.endedBadly_iff]
  cases hd : o.doNotRun with
  | true =>
    simp [Failed, Misjudged, hd]
  | false =>
    have hend : o.job = none ∧ o.unifiedJobTemplate = none ∨ o.EndedBadly ∨
        o.job = some .successful := by
      rcases hdone with ⟨hd', -⟩ | hfin
      · rw [hd] at hd'
        cases hd'
      · unfold EndedBadly
        unfold finished at hfin
        cases hj : o.job with
        | none =>
          rw [hj] at hfin
          exact .inl ⟨rfl, by simpa using hfin⟩
        | some st =>
          rw [hj] at hfin
          cases st <;> simp_all [Status.terminal]
    have hsuccess : o.job = some .successful → ¬ o.EndedBadly := by
      intro hj
      simp [EndedBadly, hj]
    simp only [Failed, Misjudged, hd, Bool.not_false, Bool.true_and, Option.isNone_iff_eq_none,
      true_and, Bool.false_eq_true, false_and, or_false]
    constructor
    · rintro (htemplate | hbad)
      · rcases hend with hnone | hbad | hj
        · exact .inl (.inr hnone)
        · exact .inl (.inl hbad)
        · exact .inr ⟨hj, htemplate⟩
      · exact .inl (.inl hbad)
    · rintro ((hbad | ⟨-, htemplate⟩) | ⟨-, htemplate⟩)
      · exact .inr hbad
      · exact .inl htemplate
      · exact .inl htemplate

end WorkflowNode

namespace WorkflowDAG

variable (w : WorkflowGraph) (objs : NodeStore)

/-- The workflow has failed: a node without an error handling path has. -/
def Fails : Prop := ∃ n ∈ w.nodes, (objs n).Failed ∧ ¬ w.Handled n

/-- Every misjudged node has an error handling path. -/
def MisjudgedHandled : Prop := ∀ n ∈ w.nodes, (objs n).Misjudged → w.Handled n

theorem noPath_iff (n : NodeId) :
    (w.initGraph.getChildren n (some .failureNodes)).length +
      (w.initGraph.getChildren n (some .alwaysNodes)).length = 0 ↔ ¬ w.Handled n := by
  have hchildren : ∀ l, (w.initGraph.getChildren n (some l)).length = 0 ↔ ∀ c, ¬ w.Edge l n c := by
    intro l
    rw [List.length_eq_zero_iff, List.eq_nil_iff_forall_not_mem]
    refine forall_congr' fun c => not_congr ?_
    rw [w.initGraph_wellFormed.mem_getChildren_some, w.initGraph_edge]
  rw [Nat.add_eq_zero_iff, hchildren, hchildren]
  constructor
  · rintro ⟨hfailure, halways⟩ ⟨c, hc | hc⟩
    · exact hfailure c hc
    · exact halways c hc
  · intro hpath
    exact ⟨fun c hc => hpath ⟨c, .inl hc⟩, fun c hc => hpath ⟨c, .inr hc⟩⟩

theorem hasWorkflowFailed_iff : (w.initGraph.hasWorkflowFailed objs).1 = true ↔
    ∃ n ∈ w.nodes, (objs n).takenForFailed = true ∧ ¬ w.Handled n := by
  have hmem : ∀ n, n ∈ w.initGraph.failedWithoutPath objs ↔
      n ∈ w.nodes ∧ (objs n).takenForFailed = true ∧ ¬ w.Handled n := by
    intro n
    rw [failedWithoutPath, List.mem_filter, List.mem_filter, decide_eq_true_iff, noPath_iff,
      w.mem_initGraph_nodes, and_assoc]
    rfl
  unfold hasWorkflowFailed
  cases hfailed : w.initGraph.failedWithoutPath objs with
  | nil =>
    simp only [List.isEmpty_nil, if_true]
    refine iff_of_false Bool.false_ne_true ?_
    rintro ⟨n, hn⟩
    have hnil := (hmem n).mpr hn
    rw [hfailed] at hnil
    cases hnil
  | cons n ns =>
    simp only [List.isEmpty_cons, Bool.false_eq_true, if_false, true_iff]
    exact ⟨n, (hmem n).mp (hfailed ▸ List.mem_cons_self)⟩

/-- The verdict is right if and only if each misjudged node has an error handling path, or the workflow
has failed all the same. -/
theorem verdict_right_iff (hdone : w.initGraph.isWorkflowDone objs = true) :
    ((w.initGraph.hasWorkflowFailed objs).1 = true ↔ Fails w objs) ↔
      MisjudgedHandled w objs ∨ Fails w objs := by
  have hnode : ∀ n ∈ w.nodes,
      (objs n).takenForFailed = true ↔ (objs n).Failed ∨ (objs n).Misjudged := fun n hn =>
    WorkflowNode.takenForFailed_iff (isWorkflowDone_iff.mp hdone n (w.mem_initGraph_nodes.mpr hn))
  have hfails : Fails w objs → (w.initGraph.hasWorkflowFailed objs).1 = true := by
    rintro ⟨n, hn, hfailed, hpath⟩
    exact (hasWorkflowFailed_iff w objs).mpr ⟨n, hn, (hnode n hn).mpr (.inl hfailed), hpath⟩
  constructor
  · intro hright
    by_cases hfail : Fails w objs
    · exact .inr hfail
    · refine .inl fun n hn hmis => by_contra fun hpath => hfail (hright.mp ?_)
      exact (hasWorkflowFailed_iff w objs).mpr ⟨n, hn, (hnode n hn).mpr (.inr hmis), hpath⟩
  · rintro (hhandled | hfail)
    · refine ⟨fun hverdict => ?_, hfails⟩
      obtain ⟨n, hn, htaken, hpath⟩ := (hasWorkflowFailed_iff w objs).mp hverdict
      rcases (hnode n hn).mp htaken with hfailed | hmis
      · exact ⟨n, hn, hfailed, hpath⟩
      · exact absurd (hhandled n hn hmis) hpath
    · exact iff_of_true (hfails hfail) hfail

/-! A job failed and is handled by a second one; the template of the second is deleted after its job
has ended. -/

def handledOnce : WorkflowGraph where
  nodes := [1, 2]
  edges
    | .successNodes => []
    | .failureNodes => [(1, 2)]
    | .alwaysNodes => []
  nodes_nodup := WorkflowGraph.nodup_two
  edges_nodes := by intro l; cases l <;> decide

def handledRun : NodeStore := fun n =>
  if n = 1 then ⟨false, some .failed, some 10, false⟩ else ⟨false, some .successful, some 11, false⟩

theorem handledRun_right : (handledOnce.initGraph.hasWorkflowFailed handledRun).1 = true ↔
    Fails handledOnce handledRun := by
  refine (verdict_right_iff handledOnce handledRun (by decide)).mpr (.inl fun n hn hmis => ?_)
  have hnodes : n = 1 ∨ n = 2 := by simpa [handledOnce] using hn
  rcases hnodes with rfl | rfl <;>
    simp [WorkflowNode.Misjudged, handledRun] at hmis

def templateDeleted : NodeStore := fun n =>
  if n = 1 then ⟨false, some .failed, some 10, false⟩ else ⟨false, some .successful, none, false⟩

/-- The workflow is marked failed because of a job that succeeded. -/
theorem successful_job_fails : handledOnce.initGraph.isWorkflowDone templateDeleted = true ∧
    (handledOnce.initGraph.hasWorkflowFailed templateDeleted).1 = true ∧
    ¬ Fails handledOnce templateDeleted := by
  refine ⟨by decide, by decide, ?_⟩
  rintro ⟨n, hn, hfailed, hpath⟩
  have hnodes : n = 1 ∨ n = 2 := by simpa [handledOnce] using hn
  rcases hnodes with rfl | rfl
  · exact hpath ⟨2, .inl List.mem_cons_self⟩
  · simp [WorkflowNode.Failed, WorkflowNode.EndedBadly, templateDeleted] at hfailed

end WorkflowDAG

end Forail.Scheduler
