import Forail.Scheduler.DagWorkflow

/-! What the tests of the scheduler say about a node's parents, and the effect of one
marking pass. Every test looks only at the parents, and the pass meets parents before
children, so after the pass a node is marked exactly when it was marked before or
meets the condition in the final store. -/

namespace Forail.Scheduler

open Acyclicity

/-- The labels along which a node with this job state is followed; `none` is a node
without a job, which counts as failed. -/
def pathLabels : Option Status → List EdgeLabel
  | some .successful => [.successNodes, .alwaysNodes]
  | some .failed | some .error | some .canceled | none => [.failureNodes, .alwaysNodes]
  | some _ => []

/-- The job has ended, or there is no template to make one from. -/
def WorkflowNode.finished (obj : WorkflowNode) : Bool :=
  match obj.job with
  | some st => st.terminal
  | none => obj.unifiedJobTemplate.isNone

namespace WorkflowDAG

/-- Some edge from `p` to `n` matches the job state. -/
def Leads (g : WorkflowDAG) (job : Option Status) (p n : NodeId) : Prop :=
  ∃ l ∈ pathLabels job, g.Edge l p n

/-- The search goes on from `p` to `n`. -/
structure Follows (g : WorkflowDAG) (objs : NodeStore) (p n : NodeId) : Prop where
  live : (objs p).doNotRun = false
  decided : (objs p).job.isSome ∨ (objs p).unifiedJobTemplate = none
  leads : g.Leads (objs p).job p n

theorem Leads.parent {g : WorkflowDAG} {job : Option Status} {p n : NodeId} (h : g.Leads job p n) :
    g.Parent p n := by
  obtain ⟨l, -, hl⟩ := h
  exact ⟨l, hl⟩

theorem Follows.parent {g : WorkflowDAG} {objs : NodeStore} {p n : NodeId}
    (h : g.Follows objs p n) : g.Parent p n := h.leads.parent

/-- A job that is not over leads nowhere. -/
theorem Leads.terminal {g : WorkflowDAG} {st : Status} {p n : NodeId}
    (h : g.Leads (some st) p n) : st.terminal = true := by
  obtain ⟨l, hl, -⟩ := h
  cases st <;> first | rfl | simp [pathLabels] at hl

theorem Follows.finished {g : WorkflowDAG} {objs : NodeStore} {p n : NodeId}
    (h : g.Follows objs p n) : (objs p).finished = true := by
  unfold WorkflowNode.finished
  cases hj : (objs p).job with
  | none => simpa [hj] using h.decided
  | some st => exact (hj ▸ h.leads).terminal

section Tests
variable {g : WorkflowDAG} (hg : g.WellFormed)
include hg

theorem leads_failure {job : Option Status} (hj : pathLabels job = [.failureNodes, .alwaysNodes])
    {p n : NodeId} : g.Leads job p n ↔
      n ∈ g.getChildren p (some .failureNodes) ++ g.getChildren p (some .alwaysNodes) := by
  simp [Leads, hj, hg.mem_getChildren_some]

theorem leads_success {p n : NodeId} : g.Leads (some .successful) p n ↔
    n ∈ g.getChildren p (some .successNodes) ++ g.getChildren p (some .alwaysNodes) := by
  simp [Leads, pathLabels, hg.mem_getChildren_some]

theorem mem_childrenToVisit {objs : NodeStore} {p n : NodeId} :
    n ∈ g.childrenToVisit objs p ↔ g.Leads (objs p).job p n := by
  unfold childrenToVisit
  cases hj : (objs p).job with
  | none => exact (leads_failure hg rfl).symm
  | some st =>
    cases st with
    | successful => exact (leads_success hg).symm
    | failed | error | canceled => exact (leads_failure hg rfl).symm
    | new | pending | waiting | running => simp [Leads, pathLabels]

theorem areRelevantParentsFinished_iff {objs : NodeStore} {n : NodeId} :
    g.areRelevantParentsFinished objs n = true ↔ ∀ p, g.Parent p n →
      (objs p).doNotRun = true ∨ (objs p).unifiedJobTemplate = none ∨
        ∃ st, (objs p).job = some st ∧ st.terminal = true := by
  simp only [areRelevantParentsFinished, List.all_eq_true, hg.mem_getParents]
  refine forall₂_congr fun p _ => ?_
  cases hd : (objs p).doNotRun with
  | true => simp
  | false =>
    cases ht : (objs p).unifiedJobTemplate with
    | none => simp
    | some t =>
      cases hj : (objs p).job with
      | none => simp
      | some st => cases st <;> simp [Status.terminal]

theorem allParentsMetConvergenceCriteria_iff {objs : NodeStore} {n : NodeId} :
    g.allParentsMetConvergenceCriteria objs n = true ↔ ∀ p, g.Parent p n →
      ∀ st, (objs p).job = some st → st = .successful ∨ st = .failed → g.Leads (some st) p n := by
  simp only [allParentsMetConvergenceCriteria, List.all_eq_true, hg.mem_getParents]
  refine forall₂_congr fun p _ => ?_
  cases hj : (objs p).job with
  | none => simp
  | some st => cases st <;> simp [Leads, pathLabels, hg.mem_getParents_some]

/-- One parent in the two tests for an ANY-convergence node. -/
theorem decided_and_should_mark (objs : NodeStore) (p n : NodeId) :
    (areAllNodesDnrDecided objs [p] && g.shouldMarkNodeDnr objs n [p]) = true ↔
      (objs p).doNotRun = true ∨ ((objs p).finished = true ∧ ¬ g.Follows objs p n) := by
  have hfollows : (objs p).doNotRun = false →
      ((objs p).job.isSome ∨ (objs p).unifiedJobTemplate = none) →
      (g.Follows objs p n ↔ g.Leads (objs p).job p n) := fun hd hj =>
    ⟨fun h => h.leads, fun h => ⟨hd, hj, h⟩⟩
  simp only [areAllNodesDnrDecided, shouldMarkNodeDnr, List.all_cons, List.all_nil, Bool.and_true]
  cases hd : (objs p).doNotRun with
  | true => simp
  | false =>
    cases hj : (objs p).job with
    | none =>
      cases ht : (objs p).unifiedJobTemplate with
      | none =>
        rw [hfollows hd (.inr ht), hj, leads_failure hg rfl]
        simp [WorkflowNode.finished, hj, ht]
      | some t => simp [WorkflowNode.finished, hj, ht]
    | some st =>
      rw [hfollows hd (.inl (by rw [hj]; rfl)), hj]
      cases st with
      | successful =>
        rw [leads_success hg]
        simp [WorkflowNode.finished, hj, Status.terminal]
      | failed | error | canceled =>
        rw [leads_failure hg rfl]
        simp [WorkflowNode.finished, hj, Status.terminal]
      | new | pending | waiting | running => simp [WorkflowNode.finished, hj, Status.terminal]

/-- An ANY-convergence node is given up once no parent can lead to it any more. -/
theorem dnrCondition_any {objs : NodeStore} {n : NodeId}
    (hn : (objs n).allParentsMustConverge = false) :
    g.dnrCondition objs n = true ↔ ∀ p, g.Parent p n →
      (objs p).doNotRun = true ∨ ((objs p).finished = true ∧ ¬ g.Follows objs p n) := by
  have hsplit : g.dnrCondition objs n = (g.getParents n none).all fun p =>
      areAllNodesDnrDecided objs [p] && g.shouldMarkNodeDnr objs n [p] := by
    simp only [dnrCondition, hn, areAllNodesDnrDecided, shouldMarkNodeDnr, List.all_cons,
      List.all_nil, Bool.and_true, Bool.false_eq_true, if_false]
    rw [Bool.eq_iff_iff]
    simp only [Bool.and_eq_true, List.all_eq_true]
    exact ⟨fun h p hp => ⟨h.1 p hp, h.2 p hp⟩, fun h => ⟨fun p hp => (h p hp).1, fun p hp => (h p hp).2⟩⟩
  rw [hsplit, List.all_eq_true]
  refine forall_congr' fun p => ?_
  rw [hg.mem_getParents, decided_and_should_mark hg]

/-- An ALL-convergence node is given up once a parent is, or a successful or failed
parent has no matching edge to it. -/
theorem dnrCondition_all {objs : NodeStore} {n : NodeId}
    (hn : (objs n).allParentsMustConverge = true) :
    g.dnrCondition objs n = true ↔ (∃ p, g.Parent p n ∧ (objs p).doNotRun = true) ∨
      ¬ ∀ p, g.Parent p n → ∀ st, (objs p).job = some st → st = .successful ∨ st = .failed →
        g.Leads (some st) p n := by
  rw [← allParentsMetConvergenceCriteria_iff hg]
  simp [dnrCondition, hn, hg.mem_getParents]

/-- The condition looks only at the parents. -/
theorem dnrCondition_congr {objs objs' : NodeStore} {n : NodeId}
    (hn : (objs n).allParentsMustConverge = (objs' n).allParentsMustConverge)
    (hp : ∀ p, g.Parent p n → objs p = objs' p) :
    g.dnrCondition objs n = g.dnrCondition objs' n := by
  have hfollows : ∀ p, g.Parent p n → (g.Follows objs p n ↔ g.Follows objs' p n) := fun p h => by
    constructor
    · intro hf; exact ⟨hp p h ▸ hf.live, hp p h ▸ hf.decided, hp p h ▸ hf.leads⟩
    · intro hf; exact ⟨hp p h ▸ hf.live, hp p h ▸ hf.decided, hp p h ▸ hf.leads⟩
  rw [Bool.eq_iff_iff]
  cases hc : (objs n).allParentsMustConverge with
  | false =>
    rw [dnrCondition_any hg hc, dnrCondition_any hg (hn ▸ hc)]
    exact forall₂_congr fun p h => by rw [hfollows p h, hp p h]
  | true =>
    rw [dnrCondition_all hg hc, dnrCondition_all hg (hn ▸ hc)]
    refine or_congr (exists_congr fun p => and_congr_right fun h => by rw [hp p h])
      (not_congr (forall₂_congr fun p h => by rw [hp p h]))

end Tests

/-! ### One pass -/

/-- `objs'` differs from `objs` only by nodes that became do-not-run. -/
structure MarksOnly (objs objs' : NodeStore) : Prop where
  job : ∀ n, (objs' n).job = (objs n).job
  template : ∀ n, (objs' n).unifiedJobTemplate = (objs n).unifiedJobTemplate
  converge : ∀ n, (objs' n).allParentsMustConverge = (objs n).allParentsMustConverge
  dnr : ∀ n, (objs n).doNotRun = true → (objs' n).doNotRun = true

theorem MarksOnly.refl (objs : NodeStore) : MarksOnly objs objs :=
  ⟨fun _ => rfl, fun _ => rfl, fun _ => rfl, fun _ => id⟩

theorem MarksOnly.trans {o₁ o₂ o₃ : NodeStore} (h : MarksOnly o₁ o₂) (h' : MarksOnly o₂ o₃) :
    MarksOnly o₁ o₃ :=
  ⟨fun n => (h'.job n).trans (h.job n), fun n => (h'.template n).trans (h.template n),
    fun n => (h'.converge n).trans (h.converge n), fun n hn => h'.dnr n (h.dnr n hn)⟩

theorem setDoNotRun_marksOnly (objs : NodeStore) (n : NodeId) :
    MarksOnly objs (setDoNotRun objs n) := by
  refine ⟨fun m => ?_, fun m => ?_, fun m => ?_, fun m hm => ?_⟩ <;>
    by_cases h : m = n <;> simp_all [setDoNotRun, Function.update_of_ne]

theorem setDoNotRun_of_ne (objs : NodeStore) {n m : NodeId} (h : m ≠ n) :
    setDoNotRun objs n m = objs m := Function.update_of_ne h _ _

/-- The node becomes do-not-run in this pass: it has no job, is no root and meets the
condition in the store that the pass reaches. -/
def MarkedIn (g : WorkflowDAG) (objs : NodeStore) (n : NodeId) : Prop :=
  (objs n).job = none ∧ n ∉ g.getRootNodes ∧ g.dnrCondition objs n = true

/-- The store after a pass over the prefix `pre`. -/
structure PassedOver (g : WorkflowDAG) (objs : NodeStore) (pre : List NodeId)
    (objs' : NodeStore) : Prop where
  marks : MarksOnly objs objs'
  rest : ∀ n, n ∉ pre → objs' n = objs n
  marked : ∀ n ∈ pre, (objs' n).doNotRun = true ↔ (objs n).doNotRun = true ∨ MarkedIn g objs' n

theorem markDnrNode_fst (g : WorkflowDAG) (s : NodeStore × List NodeId) (n : NodeId) :
    (g.markDnrNode s n).1 = s.1 ∨ (g.markDnrNode s n).1 = setDoNotRun s.1 n := by
  unfold markDnrNode
  split_ifs <;> simp

/-- The next node of the pass sees all its parents finally decided. -/
theorem PassedOver.step {g : WorkflowDAG} (hg : g.WellFormed) {objs : NodeStore}
    {pre : List NodeId} {s : NodeStore × List NodeId} (h : PassedOver g objs pre s.1) {n : NodeId}
    (hn : n ∉ pre) (hself : ¬ g.Parent n n) (hpar : ∀ m ∈ pre, ¬ g.Parent n m) :
    PassedOver g objs (pre ++ [n]) (g.markDnrNode s n).1 := by
  have hne : ∀ m ∈ pre, m ≠ n := fun m hm he => hn (he ▸ hm)
  have hstore : ∀ m, m ≠ n → (g.markDnrNode s n).1 m = s.1 m := fun m hm => by
    rcases markDnrNode_fst g s n with h | h <;> rw [h]
    exact setDoNotRun_of_ne _ hm
  have hmarks : MarksOnly s.1 (g.markDnrNode s n).1 := by
    rcases markDnrNode_fst g s n with h | h <;> rw [h]
    · exact .refl _
    · exact setDoNotRun_marksOnly _ _
  have hcond : ∀ m, ¬ g.Parent n m →
      g.dnrCondition (g.markDnrNode s n).1 m = g.dnrCondition s.1 m := fun m hm =>
    dnrCondition_congr hg (hmarks.converge m)
      fun p hp => hstore p fun he => hm (he ▸ hp)
  refine ⟨h.marks.trans hmarks, fun m hm => ?_, fun m hm => ?_⟩
  · rw [List.mem_append, List.mem_singleton, not_or] at hm
    rw [hstore m hm.2, h.rest m hm.1]
  · rcases List.mem_append.mp hm with hm | hm
    · rw [hstore m (hne m hm), h.marked m hm, MarkedIn, MarkedIn, hstore m (hne m hm),
        hcond m (hpar m hm)]
    · rw [List.mem_singleton] at hm
      subst hm
      rw [MarkedIn, hcond m hself, hmarks.job]
      unfold markDnrNode
      rw [h.rest m hn]
      split_ifs with hc
      · simp only [Bool.and_eq_true, Bool.not_eq_true', Option.isNone_iff_eq_none,
          decide_eq_true_eq] at hc
        obtain ⟨⟨⟨hd, hj⟩, hr⟩, hc⟩ := hc
        simp [setDoNotRun, hd, hj, hr, hc]
      · rw [h.rest m hn]
        cases hd : (objs m).doNotRun with
        | true => simp
        | false =>
          refine iff_of_false (by simp) ?_
          rintro (h | ⟨hj, hr, hc'⟩)
          · cases h
          · exact hc (by simp [hd, hj, hr, hc'])

theorem PassedOver.fold {g : WorkflowDAG} (hg : g.WellFormed) (hac : Acyclic g.Parent)
    {objs : NodeStore} {pre post : List NodeId} {s : NodeStore × List NodeId}
    (hl : ChildrenLater g.allChildren (pre ++ post)) (h : PassedOver g objs pre s.1) :
    PassedOver g objs (pre ++ post) (post.foldl g.markDnrNode s).1 := by
  induction post generalizing pre s with
  | nil => simpa using h
  | cons n post ih =>
    have hnd := hl.nodup
    have hn : n ∉ pre := fun hm =>
      (List.nodup_append.mp hnd).2.2 n hm n List.mem_cons_self rfl
    have hpar : ∀ m ∈ pre, ¬ g.Parent n m := fun m hm hp => by
      -- a child in the prefix would have its parent before it
      obtain ⟨a, b, rfl⟩ := List.append_of_mem hm
      have hl' : ChildrenLater g.allChildren (a ++ m :: (b ++ n :: post)) := by simpa using hl
      have hbefore := hl'.parent_before a (by simp) (hg.mem_getChildren.mpr hp)
      exact hn (List.mem_append_left _ hbefore)
    have hstep := h.step hg hn (hac.irrefl n) hpar
    have hl' : ChildrenLater g.allChildren ((pre ++ [n]) ++ post) := by simpa using hl
    simpa using ih hl' hstep

/-- The marking pass on an acyclic graph: it ends, it only marks, and in the store it
reaches a node of the graph is marked exactly when it was before or meets the condition. -/
theorem markDnrNodes_spec {g : WorkflowDAG} (hg : g.WellFormed) (hac : Acyclic g.Parent)
    (objs : NodeStore) :
    ∃ objs' marked, g.markDnrNodes objs = some (objs', marked) ∧ MarksOnly objs objs' ∧
      (∀ n, n ∉ g.nodes → objs' n = objs n) ∧
      ∀ n ∈ g.nodes, (objs' n).doNotRun = true ↔ (objs n).doNotRun = true ∨ MarkedIn g objs' n := by
  obtain ⟨sorted, hs, hmem, hl⟩ := SimpleDAG.sortNodesTopological_spec hg hac
  have hpass : PassedOver g objs ([] ++ sorted) (sorted.foldl g.markDnrNode (objs, [])).1 :=
    PassedOver.fold hg hac (by simpa using hl)
      ⟨.refl objs, fun _ _ => rfl, fun n hn => absurd hn List.not_mem_nil⟩
  rw [List.nil_append] at hpass
  refine ⟨_, _, by rw [markDnrNodes, hs]; rfl, hpass.marks, fun n hn => ?_, fun n hn => ?_⟩
  · exact hpass.rest n fun h => hn ((hmem n).mp h)
  · exact hpass.marked n ((hmem n).mpr hn)

end WorkflowDAG

end Forail.Scheduler
