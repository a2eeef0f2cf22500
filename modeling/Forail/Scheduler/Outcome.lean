import Forail.Scheduler.Settled

/-! What a workflow computes. With a template at every node and a fixed outcome for every
job, the nodes that run are given by one rule on the stored graph, whatever the order of
ticks and completions: a finished workflow ran exactly the nodes of the rule and marked
all others. -/

namespace Forail.Scheduler

open Acyclicity

namespace WorkflowGraph

/-- A job with this outcome reaches the child along some edge. -/
def Matches (w : WorkflowGraph) (st : Status) (p n : NodeId) : Prop :=
  (st = .successful ∧ w.Edge .successNodes p n) ∨ (st = .failed ∧ w.Edge .failureNodes p n) ∨
    w.Edge .alwaysNodes p n

/-- The nodes that run when every job ends with the outcome of its node. -/
inductive Runs (w : WorkflowGraph) (converge : NodeId → Bool) (f : NodeId → Status) : NodeId → Prop
  | root {n : NodeId} : n ∈ w.nodes → (∀ p, ¬ w.Parent p n) → Runs w converge f n
  | any {p n : NodeId} : converge n = false → Runs w converge f p → w.Matches (f p) p n →
      Runs w converge f n
  | all {n : NodeId} : converge n = true → (∃ p, w.Parent p n) →
      (∀ p, w.Parent p n → Runs w converge f p) → (∀ p, w.Parent p n → w.Matches (f p) p n) →
      Runs w converge f n

theorem Matches.parent {w : WorkflowGraph} {st : Status} {p n : NodeId} (h : w.Matches st p n) :
    w.Parent p n := by
  rcases h with ⟨-, h⟩ | ⟨-, h⟩ | h
  · exact ⟨_, h⟩
  · exact ⟨_, h⟩
  · exact ⟨_, h⟩

theorem Runs.mem_nodes {w : WorkflowGraph} {converge : NodeId → Bool} {f : NodeId → Status}
    {n : NodeId} (h : w.Runs converge f n) : n ∈ w.nodes := by
  cases h with
  | root hn => exact hn
  | any _ _ hm =>
    obtain ⟨l, hl⟩ := hm.parent
    exact (w.edges_nodes l _ hl).2
  | all _ hp =>
    obtain ⟨p, l, hl⟩ := hp
    exact (w.edges_nodes l _ hl).2

theorem leads_iff_matches (w : WorkflowGraph) {st : Status} (hst : st = .successful ∨ st = .failed)
    {p n : NodeId} : w.initGraph.Leads (some st) p n ↔ w.Matches st p n := by
  rcases hst with rfl | rfl <;>
    simp [WorkflowDAG.Leads, pathLabels, Matches, w.initGraph_edge]

end WorkflowGraph

namespace WorkflowDAG

/-- A node of a run in which every job ends successful or failed; the parents' fates say
whether it is spared. -/
theorem spared_iff_of_solved {w : WorkflowGraph} {f : NodeId → Status} {objs : NodeStore}
    (hf : ∀ n, f n = .successful ∨ f n = .failed)
    (ht : ∀ n ∈ w.nodes, (objs n).unifiedJobTemplate ≠ none)
    (hs : ∀ n ∈ w.nodes, Solved w.initGraph objs n)
    (hst : ∀ n, (objs n).job ≠ none → (objs n).job = some (f n)) {n : NodeId}
    (hroot : n ∉ w.initGraph.getRootNodes) :
    Spared w.initGraph objs n ↔
      if (objs n).allParentsMustConverge then
        ∀ p, w.Parent p n → (objs p).job ≠ none ∧ w.Matches (f p) p n
      else ∃ p, (objs p).job ≠ none ∧ w.Matches (f p) p n := by
  have hg := w.initGraph_wellFormed
  have hmem : ∀ p, w.Parent p n → p ∈ w.nodes := fun p ⟨l, hl⟩ => (w.edges_nodes l _ hl).1
  have hjob : ∀ p, w.Parent p n → ((objs p).doNotRun = true ↔ (objs p).job = none) := fun p hp => by
    have h := hs p (hmem p hp)
    rw [h.dnr, ← not_iff_not, not_not, ← ne_eq, h.job]
    exact ⟨fun hsp => ⟨hsp, ht p (hmem p hp)⟩, fun hsp => hsp.1⟩
  have hlive : ∀ p, w.Parent p n → (objs p).job ≠ none → (objs p).doNotRun = false := fun p hp hj => by
    rw [← Bool.not_eq_true, hjob p hp]
    exact hj
  have hfollows : ∀ p, w.Parent p n → (objs p).job ≠ none →
      (w.initGraph.Follows objs p n ↔ w.Matches (f p) p n) := fun p hp hj => by
    rw [← w.leads_iff_matches (hf p), ← hst p hj]
    exact ⟨fun h => h.leads, fun h => ⟨hlive p hp hj, .inl (Option.isSome_iff_ne_none.mpr hj), h⟩⟩
  have hfin : ∀ p, (objs p).job ≠ none → (objs p).finished = true := fun p hj => by
    rw [WorkflowNode.finished, hst p hj]
    rcases hf p with h | h <;> rw [h] <;> rfl
  rw [Spared, or_iff_right hroot, ← Bool.not_eq_true]
  cases hc : (objs n).allParentsMustConverge with
  | false =>
    rw [dnrCondition_any hg hc, w.initGraph_parent]
    simp only [Bool.false_eq_true, if_false]
    constructor
    · intro h
      push Not at h
      obtain ⟨p, hp, hd, hpf⟩ := h
      have hj : (objs p).job ≠ none := fun hj => hd ((hjob p hp).mpr hj)
      exact ⟨p, hj, (hfollows p hp hj).mp (hpf (hfin p hj))⟩
    · rintro ⟨p, hj, hm⟩ h
      rcases h p hm.parent with hd | ⟨-, hnf⟩
      · exact hj ((hjob p hm.parent).mp hd)
      · exact hnf ((hfollows p hm.parent hj).mpr hm)
  | true =>
    rw [dnrCondition_all hg hc, w.initGraph_parent]
    simp only [if_true]
    constructor
    · intro h p hp
      push Not at h
      have hj : (objs p).job ≠ none := fun hj => h.1 p hp ((hjob p hp).mpr hj)
      exact ⟨hj, (w.leads_iff_matches (hf p)).mp (h.2 p hp (f p) (hst p hj) (hf p))⟩
    · rintro h (⟨p, hp, hd⟩ | hne)
      · exact (h p hp).1 ((hjob p hp).mp hd)
      · refine hne fun p hp st hst' _ => ?_
        have hfp : f p = st := by
          rw [hst p (h p hp).1] at hst'
          exact Option.some.inj hst'
        rw [← hfp, w.leads_iff_matches (hf p)]
        exact (h p hp).2

/-- The rule unfolded once: a root runs, any other node as its convergence flag says. -/
theorem runs_iff {w : WorkflowGraph} {converge : NodeId → Bool} {f : NodeId → Status} {n : NodeId}
    (hroot : n ∉ w.initGraph.getRootNodes) (hn : n ∈ w.nodes) : w.Runs converge f n ↔
      if converge n then ∀ p, w.Parent p n → w.Runs converge f p ∧ w.Matches (f p) p n
      else ∃ p, w.Runs converge f p ∧ w.Matches (f p) p n := by
  have hparent : ∃ p, w.Parent p n := by
    by_contra h
    push Not at h
    refine hroot (w.initGraph_wellFormed.mem_getRootNodes.mpr ⟨w.mem_initGraph_nodes.mpr hn, ?_⟩)
    rw [w.initGraph_parent]
    exact h
  constructor
  · intro h
    cases h with
    | root _ hp => exact absurd hparent (not_exists.mpr hp)
    | @any p _ hc hr hm =>
      rw [if_neg (by simp [hc])]
      exact ⟨p, hr, hm⟩
    | all hc _ hr hm =>
      rw [if_pos hc]
      exact fun p hp => ⟨hr p hp, hm p hp⟩
  · intro h
    split_ifs at h with hc
    · exact .all hc hparent (fun p hp => (h p hp).1) fun p hp => (h p hp).2
    · obtain ⟨p, hr, hm⟩ := h
      exact .any (by simpa using hc) hr hm

/-- Every finished run ran exactly the nodes of the rule and marked the others, and in no
run is a node started twice, or both started and marked. -/
theorem outcome_of_done {w : WorkflowGraph} (hac : Acyclic w.Parent) {f : NodeId → Status}
    (hf : ∀ n, f n = .successful ∨ f n = .failed) {start : NodeStore} (hu : Undecided start)
    (ht : ∀ n ∈ w.nodes, (start n).unifiedJobTemplate ≠ none) {s : WorkflowJob}
    (hs : (runs w.initGraph (outcome f) start).Reachable s) :
    (w.initGraph.isWorkflowDone s.objs = true →
      (∀ n, n ∈ s.spawned ↔ w.Runs (fun n => (start n).allParentsMustConverge) f n) ∧
      (∀ n, (s.objs n).job ≠ none ↔ w.Runs (fun n => (start n).allParentsMustConverge) f n) ∧
      ∀ n ∈ w.nodes, ¬ w.Runs (fun n => (start n).allParentsMustConverge) f n →
        (s.objs n).doNotRun = true) ∧
    s.spawned.Nodup ∧ (∀ n, n ∈ s.spawned ↔ (s.objs n).job ≠ none) ∧
    ∀ n, ¬ ((s.objs n).job ≠ none ∧ (s.objs n).doNotRun = true) := by
  have hg := w.initGraph_wellFormed
  have hac' : Acyclic w.initGraph.Parent := w.initGraph_parent ▸ hac
  have hinv := runInv hg hac' hu hs
  refine ⟨fun hdone => ?_, hinv.nodup, hinv.mem_spawned,
    fun n h => h.1 (hinv.consistent.dnr_job n h.2)⟩
  have ht' : ∀ n ∈ w.nodes, (s.objs n).unifiedJobTemplate ≠ none := fun n hn => by
    rw [hinv.advances.template]
    exact ht n hn
  have hguard := guarded_of_missing_roots hg hac' hu
    (fun n hn hnone => absurd hnone (ht n (w.mem_initGraph_nodes.mp hn))) hs
  have hdecided : ∀ n ∈ w.nodes, (s.objs n).doNotRun = true ∨ (s.objs n).job ≠ none := fun n hn => by
    rcases isWorkflowDone_iff.mp hdone n (w.mem_initGraph_nodes.mpr hn) with ⟨hd, -⟩ | hfin
    · exact .inl hd
    · refine .inr fun hj => ht' n hn ?_
      simpa [WorkflowNode.finished, hj] using hfin
  -- with a template everywhere a done store needs no further marks
  have hmark : ∀ n ∈ w.initGraph.nodes,
      (s.objs n).doNotRun = true ↔ MarkedIn w.initGraph s.objs n := fun n hn => by
    constructor
    · exact fun hd => ⟨hinv.consistent.dnr_job n hd, (hinv.consistent.dnr_nodes n hd).2,
        hinv.consistent.dnr_cond n hd⟩
    · rintro ⟨hj, -, -⟩
      exact (hdecided n (w.mem_initGraph_nodes.mp hn)).resolve_right (not_not.mpr hj)
  have hsolved : ∀ n ∈ w.nodes, Solved w.initGraph s.objs n := fun n hn =>
    solved_of_done hg hac' hu hguard hdone hmark (w.mem_initGraph_nodes.mpr hn)
  have hst : ∀ n, (s.objs n).job ≠ none → (s.objs n).job = some (f n) := fun n hj => by
    obtain ⟨st, hst⟩ := Option.ne_none_iff_exists'.mp hj
    have hn := w.mem_initGraph_nodes.mp (hinv.consistent.job_nodes n hj)
    rw [hst, job_outcome hg hac' hu hs hst ((hsolved n hn).ended st hst)]
  -- parents first, the started nodes are those of the rule
  have hruns : ∀ n, (s.objs n).job ≠ none ↔ w.Runs (fun n => (start n).allParentsMustConverge) f n := by
    intro n
    have hwf := hac.wellFounded w.nodes fun p c hpc => by
      obtain ⟨l, hl⟩ := hpc
      exact (w.edges_nodes l _ hl).1
    induction n using hwf.induction with | _ n ih => ?_
    by_cases hn : n ∈ w.nodes
    · rw [(hsolved n hn).job, and_iff_left (ht' n hn)]
      by_cases hroot : n ∈ w.initGraph.getRootNodes
      · refine iff_of_true (.inl hroot) (.root hn ?_)
        rw [← w.initGraph_parent]
        exact (hg.mem_getRootNodes.mp hroot).2
      · rw [spared_iff_of_solved hf ht' hsolved hst hroot, runs_iff hroot hn,
          hinv.advances.converge]
        split_ifs
        · exact forall₂_congr fun p hp => and_congr_left fun _ => ih p hp
        · exact exists_congr fun p => and_congr_left fun hm => ih p hm.parent
    · refine iff_of_false (fun hj => hn ?_) fun hr => hn hr.mem_nodes
      exact w.mem_initGraph_nodes.mp (hinv.consistent.job_nodes n hj)
  exact ⟨fun n => (hinv.mem_spawned n).trans (hruns n), hruns, fun n hn hnot =>
    (hdecided n hn).resolve_right fun hj => hnot ((hruns n).mp hj)⟩

/-! A root with a success and a failure branch. -/

def branch : WorkflowGraph where
  nodes := [1, 2, 3]
  edges
    | .successNodes => [(1, 2)]
    | .failureNodes => [(1, 3)]
    | .alwaysNodes => []
  nodes_nodup := WorkflowGraph.nodup_three
  edges_nodes := by intro l; cases l <;> decide

def branchStart : NodeStore := fun _ => ⟨false, none, some 0, false⟩

theorem branch_acyclic : Acyclic branch.Parent :=
  branch.acyclic_of_lt fun l => by cases l <;> decide

/-- The run in which both started jobs are successful. -/
theorem branch_outcome : ∃ s, (runs branch.initGraph (outcome fun _ => .successful)
      branchStart).Reachable s ∧ s.status = .successful ∧ s.spawned = [1, 2] ∧
    (∀ n, n ∈ s.spawned ↔ branch.Runs (fun _ => false) (fun _ => .successful) n) ∧
    ∀ n ∈ branch.nodes, ¬ branch.Runs (fun _ => false) (fun _ => .successful) n →
      (s.objs n).doNotRun = true := by
  have hrun : System.runAll (exec branch.initGraph) ⟨.running, "", branchStart, []⟩
      [.tick, .job 1 .successful, .tick, .job 2 .successful, .tick] = some _ := rfl
  have hreach : (runs branch.initGraph (outcome fun _ => .successful) branchStart).Reachable _ :=
    reachable_of_runAll (by simp [EventAllowed, outcome]) hrun
  have hspec := outcome_of_done branch_acyclic (fun _ => .inl rfl) (fun _ => ⟨rfl, rfl⟩)
    (fun _ _ => Option.some_ne_none 0) hreach
  obtain ⟨hspawned, -, hdnr⟩ := hspec.1 (by decide)
  exact ⟨_, hreach, rfl, rfl, hspawned, hdnr⟩

end WorkflowDAG

end Forail.Scheduler
