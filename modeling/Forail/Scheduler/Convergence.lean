import Forail.Scheduler.WorkflowInvariant

/-! Safety of ALL-convergence nodes. A parent that was given up takes its ALL-convergence
children with it in the same marking pass, so a node returned by the search has no such
parent. Every parent with a template has ended, and a successful or failed one along a
matching edge; a parent without a template is passed by without a job. -/

namespace Forail.Scheduler.WorkflowDAG

open Acyclicity

/-- The children of a marked node that wait for all their parents are decided. -/
def MarksClosed (g : WorkflowDAG) (objs : NodeStore) : Prop :=
  ∀ p n, g.Parent p n → (objs n).allParentsMustConverge = true → (objs p).doNotRun = true →
    (objs n).doNotRun = true ∨ (objs n).job ≠ none

section Runs
variable {g : WorkflowDAG} (hg : g.WellFormed) (hac : Acyclic g.Parent)
variable {allowed : NodeId → Status → Prop} {start : NodeStore} {s : WorkflowJob}
include hg

theorem MarkedStore.marksClosed {objs m : NodeStore} (h : Consistent g objs)
    (hm : MarkedStore g objs m) : MarksClosed g m := by
  intro p n hp hc hd
  by_cases hj : (m n).job = none
  · refine .inl ((hm.marked_iff hg h hp.nodes.2).mpr ⟨hj, fun hr => ?_, ?_⟩)
    · exact (hg.mem_getRootNodes.mp hr).2 p hp
    · exact (dnrCondition_all hg hc).mpr (.inl ⟨p, hp, hd⟩)
  · exact .inr hj

include hac in
theorem marksClosed (hu : Undecided start) (h : (runs g allowed start).Reachable s) :
    MarksClosed g s.objs := by
  refine h.invariant (I := fun s => MarksClosed g s.objs) ?_ ?_
  · intro s hs p n _ _ hd
    rw [show s = _ from hs] at hd
    rw [(hu p).1] at hd
    cases hd
  · intro s e s' hr ih hstep p n hp hc hd
    have hinv := runInv hg hac hu hr
    cases e with
    | tick =>
      obtain ⟨m, hm, htc⟩ := tick_cases hg hac hstep.2
      have hclosed := hm.marksClosed hg hinv.consistent
      rcases htc with ⟨-, hobjs, -, -⟩ | ⟨r, -, -, -, hmem, -, -, ho⟩
      · rw [hobjs] at hc hd ⊢
        exact hclosed p n hp hc hd
      · have hadv : Advances m s'.objs := attach_advances (fun k hk => ((hmem k).mp hk).2) ho
        have hdnr : ∀ k, (s'.objs k).doNotRun = (m k).doNotRun := fun k => by
          rw [ho k]; split_ifs <;> rfl
        rw [hadv.converge] at hc
        rw [hdnr] at hd ⊢
        exact (hclosed p n hp hc hd).imp id (hadv.job n)
    | job k st =>
      obtain ⟨⟨old, hj, ht⟩, -, rfl⟩ := hstep
      have hadv : Advances s.objs (setJob s k st).objs := setJob_advances hj ht
      rw [hadv.converge] at hc
      rw [setJob_doNotRun] at hd ⊢
      exact (ih p n hp hc hd).imp id (hadv.job n)

end Runs

/-- The store of a state, or the one that the marking pass makes of it. -/
def Seen (g : WorkflowDAG) (s : WorkflowJob) (objs : NodeStore) : Prop :=
  objs = s.objs ∨ ∃ marked, g.markDnrNodes s.objs = some (objs, marked)

theorem Seen.marksClosed {g : WorkflowDAG} (hg : g.WellFormed) (hac : Acyclic g.Parent)
    {allowed : NodeId → Status → Prop} {start objs : NodeStore} {s : WorkflowJob}
    (hu : Undecided start) (h : (runs g allowed start).Reachable s) (ho : Seen g s objs) :
    MarksClosed g objs := by
  rcases ho with rfl | ⟨marked, hmark⟩
  · exact WorkflowDAG.marksClosed hg hac hu h
  · obtain ⟨m, -, hm, ⟨marked', hmark'⟩, -, -⟩ := tick_spec hg hac s
    have heq : objs = m := by
      rw [hmark] at hmark'
      exact (Prod.ext_iff.mp (Option.some.inj hmark')).1
    rw [heq]
    exact hm.marksClosed hg (runInv hg hac hu h).consistent

/-- An ALL-convergence node below the roots that the search returns: some parent leads to
it, no parent is given up, every parent with a template has ended, and a successful or
failed parent has a matching edge. -/
theorem all_convergence_parents {w : WorkflowGraph} (hac : Acyclic w.Parent) {start : NodeStore}
    (hu : Undecided start) {allowed : NodeId → Status → Prop} {s : WorkflowJob}
    (hs : (runs w.initGraph allowed start).Reachable s) {objs : NodeStore}
    (ho : Seen w.initGraph s objs) {r : List NodeId} (hr : w.initGraph.bfsNodesToRun objs = some r)
    {n : NodeId} (hn : n ∈ r) (hroot : n ∉ w.initGraph.getRootNodes)
    (hc : (objs n).allParentsMustConverge = true) :
    (∃ p, w.initGraph.Follows objs p n) ∧ ∀ p, w.Parent p n → (objs p).doNotRun = false ∧
      ((objs p).unifiedJobTemplate = none ∨ ∃ st, (objs p).job = some st ∧ st.terminal = true ∧
        (st = .successful ∨ st = .failed → w.initGraph.Leads (some st) p n)) := by
  have hg := w.initGraph_wellFormed
  have hclosed := ho.marksClosed hg (w.initGraph_parent ▸ hac) hu hs
  obtain ⟨r', hr', -, hmem⟩ := bfsNodesToRun_spec hg objs
  obtain rfl : r = r' := Option.some.inj (hr.symm.trans hr')
  obtain ⟨hreach, hready⟩ := (hmem n).mp hn
  obtain ⟨hd, hj, hpar⟩ := ready_fields hready
  have hmet : w.initGraph.allParentsMetConvergenceCriteria objs n = true := by
    simp only [ready, hc, Bool.and_eq_true, Bool.not_true, Bool.false_or] at hready
    exact hready.2
  rw [areRelevantParentsFinished_iff hg] at hpar
  rw [allParentsMetConvergenceCriteria_iff hg] at hmet
  constructor
  · cases hreach with
    | root hr => exact absurd hr hroot
    | step _ hf => exact ⟨_, hf⟩
  · intro p hp
    rw [← w.initGraph_parent] at hp
    have hlive : (objs p).doNotRun ≠ true := fun hdp => by
      rcases hclosed p n hp hc hdp with h | h
      · rw [hd] at h; cases h
      · exact h hj
    refine ⟨by simpa using hlive, ?_⟩
    rcases hpar p hp with h | h | ⟨st, hst, hterm⟩
    · exact absurd h hlive
    · exact .inl h
    · exact .inr ⟨st, hst, hterm, hmet p hp st hst⟩

/-! A root without a template, with an always edge to an ALL-convergence node. -/

def missingIntoAll : WorkflowGraph where
  nodes := [1, 2]
  edges
    | .alwaysNodes => [(1, 2)]
    | _ => []
  nodes_nodup := WorkflowGraph.nodup_two
  edges_nodes := by intro l; cases l <;> decide

def missingIntoAllStart : NodeStore := fun n => ⟨false, none, if n = 1 then none else some 0, n = 2⟩

theorem missingIntoAll_acyclic : Acyclic missingIntoAll.Parent :=
  missingIntoAll.acyclic_of_lt fun l => by cases l <;> decide

/-- The child runs although its only parent never had a job. -/
theorem missingIntoAll_runs : Acyclic missingIntoAll.Parent ∧ Undecided missingIntoAllStart ∧
    ¬ ∀ s, (runs missingIntoAll.initGraph anyStatus missingIntoAllStart).Reachable s →
      ∀ objs, Seen missingIntoAll.initGraph s objs →
      ∀ r, missingIntoAll.initGraph.bfsNodesToRun objs = some r →
      ∀ n ∈ r, n ∉ missingIntoAll.initGraph.getRootNodes →
      (objs n).allParentsMustConverge = true → ∀ p, missingIntoAll.Parent p n →
      ∃ st, (objs p).job = some st ∧ st.terminal = true ∧
        missingIntoAll.initGraph.Leads (some st) p n := by
  refine ⟨missingIntoAll_acyclic, fun _ => ⟨rfl, rfl⟩, fun h => ?_⟩
  obtain ⟨st, hst, -⟩ := h _ (.init rfl) missingIntoAllStart (.inl rfl) [2] (by decide) 2 (by decide)
    (by decide) (by decide) 1
    ⟨.alwaysNodes, by simp [WorkflowGraph.Edge, missingIntoAll]⟩
  cases hst

theorem missingIntoAll_parents : (∃ p, missingIntoAll.initGraph.Follows missingIntoAllStart p 2) ∧
    ∀ p, missingIntoAll.Parent p 2 → (missingIntoAllStart p).doNotRun = false ∧
      ((missingIntoAllStart p).unifiedJobTemplate = none ∨
        ∃ st, (missingIntoAllStart p).job = some st ∧ st.terminal = true ∧
          (st = .successful ∨ st = .failed → missingIntoAll.initGraph.Leads (some st) p 2)) :=
  all_convergence_parents missingIntoAll_acyclic (fun _ => ⟨rfl, rfl⟩)
    (show (runs missingIntoAll.initGraph anyStatus missingIntoAllStart).Reachable
      ⟨.running, "", missingIntoAllStart, []⟩ from .init rfl) (.inl rfl)
    (show missingIntoAll.initGraph.bfsNodesToRun missingIntoAllStart = some [2] by decide)
    (by decide) (by decide) (by decide)

end Forail.Scheduler.WorkflowDAG
