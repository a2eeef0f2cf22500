import Forail.Scheduler.MarkDnr

/-! One marking pass is enough, and its verdicts do not depend on the order of the
nodes. The verdict of a node is a function of the verdicts of its parents, so on an
acyclic graph there is exactly one store that every pass over that graph can reach. -/

namespace Forail.Scheduler

open Acyclicity

namespace WorkflowDAG

/-! ### The nodes returned -/

theorem markDnrNode_mem (g : WorkflowDAG) (s : NodeStore × List NodeId) (n m : NodeId) :
    m ∈ (g.markDnrNode s n).2 ↔ m ∈ s.2 ∨
      (((g.markDnrNode s n).1 m).doNotRun = true ∧ (s.1 m).doNotRun = false) := by
  unfold markDnrNode
  split_ifs with hc
  · have hd : (s.1 n).doNotRun = false := by simp_all
    by_cases hm : m = n
    · subst hm
      simp [setDoNotRun, hd]
    · simp [setDoNotRun_of_ne _ hm, hm]
  · simp

theorem markDnrNode_kept (g : WorkflowDAG) (s : NodeStore × List NodeId) (n : NodeId) {m : NodeId}
    (hm : (s.1 m).doNotRun = true) : ((g.markDnrNode s n).1 m).doNotRun = true := by
  rcases markDnrNode_fst g s n with h | h <;> rw [h]
  · exact hm
  · exact (setDoNotRun_marksOnly s.1 n).dnr m hm

theorem foldl_markDnrNode_kept (g : WorkflowDAG) (ns : List NodeId) (s : NodeStore × List NodeId)
    {m : NodeId} (hm : (s.1 m).doNotRun = true) :
    ((ns.foldl g.markDnrNode s).1 m).doNotRun = true := by
  induction ns generalizing s with
  | nil => exact hm
  | cons n ns ih => exact ih _ (markDnrNode_kept g s n hm)

/-- A pass returns the nodes that it marked. -/
theorem foldl_markDnrNode_mem (g : WorkflowDAG) (ns : List NodeId) (s : NodeStore × List NodeId)
    (m : NodeId) : m ∈ (ns.foldl g.markDnrNode s).2 ↔ m ∈ s.2 ∨
      (((ns.foldl g.markDnrNode s).1 m).doNotRun = true ∧ (s.1 m).doNotRun = false) := by
  induction ns generalizing s with
  | nil => simp
  | cons n ns ih =>
    rw [List.foldl_cons, ih, markDnrNode_mem]
    have hkept := markDnrNode_kept g s n (m := m)
    have hlast := foldl_markDnrNode_kept g ns (g.markDnrNode s n) (m := m)
    cases hs : (s.1 m).doNotRun with
    | true => simp [hkept hs]
    | false =>
      cases hd : ((g.markDnrNode s n).1 m).doNotRun with
      | true => simp [hlast hd]
      | false => simp

theorem markDnrNodes_mem {g : WorkflowDAG} {objs objs' : NodeStore} {marked : List NodeId}
    (h : g.markDnrNodes objs = some (objs', marked)) (m : NodeId) :
    m ∈ marked ↔ (objs' m).doNotRun = true ∧ (objs m).doNotRun = false := by
  obtain ⟨sorted, -, hs⟩ := Option.map_eq_some_iff.mp h
  have hmem := foldl_markDnrNode_mem g sorted (objs, []) m
  rw [hs] at hmem
  simpa using hmem

/-! ### A second pass -/

/-- Nothing is left to mark. -/
def Saturated (g : WorkflowDAG) (objs : NodeStore) (ns : List NodeId) : Prop :=
  ∀ n ∈ ns, MarkedIn g objs n → (objs n).doNotRun = true

theorem Saturated.markDnrNode {g : WorkflowDAG} {objs : NodeStore} {ns : List NodeId}
    (h : Saturated g objs ns) {n : NodeId} (hn : n ∈ ns) (marked : List NodeId) :
    g.markDnrNode (objs, marked) n = (objs, marked) := by
  unfold WorkflowDAG.markDnrNode
  rw [if_neg]
  intro hc
  simp only [Bool.and_eq_true, Bool.not_eq_true', Option.isNone_iff_eq_none,
    decide_eq_true_eq] at hc
  obtain ⟨⟨⟨hd, hj⟩, hr⟩, hcond⟩ := hc
  have hmarked := h n hn ⟨hj, hr, hcond⟩
  rw [hd] at hmarked
  cases hmarked

theorem Saturated.foldl {g : WorkflowDAG} {objs : NodeStore} {ns : List NodeId}
    (h : Saturated g objs ns) (marked : List NodeId) :
    ns.foldl g.markDnrNode (objs, marked) = (objs, marked) := by
  induction ns with
  | nil => rfl
  | cons n ns ih =>
    rw [List.foldl_cons, h.markDnrNode List.mem_cons_self]
    exact ih fun m hm => h m (List.mem_cons_of_mem _ hm)

theorem Saturated.markDnrNodes {g : WorkflowDAG} (hg : g.WellFormed) (hac : Acyclic g.Parent)
    {objs : NodeStore} (h : Saturated g objs g.nodes) : g.markDnrNodes objs = some (objs, []) := by
  obtain ⟨sorted, hs, hmem, -⟩ := SimpleDAG.sortNodesTopological_spec hg hac
  have hsorted : Saturated g objs sorted := fun n hn => h n ((hmem n).mp hn)
  rw [WorkflowDAG.markDnrNodes, hs, Option.map_some, hsorted.foldl]

/-! ### Two graphs with the same edges -/

/-- The same nodes and labelled edges, perhaps listed in another order. -/
structure SameGraph (g g' : WorkflowDAG) : Prop where
  nodes : ∀ n, n ∈ g.nodes ↔ n ∈ g'.nodes
  edge : ∀ l p c, g.Edge l p c ↔ g'.Edge l p c

namespace SameGraph
variable {g g' : WorkflowDAG} (h : g.SameGraph g')
include h

theorem parent (p c : NodeId) : g.Parent p c ↔ g'.Parent p c := exists_congr fun l => h.edge l p c

theorem acyclic (hac : Acyclic g.Parent) : Acyclic g'.Parent :=
  hac.mono fun a b hab => (h.parent a b).mpr hab

theorem leads (job : Option Status) (p n : NodeId) : g.Leads job p n ↔ g'.Leads job p n :=
  exists_congr fun l => and_congr_right fun _ => h.edge l p n

theorem follows (objs : NodeStore) (p n : NodeId) : g.Follows objs p n ↔ g'.Follows objs p n :=
  ⟨fun hf => ⟨hf.live, hf.decided, (h.leads _ p n).mp hf.leads⟩,
    fun hf => ⟨hf.live, hf.decided, (h.leads _ p n).mpr hf.leads⟩⟩

theorem rootNodes (hg : g.WellFormed) (hg' : g'.WellFormed) (n : NodeId) :
    n ∈ g.getRootNodes ↔ n ∈ g'.getRootNodes := by
  rw [SimpleDAG.WellFormed.mem_getRootNodes hg, SimpleDAG.WellFormed.mem_getRootNodes hg', h.nodes n]
  exact and_congr_right fun _ => forall_congr' fun p => not_congr (h.parent p n)

theorem dnrCondition (hg : g.WellFormed) (hg' : g'.WellFormed) (objs : NodeStore) (n : NodeId) :
    g.dnrCondition objs n = g'.dnrCondition objs n := by
  rw [Bool.eq_iff_iff]
  cases hc : (objs n).allParentsMustConverge with
  | false =>
    rw [dnrCondition_any hg hc, dnrCondition_any hg' hc]
    refine forall_congr' fun p => ?_
    rw [h.parent p n, h.follows objs p n]
  | true =>
    rw [dnrCondition_all hg hc, dnrCondition_all hg' hc]
    simp only [h.parent, h.leads]

theorem markedIn (hg : g.WellFormed) (hg' : g'.WellFormed) (objs : NodeStore) (n : NodeId) :
    MarkedIn g objs n ↔ MarkedIn g' objs n := by
  unfold MarkedIn
  rw [h.rootNodes hg hg' n, h.dnrCondition hg hg' objs n]

end SameGraph

/-- What every pass over the graph reaches from `objs`. -/
structure Verdict (g : WorkflowDAG) (objs objs' : NodeStore) : Prop where
  marks : MarksOnly objs objs'
  rest : ∀ n, n ∉ g.nodes → objs' n = objs n
  marked : ∀ n ∈ g.nodes,
    (objs' n).doNotRun = true ↔ (objs n).doNotRun = true ∨ MarkedIn g objs' n

theorem Verdict.congr {g g' : WorkflowDAG} (hg : g.WellFormed) (hg' : g'.WellFormed)
    (h : g.SameGraph g') {objs objs' : NodeStore} (hv : Verdict g' objs objs') :
    Verdict g objs objs' where
  marks := hv.marks
  rest := fun n hn => hv.rest n fun hn' => hn ((h.nodes n).mpr hn')
  marked := fun n hn => by
    rw [h.markedIn hg hg' objs' n]
    exact hv.marked n ((h.nodes n).mp hn)

/-- Stores that agree on the parents of a node agree on the node. -/
theorem Verdict.node_eq {g : WorkflowDAG} (hg : g.WellFormed) {objs o₁ o₂ : NodeStore}
    (h₁ : Verdict g objs o₁) (h₂ : Verdict g objs o₂) {n : NodeId}
    (hp : ∀ p, g.Parent p n → o₁ p = o₂ p) : o₁ n = o₂ n := by
  by_cases hn : n ∈ g.nodes
  · have hconv : (o₁ n).allParentsMustConverge = (o₂ n).allParentsMustConverge :=
      (h₁.marks.converge n).trans (h₂.marks.converge n).symm
    have hmark : MarkedIn g o₁ n ↔ MarkedIn g o₂ n := by
      unfold MarkedIn
      rw [h₁.marks.job n, h₂.marks.job n, dnrCondition_congr hg hconv hp]
    have hdnr : (o₁ n).doNotRun = (o₂ n).doNotRun := by
      rw [Bool.eq_iff_iff, h₁.marked n hn, h₂.marked n hn, hmark]
    exact WorkflowNode.ext hdnr ((h₁.marks.job n).trans (h₂.marks.job n).symm)
      ((h₁.marks.template n).trans (h₂.marks.template n).symm) hconv
  · rw [h₁.rest n hn, h₂.rest n hn]

/-- On an acyclic graph the verdict is unique: parents are decided before children. -/
theorem Verdict.unique {g : WorkflowDAG} (hg : g.WellFormed) (hac : Acyclic g.Parent)
    {objs o₁ o₂ : NodeStore} (h₁ : Verdict g objs o₁) (h₂ : Verdict g objs o₂) : o₁ = o₂ := by
  funext n
  -- along the parents, which are all nodes of the graph
  induction n using (hac.wellFounded g.nodes fun a b hab => hab.nodes.1).induction with
  | _ n ih => exact h₁.node_eq hg h₂ ih

theorem markDnrNodes_verdict {g : WorkflowDAG} (hg : g.WellFormed) (hac : Acyclic g.Parent)
    (objs : NodeStore) :
    ∃ objs' marked, g.markDnrNodes objs = some (objs', marked) ∧ Verdict g objs objs' := by
  obtain ⟨objs', marked, hrun, hmarks, hrest, hmarked⟩ := markDnrNodes_spec hg hac objs
  exact ⟨objs', marked, hrun, hmarks, hrest, hmarked⟩

theorem Verdict.saturated {g : WorkflowDAG} {objs objs' : NodeStore} (h : Verdict g objs objs') :
    Saturated g objs' g.nodes := fun n hn hm => (h.marked n hn).mpr (.inr hm)

end WorkflowDAG

namespace WorkflowGraph

open WorkflowDAG

/-- The same workflow, its nodes and through-table rows read in another order. -/
structure Reordered (w w' : WorkflowGraph) : Prop where
  nodes : w.nodes.Perm w'.nodes
  edges : ∀ l, (w.edges l).Perm (w'.edges l)

theorem Reordered.sameGraph {w w' : WorkflowGraph} (h : w.Reordered w') :
    w.initGraph.SameGraph w'.initGraph where
  nodes := fun n => by rw [mem_initGraph_nodes, mem_initGraph_nodes, h.nodes.mem_iff]
  edge := fun l p c => by
    rw [initGraph_edge, initGraph_edge]
    exact (h.edges l).mem_iff

/-- One pass reaches the fixpoint: a second pass marks nothing, and however the nodes
and edges are listed, the pass reaches the same store and returns the same nodes. -/
theorem markDnrNodes_fixpoint (w : WorkflowGraph) (hac : Acyclic w.Parent) (objs : NodeStore) :
    ∃ objs' marked, w.initGraph.markDnrNodes objs = some (objs', marked) ∧
      w.initGraph.markDnrNodes objs' = some (objs', []) ∧
      ∀ w', w.Reordered w' → ∃ marked', w'.initGraph.markDnrNodes objs = some (objs', marked') ∧
        ∀ n, n ∈ marked' ↔ n ∈ marked := by
  have hg := w.initGraph_wellFormed
  have hacg : Acyclic w.initGraph.Parent := w.initGraph_parent ▸ hac
  obtain ⟨objs', marked, hrun, hv⟩ := markDnrNodes_verdict hg hacg objs
  refine ⟨objs', marked, hrun, hv.saturated.markDnrNodes hg hacg, fun w' hw => ?_⟩
  have hsame := hw.sameGraph
  have hg' := w'.initGraph_wellFormed
  obtain ⟨objs'', marked', hrun', hv'⟩ := markDnrNodes_verdict hg' (hsame.acyclic hacg) objs
  have heq : objs'' = objs' := Verdict.unique hg hacg (Verdict.congr hg hg' hsame hv') hv
  subst heq
  refine ⟨marked', hrun', fun n => ?_⟩
  rw [markDnrNodes_mem hrun, markDnrNodes_mem hrun']

/-- A diamond below the node 1, with the join listed before its parents. -/
def diamond : WorkflowGraph where
  nodes := [4, 1, 3, 2]
  edges
    | .successNodes => [(1, 2), (1, 3)]
    | .failureNodes => []
    | .alwaysNodes => [(2, 4), (3, 4)]
  nodes_nodup := by decide
  edges_nodes := by intro l; cases l <;> decide

def rootFailed : NodeStore := fun n => ⟨false, if n = 1 then some .failed else none, some 0, false⟩

/-- Below a failed root the pass marks both parents and, in the same pass, the join. -/
theorem markDnrNodes_fixpoint_diamond :
    ∃ objs' marked, diamond.initGraph.markDnrNodes rootFailed = some (objs', marked) ∧
      diamond.initGraph.markDnrNodes objs' = some (objs', []) ∧
      ∀ w', diamond.Reordered w' → ∃ marked',
        w'.initGraph.markDnrNodes rootFailed = some (objs', marked') ∧
          ∀ n, n ∈ marked' ↔ n ∈ marked :=
  markDnrNodes_fixpoint diamond (diamond.acyclic_of_lt fun l => by cases l <;> decide) rootFailed

example : (diamond.initGraph.markDnrNodes rootFailed).map Prod.snd = some [3, 2, 4] := by decide

end WorkflowGraph

end Forail.Scheduler
