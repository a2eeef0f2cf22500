import Forail.Models.UnifiedJob
import Forail.Scheduler.Topological
import Mathlib.Algebra.GroupWithZero.Nat

/-! The workflow graph `WorkflowDAG`: building it from the node and edge tables, the
pass that marks nodes do-not-run, the breadth-first search for nodes to run, and the
two final checks. The graph holds node ids; the fields that the scheduler reads and
writes are in a store of node objects, so that a marked node is seen by every later
test of the same pass. -/

namespace Forail.Scheduler

abbrev NodeId := ℕ

inductive EdgeLabel
  | successNodes | failureNodes | alwaysNodes
  deriving DecidableEq

/-- The fields of a workflow job node that the scheduler looks at; `job` is the
status of the attached job. -/
@[ext] structure WorkflowNode where
  doNotRun : Bool
  job : Option Status
  unifiedJobTemplate : Option ℕ
  allParentsMustConverge : Bool
  deriving DecidableEq

/-- The node objects by id. -/
abbrev NodeStore := NodeId → WorkflowNode

abbrev WorkflowDAG := SimpleDAG NodeId EdgeLabel

/-- A workflow as stored: its nodes and, for each label, the rows of the through table. -/
structure WorkflowGraph where
  nodes : List NodeId
  edges : EdgeLabel → List (NodeId × NodeId)
  nodes_nodup : nodes.Nodup
  edges_nodes : ∀ l, ∀ e ∈ edges l, e.1 ∈ nodes ∧ e.2 ∈ nodes

namespace WorkflowGraph

theorem nodup_two : ([1, 2] : List NodeId).Nodup := by decide

theorem nodup_three : ([1, 2, 3] : List NodeId).Nodup := by decide

def Edge (w : WorkflowGraph) (l : EdgeLabel) (p c : NodeId) : Prop := (p, c) ∈ w.edges l

def Parent (w : WorkflowGraph) (p c : NodeId) : Prop := ∃ l, w.Edge l p c

def addEdges (g : WorkflowDAG) (l : EdgeLabel) (es : List (NodeId × NodeId)) : WorkflowDAG :=
  es.foldl (fun g e => (g.addEdge e.1 e.2 l).1) g

/-- `_init_graph`: both ends of every row are nodes of the workflow, so that no
lookup and no `addEdge` fails. -/
def initGraph (w : WorkflowGraph) : WorkflowDAG :=
  let g := w.nodes.foldl SimpleDAG.addNode .empty
  let g := addEdges g .successNodes (w.edges .successNodes)
  let g := addEdges g .failureNodes (w.edges .failureNodes)
  addEdges g .alwaysNodes (w.edges .alwaysNodes)

end WorkflowGraph

/-! ### The source functions -/

namespace WorkflowDAG

def areRelevantParentsFinished (g : WorkflowDAG) (objs : NodeStore) (n : NodeId) : Bool :=
  (g.getParents n none).all fun p =>
    if (objs p).doNotRun then true
    else if (objs p).unifiedJobTemplate.isNone then true
    else match (objs p).job with
      | none => false
      | some st => st ∈ [Status.successful, .failed, .error, .canceled]

/-- Only `successful` and `failed` parents are checked against their edges. -/
def allParentsMetConvergenceCriteria (g : WorkflowDAG) (objs : NodeStore) (n : NodeId) : Bool :=
  (g.getParents n none).all fun p =>
    match (objs p).job with
    | some .successful =>
      p ∈ g.getParents n (some .successNodes) || p ∈ g.getParents n (some .alwaysNodes)
    | some .failed =>
      p ∈ g.getParents n (some .failureNodes) || p ∈ g.getParents n (some .alwaysNodes)
    | _ => true

/-- The children with which the search goes on from a node that has a job, or that
has no template. -/
def childrenToVisit (g : WorkflowDAG) (objs : NodeStore) (n : NodeId) : List NodeId :=
  match (objs n).job with
  | some .failed | some .error | some .canceled | none =>
    g.getChildren n (some .failureNodes) ++ g.getChildren n (some .alwaysNodes)
  | some .successful => g.getChildren n (some .successNodes) ++ g.getChildren n (some .alwaysNodes)
  | some _ => []

/-- The loop over the growing list `nodes`. -/
def bfsLoop (g : WorkflowDAG) (objs : NodeStore) :
    ℕ → List NodeId → List NodeId → List NodeId → Option (List NodeId)
  | 0, _, _, _ => none
  | _ + 1, [], _, nodesFound => some nodesFound
  | fuel + 1, n :: nodes, nodeIdsVisited, nodesFound =>
    if n ∈ nodeIdsVisited then bfsLoop g objs fuel nodes nodeIdsVisited nodesFound
    else if (objs n).doNotRun then bfsLoop g objs fuel nodes (n :: nodeIdsVisited) nodesFound
    else if (objs n).job.isSome then
      bfsLoop g objs fuel (nodes ++ g.childrenToVisit objs n) (n :: nodeIdsVisited) nodesFound
    else if (objs n).unifiedJobTemplate.isNone then
      bfsLoop g objs fuel (nodes ++ g.childrenToVisit objs n) (n :: nodeIdsVisited) nodesFound
    else if !(objs n).allParentsMustConverge && g.areRelevantParentsFinished objs n then
      bfsLoop g objs fuel nodes (n :: nodeIdsVisited) (nodesFound ++ [n])
    else if (objs n).allParentsMustConverge && g.areRelevantParentsFinished objs n &&
        g.allParentsMetConvergenceCriteria objs n then
      bfsLoop g objs fuel nodes (n :: nodeIdsVisited) (nodesFound ++ [n])
    else bfsLoop g objs fuel nodes (n :: nodeIdsVisited) nodesFound

/-- Enough steps for every run of the loop. -/
def bfsFuel (g : WorkflowDAG) (objs : NodeStore) : ℕ :=
  (g.nodes.map fun n => (g.childrenToVisit objs n).length).sum + g.getRootNodes.length + 1

def bfsNodesToRun (g : WorkflowDAG) (objs : NodeStore) : Option (List NodeId) :=
  g.bfsLoop objs (g.bfsFuel objs) g.getRootNodes [] []

def isWorkflowDone (g : WorkflowDAG) (objs : NodeStore) : Bool :=
  g.nodes.all fun n =>
    if !(objs n).doNotRun && (objs n).job.isNone && (objs n).unifiedJobTemplate.isSome then false
    else match (objs n).job with
      | some st => st ∈ [Status.successful, .failed, .canceled, .error]
      | none => true

def areAllNodesDnrDecided (objs : NodeStore) (workflowNodes : List NodeId) : Bool :=
  workflowNodes.all fun n =>
    !(!(objs n).doNotRun && (objs n).job.isNone && (objs n).unifiedJobTemplate.isSome)

def shouldMarkNodeDnr (g : WorkflowDAG) (objs : NodeStore) (node : NodeId)
    (parentNodes : List NodeId) : Bool :=
  parentNodes.all fun p =>
    if (objs p).doNotRun then true
    else match (objs p).job with
      | some .successful =>
        node ∉ g.getChildren p (some .successNodes) ++ g.getChildren p (some .alwaysNodes)
      | some .failed | some .error | some .canceled =>
        node ∉ g.getChildren p (some .failureNodes) ++ g.getChildren p (some .alwaysNodes)
      | some _ => false
      | none =>
        if (objs p).unifiedJobTemplate.isNone then
          node ∉ g.getChildren p (some .failureNodes) ++ g.getChildren p (some .alwaysNodes)
        else false

/-- The test inside the loop of `markDnrNodes` for a node that may still be marked. -/
def dnrCondition (g : WorkflowDAG) (objs : NodeStore) (n : NodeId) : Bool :=
  let parentNodes := g.getParents n none
  if (objs n).allParentsMustConverge then
    parentNodes.any (fun p => (objs p).doNotRun) || !g.allParentsMetConvergenceCriteria objs n
  else areAllNodesDnrDecided objs parentNodes && g.shouldMarkNodeDnr objs n parentNodes

def setDoNotRun (objs : NodeStore) (n : NodeId) : NodeStore :=
  Function.update objs n { objs n with doNotRun := true }

/-- One iteration of the loop: the store and the nodes marked so far. -/
def markDnrNode (g : WorkflowDAG) (s : NodeStore × List NodeId) (n : NodeId) :
    NodeStore × List NodeId :=
  if !(s.1 n).doNotRun && (s.1 n).job.isNone && n ∉ g.getRootNodes && g.dnrCondition s.1 n then
    (setDoNotRun s.1 n, s.2 ++ [n])
  else s

/-- Without a result when the topological sort has none. -/
def markDnrNodes (g : WorkflowDAG) (objs : NodeStore) : Option (NodeStore × List NodeId) :=
  g.sortNodesTopological.map fun sorted => sorted.foldl g.markDnrNode (objs, [])

/-- The nodes that make the workflow fail: no error handling path leaves them. -/
def failedWithoutPath (g : WorkflowDAG) (objs : NodeStore) : List NodeId :=
  (g.nodes.filter fun n =>
    (!(objs n).doNotRun && (objs n).unifiedJobTemplate.isNone) ||
      (match (objs n).job with
        | some st => st ∈ [Status.failed, .canceled, .error]
        | none => false)).filter fun n =>
    (g.getChildren n (some .failureNodes)).length + (g.getChildren n (some .alwaysNodes)).length = 0

def statusText : Option Status → String
  | some .new => "new" | some .pending => "pending" | some .waiting => "waiting"
  | some .running => "running" | some .successful => "successful" | some .failed => "failed"
  | some .error => "error" | some .canceled => "canceled" | none => ""

/-- The verdict with its reason. -/
def hasWorkflowFailed (g : WorkflowDAG) (objs : NodeStore) : Bool × Option String :=
  let failed := g.failedWithoutPath objs
  if failed.isEmpty then (false, none)
  else
    let nodeStatus := (failed.filter fun n => (objs n).unifiedJobTemplate.isSome).map
      fun n => "(" ++ toString n ++ "," ++ statusText (objs n).job ++ ")"
    let noUfjt := (failed.filter fun n => (objs n).unifiedJobTemplate.isNone).map toString
    (true, some ("No error handling path for workflow job node(s) [" ++
      String.intercalate "," nodeStatus ++ "]. Workflow job node(s) missing unified job template " ++
      "and error handling path [" ++ String.intercalate "," noUfjt ++ "]."))

end WorkflowDAG

/-! ### The built graph -/

namespace WorkflowGraph

theorem foldl_addNode {g : WorkflowDAG} (hg : g.WellFormed) (ns : List NodeId) :
    (ns.foldl SimpleDAG.addNode g).WellFormed ∧
      (∀ n, n ∈ (ns.foldl SimpleDAG.addNode g).nodes ↔ n ∈ g.nodes ∨ n ∈ ns) ∧
      ∀ l p c, (ns.foldl SimpleDAG.addNode g).Edge l p c ↔ g.Edge l p c := by
  induction ns generalizing g with
  | nil => exact ⟨hg, by simp, fun _ _ _ => .rfl⟩
  | cons m ns ih =>
    obtain ⟨hw, hn, he⟩ := ih (SimpleDAG.addNode_wellFormed hg m)
    refine ⟨hw, fun n => (hn n).trans ?_, fun l p c =>
      (he l p c).trans (SimpleDAG.addNode_edge hg m l p c)⟩
    rw [SimpleDAG.addNode_nodes hg]
    split_ifs with hm
    · refine ⟨fun h => h.imp id (List.mem_cons_of_mem _), fun h => ?_⟩
      rcases h with h | h
      · exact .inl h
      · exact (List.mem_cons.mp h).imp (fun h => by rw [h]; exact hm) id
    · simp [or_assoc]

theorem addEdges_spec {g : WorkflowDAG} (hg : g.WellFormed) (l : EdgeLabel)
    (es : List (NodeId × NodeId)) (hes : ∀ e ∈ es, e.1 ∈ g.nodes ∧ e.2 ∈ g.nodes) :
    (addEdges g l es).WellFormed ∧ (addEdges g l es).nodes = g.nodes ∧
      ∀ l' p c, (addEdges g l es).Edge l' p c ↔ g.Edge l' p c ∨ (l' = l ∧ (p, c) ∈ es) := by
  induction es generalizing g with
  | nil => exact ⟨hg, rfl, by simp [addEdges]⟩
  | cons e es ih =>
    obtain ⟨hp, hc⟩ := hes e List.mem_cons_self
    have hnodes := SimpleDAG.addEdge_nodes g e.1 e.2 l
    obtain ⟨hw, hn, he⟩ := ih (SimpleDAG.addEdge_wellFormed hg hp hc l)
      (fun e' h => hnodes ▸ hes e' (List.mem_cons_of_mem _ h))
    refine ⟨hw, hn.trans hnodes, fun l' p c => (he l' p c).trans ?_⟩
    rw [SimpleDAG.addEdge_edge hg hp hc, or_assoc, ← and_or_left, List.mem_cons]
    simp only [Prod.ext_iff]

theorem initGraph_spec (w : WorkflowGraph) :
    w.initGraph.WellFormed ∧ (∀ n, n ∈ w.initGraph.nodes ↔ n ∈ w.nodes) ∧
      ∀ l p c, w.initGraph.Edge l p c ↔ w.Edge l p c := by
  obtain ⟨hw₀, hn₀, he₀⟩ := foldl_addNode SimpleDAG.empty_wellFormed w.nodes
  have hmem : ∀ l, ∀ e ∈ w.edges l, e.1 ∈ (w.nodes.foldl SimpleDAG.addNode .empty).nodes ∧
      e.2 ∈ (w.nodes.foldl SimpleDAG.addNode .empty).nodes := fun l e he =>
    ⟨(hn₀ _).mpr (.inr (w.edges_nodes l e he).1), (hn₀ _).mpr (.inr (w.edges_nodes l e he).2)⟩
  obtain ⟨hw₁, hn₁, he₁⟩ := addEdges_spec hw₀ .successNodes _ (hmem .successNodes)
  obtain ⟨hw₂, hn₂, he₂⟩ := addEdges_spec hw₁ .failureNodes _ (hn₁ ▸ hmem .failureNodes)
  obtain ⟨hw₃, hn₃, he₃⟩ := addEdges_spec hw₂ .alwaysNodes _ (hn₂ ▸ hn₁ ▸ hmem .alwaysNodes)
  refine ⟨hw₃, fun n => ?_, fun l p c => ?_⟩
  · rw [initGraph, hn₃, hn₂, hn₁, hn₀]
    simp [SimpleDAG.empty]
  · rw [initGraph, he₃, he₂, he₁, he₀]
    have hempty : ¬ (SimpleDAG.empty : WorkflowDAG).Edge l p c := fun h =>
      List.not_mem_nil h.nodes.1
    cases l <;> simp [Edge, hempty]

theorem initGraph_wellFormed (w : WorkflowGraph) : w.initGraph.WellFormed := w.initGraph_spec.1

theorem mem_initGraph_nodes (w : WorkflowGraph) {n : NodeId} : n ∈ w.initGraph.nodes ↔ n ∈ w.nodes :=
  w.initGraph_spec.2.1 n

theorem initGraph_edge (w : WorkflowGraph) (l : EdgeLabel) (p c : NodeId) :
    w.initGraph.Edge l p c ↔ w.Edge l p c := w.initGraph_spec.2.2 l p c

/-- A workflow whose edges go to later ids is acyclic. -/
theorem acyclic_of_lt (w : WorkflowGraph) (h : ∀ l, ∀ e ∈ w.edges l, e.1 < e.2) :
    Acyclicity.Acyclic w.Parent :=
  Acyclicity.acyclic_of_rank id fun _ _ ⟨l, hl⟩ => h l _ hl

theorem initGraph_parent (w : WorkflowGraph) : w.initGraph.Parent = w.Parent := by
  funext p c
  exact propext (exists_congr fun l => w.initGraph_edge l p c)

end WorkflowGraph

end Forail.Scheduler
