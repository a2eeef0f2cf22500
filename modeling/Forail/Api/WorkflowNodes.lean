import Forail.Base.Runs
import Forail.Scheduler.DagWorkflow

/-! Editing the graph of a workflow template. A request that attaches a child is
validated by adding the row, searching the built graph for a cycle and removing the row
again. The search starts at the root nodes of the graph with the new row, so it misses a
cycle that no remaining root leads to: the case where the child was a root, other roots
remain, and none of them reaches the parent. -/

namespace Forail.Api

open Relation Acyclicity Scheduler

/-- The nodes and rows of one template; both ends of a row are its nodes. -/
abbrev Template := WorkflowGraph

namespace Template

def new : Template := ⟨[], fun _ => [], by simp, by simp⟩

/-- `relationship.add(sub)`: a row that is there already is not added again. -/
def add (w : Template) (relationship : EdgeLabel) (parent sub : NodeId)
    (h : parent ∈ w.nodes ∧ sub ∈ w.nodes) : Template where
  nodes := w.nodes
  edges := Function.update w.edges relationship
    (if (parent, sub) ∈ w.edges relationship then w.edges relationship
      else w.edges relationship ++ [(parent, sub)])
  nodes_nodup := w.nodes_nodup
  edges_nodes := by
    intro l e he
    by_cases hl : l = relationship
    · subst hl
      rw [Function.update_self] at he
      split_ifs at he
      · exact w.edges_nodes l e he
      · rcases List.mem_append.mp he with he | he
        · exact w.edges_nodes l e he
        · rw [List.mem_singleton.mp he]; exact h
    · rw [Function.update_of_ne hl] at he
      exact w.edges_nodes l e he

/-- `relationship.remove(sub)`. -/
def remove (w : Template) (relationship : EdgeLabel) (parent sub : NodeId) : Template where
  nodes := w.nodes
  edges := Function.update w.edges relationship
    ((w.edges relationship).filter (· ≠ (parent, sub)))
  nodes_nodup := w.nodes_nodup
  edges_nodes := by
    intro l e he
    by_cases hl : l = relationship
    · subst hl
      rw [Function.update_self] at he
      exact w.edges_nodes l e (List.mem_of_mem_filter he)
    · rw [Function.update_of_ne hl] at he
      exact w.edges_nodes l e he

/-- A new node has an id that no node had before. -/
def addNode (w : Template) (n : NodeId) (h : n ∉ w.nodes) : Template where
  nodes := w.nodes ++ [n]
  edges := w.edges
  nodes_nodup := List.nodup_append.mpr ⟨w.nodes_nodup, by simp, fun a ha b hb hab => by
    rw [List.mem_singleton] at hb
    exact h (hb ▸ hab ▸ ha)⟩
  edges_nodes := fun l e he => ⟨List.mem_append_left _ (w.edges_nodes l e he).1,
    List.mem_append_left _ (w.edges_nodes l e he).2⟩

theorem mem_addNode (w : Template) {n m : NodeId} (h : n ∉ w.nodes) (hm : m ∈ w.nodes) :
    m ∈ (w.addNode n h).nodes ∧ n ∈ (w.addNode n h).nodes := by
  simp [addNode, hm]

/-- Another relationship already joins the two nodes. -/
def hasOther (w : Template) (relationship : EdgeLabel) (parent sub : NodeId) : Bool :=
  [EdgeLabel.successNodes, .failureNodes, .alwaysNodes].any fun r =>
    r ≠ relationship && (parent, sub) ∈ w.edges r

/-- The error, if any, and the rows that validation leaves behind; without a result when
the search for a cycle has none. -/
def isValidRelation (w : Template) (relationship : EdgeLabel) (parent sub : NodeId)
    (h : parent ∈ w.nodes ∧ sub ∈ w.nodes) (created : Bool) : Option (Option String × Template) :=
  if created then some (none, w)
  else if parent = sub then some (some "Cycle detected.", w)
  else if w.hasOther relationship parent sub then some (some "Relationship not allowed.", w)
  else
    let added := w.add relationship parent sub h
    (added.initGraph.hasCycle).map fun cycle =>
      (if cycle then some "Cycle detected." else none, added.remove relationship parent sub)

end Template

inductive Request
  | createNode (n : NodeId)
  | createChild (relationship : EdgeLabel) (parent n : NodeId)
  | attach (relationship : EdgeLabel) (parent sub : NodeId)

/-- The status of the answer; a refused request names a node outside the template. -/
inductive Answer
  | created | noContent | refused
  | badRequest (error : String)
  deriving DecidableEq

namespace Template

/-- The end of `attach`: the row is added unless validation found an error. -/
def finishAttach (relationship : EdgeLabel) (parent sub : NodeId) (ok : Answer) :
    Option String × Template → Answer × Template
  | (some error, w) => (.badRequest error, w)
  | (none, w) =>
    if h : parent ∈ w.nodes ∧ sub ∈ w.nodes then (ok, w.add relationship parent sub h)
    else (.refused, w)

/-- `post` on the list of nodes and on the three lists of children. -/
def handle (w : Template) : Request → Option (Answer × Template)
  | .createNode n => if h : n ∈ w.nodes then none else some (.created, w.addNode n h)
  | .createChild relationship parent n =>
    if h : n ∈ w.nodes then none
    else if hp : parent ∈ w.nodes then
      ((w.addNode n h).isValidRelation relationship parent n (w.mem_addNode h hp) true).map
        (finishAttach relationship parent n .created)
    else some (.refused, w)
  | .attach relationship parent sub =>
    if h : parent ∈ w.nodes ∧ sub ∈ w.nodes then
      (w.isValidRelation relationship parent sub h false).map
        (finishAttach relationship parent sub .noContent)
    else some (.refused, w)

/-- The edits of a template from the empty graph. -/
def edits : System Template Request where
  init w := w = new
  step w req w' := ∃ answer, w.handle req = some (answer, w')

/-! ### The edges after an edit -/

theorem add_edge (w : Template) (l : EdgeLabel) (p c : NodeId) (h : p ∈ w.nodes ∧ c ∈ w.nodes)
    (l' : EdgeLabel) (a b : NodeId) :
    (w.add l p c h).Edge l' a b ↔ w.Edge l' a b ∨ (l' = l ∧ a = p ∧ b = c) := by
  unfold WorkflowGraph.Edge add
  by_cases hl : l' = l
  · subst hl
    simp only [Function.update_self, true_and]
    split_ifs with hm
    · refine ⟨.inl, fun h => h.elim id ?_⟩
      rintro ⟨rfl, rfl⟩
      exact hm
    · simp
  · simp [hl]

theorem add_parent (w : Template) (l : EdgeLabel) (p c : NodeId) (h : p ∈ w.nodes ∧ c ∈ w.nodes) :
    (w.add l p c h).Parent = withEdge w.Parent p c := by
  funext a b
  simp only [WorkflowGraph.Parent, add_edge, withEdge, exists_or, exists_and_right, exists_eq,
    true_and]

theorem remove_edge {w : Template} {l l' : EdgeLabel} {p c a b : NodeId} :
    (w.remove l p c).Edge l' a b ↔ w.Edge l' a b ∧ ¬ (l' = l ∧ a = p ∧ b = c) := by
  unfold WorkflowGraph.Edge remove
  by_cases hl : l' = l
  · subst hl
    simp only [Function.update_self, List.mem_filter, decide_eq_true_eq, ne_eq, Prod.mk.injEq,
      true_and]
  · simp [hl]

/-- Validation may lose a row that was there before, and adds none. -/
theorem remove_add_edge {w : Template} {l l' : EdgeLabel} {p c a b : NodeId}
    (h : p ∈ w.nodes ∧ c ∈ w.nodes) : ((w.add l p c h).remove l p c).Edge l' a b ↔
      w.Edge l' a b ∧ ¬ (l' = l ∧ a = p ∧ b = c) := by
  rw [remove_edge, add_edge]
  tauto

/-! ### When the search finds the cycle -/

def IsRoot (w : Template) (r : NodeId) : Prop := r ∈ w.nodes ∧ ∀ q, ¬ w.Parent q r

/-- An edge from the parent to the child closes a cycle. -/
def Closes (w : Template) (parent sub : NodeId) : Prop := ReflTransGen w.Parent sub parent

/-- The child is the only root, or another root leads to the parent. -/
def Detected (w : Template) (parent sub : NodeId) : Prop :=
  (∀ r, w.IsRoot r → r = sub) ∨ ∃ r, w.IsRoot r ∧ r ≠ sub ∧ ReflTransGen w.Parent r parent

section Acyclic
variable {w : Template} (hac : Acyclic w.Parent) {l : EdgeLabel} {p c : NodeId}

theorem mem_getRootNodes_add (h : p ∈ w.nodes ∧ c ∈ w.nodes) {r : NodeId} :
    r ∈ (w.add l p c h).initGraph.getRootNodes ↔ w.IsRoot r ∧ r ≠ c := by
  rw [(w.add l p c h).initGraph_wellFormed.mem_getRootNodes, WorkflowGraph.mem_initGraph_nodes,
    WorkflowGraph.initGraph_parent, add_parent, IsRoot, and_assoc]
  refine and_congr_right fun _ => ⟨fun hr => ?_, ?_⟩
  · exact ⟨fun q hq => hr q (.inl hq), fun he => hr p (.inr ⟨rfl, he⟩)⟩
  · rintro ⟨hq, hne⟩ q (hp | ⟨-, he⟩)
    · exact hq q hp
    · exact hne he

include hac

theorem reachesCycle_add (h : p ∈ w.nodes ∧ c ∈ w.nodes) (hcl : w.Closes p c) {r : NodeId} :
    (w.add l p c h).initGraph.ReachesCycle r ↔ ReflTransGen w.Parent r p := by
  rw [SimpleDAG.ReachesCycle, WorkflowGraph.initGraph_parent, add_parent]
  have hmono : ∀ {a b}, ReflTransGen w.Parent a b → ReflTransGen (withEdge w.Parent p c) a b :=
    fun hab => reach_mono (fun _ _ => .inl) hab
  constructor
  · rintro ⟨b, hrb, hbb⟩
    -- every cycle uses the new edge, so its nodes lead to the parent
    have hbp : ReflTransGen w.Parent b p := (transGen_withEdge hbb).elim
      (fun hb => absurd hb (hac b)) And.left
    exact (reach_withEdge.mp (hrb.trans (hmono hbp))).elim id And.left
  · exact fun hrp => ⟨p, hmono hrp, .head' (.inr ⟨rfl, rfl⟩) (hmono hcl)⟩

/-- The verdict of the search on an acyclic graph with one more row. -/
theorem hasCycle_add (h : p ∈ w.nodes ∧ c ∈ w.nodes) :
    ∃ b, (w.add l p c h).initGraph.hasCycle = some b ∧
      (b = true ↔ w.Closes p c ∧ w.Detected p c) := by
  have hg := (w.add l p c h).initGraph_wellFormed
  obtain ⟨b, hb, hiff⟩ := SimpleDAG.hasCycle_eq hg
  refine ⟨b, hb, ?_⟩
  by_cases hcl : w.Closes p c
  · rw [hiff, and_iff_right hcl, Detected]
    refine or_congr ?_ (exists_congr fun r => ?_)
    · have hne : (w.add l p c h).initGraph.nodes ≠ [] :=
        List.ne_nil_of_mem ((w.add l p c h).mem_initGraph_nodes.mpr h.1)
      rw [and_iff_right hne, List.eq_nil_iff_forall_not_mem]
      refine forall_congr' fun r => ?_
      rw [mem_getRootNodes_add, not_and, not_not]
    · rw [mem_getRootNodes_add, reachesCycle_add hac h hcl, and_assoc]
  · refine iff_of_false (fun hbt => ?_) fun hc => hcl hc.1
    refine SimpleDAG.reachesCycle_of_hasCycle hg (hbt ▸ hb) ?_
    rw [WorkflowGraph.initGraph_parent, add_parent, acyclic_withEdge hac]
    exact hcl

/-- The three answers to an attach request for two nodes of the template. -/
theorem handle_attach (h : p ∈ w.nodes ∧ c ∈ w.nodes) : ∃ answer w',
    w.handle (.attach l p c) = some (answer, w') ∧
    ((answer = .badRequest "Cycle detected." ∧ (p = c ∨ w.Closes p c ∧ w.Detected p c) ∧
        ∀ a b, w'.Parent a b → w.Parent a b) ∨
      (answer = .badRequest "Relationship not allowed." ∧ ¬ w.Closes p c ∧ w' = w) ∨
      (answer = .noContent ∧ p ≠ c ∧ ¬ (w.Closes p c ∧ w.Detected p c) ∧
        w'.Parent = withEdge w.Parent p c)) := by
  rw [handle, dif_pos h, isValidRelation, if_neg Bool.false_ne_true]
  by_cases hpc : p = c
  · rw [if_pos hpc]
    exact ⟨_, _, rfl, .inl ⟨rfl, .inl hpc, fun _ _ => id⟩⟩
  rw [if_neg hpc]
  by_cases ho : w.hasOther l p c = true
  · rw [if_pos ho]
    refine ⟨_, _, rfl, .inr (.inl ⟨rfl, fun hcl => ?_, rfl⟩)⟩
    simp only [hasOther, List.any_eq_true, Bool.and_eq_true, decide_eq_true_eq] at ho
    obtain ⟨r, -, -, hr⟩ := ho
    exact hac p (TransGen.head' ⟨r, hr⟩ hcl)
  rw [if_neg ho]
  obtain ⟨b, hb, hiff⟩ := hasCycle_add hac (l := l) h
  dsimp only
  rw [hb]
  cases b with
  | true =>
    refine ⟨_, _, rfl, .inl ⟨rfl, .inr (hiff.mp rfl), ?_⟩⟩
    exact fun a b ⟨l', hl'⟩ => ⟨l', ((remove_add_edge h).mp hl').1⟩
  | false =>
    have hmem : p ∈ ((w.add l p c h).remove l p c).nodes ∧
        c ∈ ((w.add l p c h).remove l p c).nodes := h
    refine ⟨.noContent, ((w.add l p c h).remove l p c).add l p c hmem, ?_, .inr (.inr
      ⟨rfl, hpc, fun hc => Bool.false_ne_true (hiff.mpr hc), ?_⟩)⟩
    · simp [finishAttach, hmem]
    · rw [← add_parent w l p c h]
      funext a b
      refine propext (exists_congr fun l' => ?_)
      rw [add_edge, remove_add_edge, add_edge]
      tauto

/-! ### Runs -/

/-- A request whose edge closes a cycle is one for which the search finds it. -/
def Guard (w : Template) : Request → Prop
  | .attach _ p c => p ∈ w.nodes → c ∈ w.nodes → w.Closes p c → p = c ∨ w.Detected p c
  | _ => True

omit hac in
/-- A created child has no children. -/
theorem not_closes_of_fresh (hp : p ∈ w.nodes) (hc : c ∉ w.nodes) : ¬ w.Closes p c := by
  intro hcl
  rcases ReflTransGen.cases_head hcl with rfl | ⟨d, ⟨l, hl⟩, -⟩
  · exact hc hp
  · exact hc (w.edges_nodes l _ hl).1

/-- An edit of an acyclic graph keeps it acyclic exactly when it meets the guard. -/
theorem acyclic_step_iff {req : Request} {w' : Template} (hs : edits.step w req w') :
    Acyclic w'.Parent ↔ w.Guard req := by
  obtain ⟨answer, hs⟩ := hs
  cases req with
  | createNode n =>
    refine iff_of_true ?_ trivial
    rw [handle] at hs
    split_ifs at hs
    cases hs
    exact hac
  | createChild l p n =>
    refine iff_of_true ?_ trivial
    rw [handle] at hs
    split_ifs at hs with hn hp
    · have hmem := w.mem_addNode hn hp
      have hw' : w' = (w.addNode n hn).add l p n hmem := by
        simp only [isValidRelation, if_true, Option.map_some, finishAttach, dif_pos hmem] at hs
        exact (Prod.ext_iff.mp (Option.some.inj hs)).2.symm
      rw [hw', add_parent]
      exact (acyclic_withEdge hac).mpr (not_closes_of_fresh hp hn)
    · cases hs
      exact hac
  | attach l p c =>
    by_cases h : p ∈ w.nodes ∧ c ∈ w.nodes
    · obtain ⟨answer', w'', hh, hcases⟩ := handle_attach hac (l := l) h
      obtain rfl : w'' = w' := (Prod.ext_iff.mp (Option.some.inj (hh.symm.trans hs))).2
      rcases hcases with ⟨-, hd, hsub⟩ | ⟨-, hncl, rfl⟩ | ⟨-, hpc, hnd, hpar⟩
      · exact iff_of_true (hac.mono hsub) fun _ _ _ => hd.imp id And.right
      · exact iff_of_true hac fun _ _ hcl => absurd hcl hncl
      · rw [hpar, acyclic_withEdge hac]
        constructor
        · exact fun hncl _ _ hcl => absurd hcl hncl
        · exact fun hguard hcl => (hguard h.1 h.2 hcl).elim hpc fun hd => hnd ⟨hcl, hd⟩
    · rw [handle, dif_neg h] at hs
      cases hs
      exact iff_of_true hac fun hp hc => absurd ⟨hp, hc⟩ h

omit hac in
/-- Along runs of guarded requests the graph stays acyclic. From such a state a closing
request is answered with an error exactly when the search finds its cycle, and any next
request keeps the graph acyclic exactly when it is guarded. -/
theorem acyclic_of_guarded {w : Template} (h : (edits.restrict Guard).Reachable w) :
    Acyclic w.Parent ∧
    (∀ l p c, p ∈ w.nodes → c ∈ w.nodes → w.Closes p c →
      ((∃ w', w.handle (.attach l p c) = some (.badRequest "Cycle detected.", w')) ↔
        p = c ∨ w.Detected p c)) ∧
    ∀ req w', edits.step w req w' → (Acyclic w'.Parent ↔ w.Guard req) := by
  have hac : Acyclic w.Parent := by
    refine h.invariant (I := fun w => Acyclic w.Parent) ?_ ?_
    · intro w hw a ha
      rw [show w = new from hw] at ha
      obtain ⟨b, ⟨l, hl⟩, -⟩ := TransGen.head'_iff.mp ha
      exact List.not_mem_nil hl
    · exact fun w req w' _ hac hs => (acyclic_step_iff hac hs.1).mpr hs.2
  refine ⟨hac, fun l p c hp hc hcl => ?_, fun req w' => acyclic_step_iff hac⟩
  obtain ⟨answer, w', hh, hcases⟩ := handle_attach hac (l := l) ⟨hp, hc⟩
  rw [hh]
  rcases hcases with ⟨rfl, hd, -⟩ | ⟨-, hncl, -⟩ | ⟨rfl, hpc, hnd, -⟩
  · exact iff_of_true ⟨w', rfl⟩ (hd.imp id And.right)
  · exact absurd hcl hncl
  · refine iff_of_false (fun ⟨_, he⟩ => by cases he) fun hd => ?_
    exact hd.elim hpc fun hd => hnd ⟨hcl, hd⟩

end Acyclic

theorem reachable_of_runAll {ok : Template → Request → Prop} {reqs : List Request} {w : Template}
    (hok : ∀ req ∈ reqs, ∀ w, ok w req)
    (h : System.runAll (fun w req => (w.handle req).map Prod.snd) new reqs = some w) :
    (edits.restrict ok).Reachable w := by
  refine System.Reachable.runAll (S := edits.restrict ok) (fun req hr w w' hw => ?_) (.init rfl) h
  obtain ⟨⟨answer, t⟩, ht, rfl⟩ := Option.map_eq_some_iff.mp hw
  exact ⟨⟨answer, ht⟩, hok req hr w⟩

/-- Two nodes joined both ways; the isolated third node is the only root left. -/
theorem isolated_node_hides_cycle : ¬ ∀ w, edits.Reachable w → Acyclic w.Parent := by
  intro h
  have hrun : System.runAll (fun w req => (w.handle req).map Prod.snd) new
      [.createNode 1, .createNode 2, .createNode 3, .attach .successNodes 1 2,
        .attach .successNodes 2 1] = some _ := rfl
  have hw : (edits.restrict fun _ _ => True).Reachable _ :=
    reachable_of_runAll (fun _ _ _ => trivial) hrun
  refine h _ hw.of_restrict 1 (.head (b := 2) ⟨.successNodes, ?_⟩ (.single ⟨.successNodes, ?_⟩))
  · show (1, 2) ∈ _
    decide
  · show (2, 1) ∈ _
    decide

/-- With two nodes only, the closing request finds no root left. -/
theorem oneEdge_guarded : ∃ w : Template, w.edges .successNodes = [(1, 2)] ∧ Acyclic w.Parent ∧
    ∃ w', w.handle (.attach .failureNodes 2 1) = some (.badRequest "Cycle detected.", w') := by
  have hrun : System.runAll (fun w req => (w.handle req).map Prod.snd) new
      [.createNode 1, .createChild .successNodes 1 2] = some _ := rfl
  have hw : (edits.restrict Guard).Reachable _ :=
    reachable_of_runAll (by simp [Guard]) hrun
  obtain ⟨hac, hanswer, -⟩ := acyclic_of_guarded hw
  refine ⟨_, rfl, hac, (hanswer .failureNodes 2 1 (by decide) (by decide)
    (.single ⟨.successNodes, ?_⟩)).mpr (.inr (.inl fun r hr => ?_))⟩
  · show (1, 2) ∈ _
    decide
  · -- the second node has a parent
    have hnodes : r ∈ [1, 2] := hr.1
    rcases List.mem_cons.mp hnodes with h | h
    · exact h
    · refine absurd ⟨.successNodes, ?_⟩ (hr.2 1)
      rw [List.mem_singleton.mp h]
      show (1, 2) ∈ _
      decide

end Template

end Forail.Api
