import Forail.Ui.SaveCompletes
import Forail.Ui.VisualizerRuns

/-! Charts that are edited from what a server holds. Whatever is drawn, the chart has kept the nodes
that it loaded, so it can be saved. -/

namespace Forail.Visualizer

open Relation Acyclicity Api Scheduler

/-- The first node with an id is edited; where there is none, `find` has no result. -/
def markEdited (nodeId : ℕ) (isApprovalTemplate : Bool) : List Node → List Node
  | [] => []
  | node :: nodes =>
    if node.id = nodeId then
      { node with isApprovalTemplate := isApprovalTemplate, isEdited := true } :: nodes
    else node :: markEdited nodeId isApprovalTemplate nodes

def updateNode (s : State) (nodeToEdit : ℕ) (isApprovalTemplate : Bool) : Option State :=
  if nodeToEdit ∈ s.nodes.map Node.id then some { s with
    nodes := markEdited nodeToEdit isApprovalTemplate s.nodes
    unsavedChanges := true }
  else none

/-- The dialog for a node opens when its data has been fetched, whatever has happened since. -/
inductive Edit
  | action (a : Action)
  | updateNode (nodeToEdit : ℕ) (isApprovalTemplate : Bool)

def Edit.Offered (s : State) : Edit → Prop
  | .action a => Visualizer.Offered s a
  | .updateNode nodeToEdit _ => nodeToEdit ≠ 1

def Edit.reduce (s : State) : Edit → Option State
  | .action a => visualizerReducer s a
  | .updateNode nodeToEdit isApprovalTemplate => Visualizer.updateNode s nodeToEdit isApprovalTemplate

instance (s : State) (e : Edit) : Decidable (e.Offered s) := by
  cases e with
  | action a => exact inferInstanceAs (Decidable (Visualizer.Offered s a))
  | updateNode nodeToEdit _ => exact inferInstanceAs (Decidable (nodeToEdit ≠ 1))

/-- The visualizer, from the nodes that the server holds. -/
def editing (server : Server) : System State Edit where
  init s := s = generateNodesAndLinks initReducer (fetchWorkflowNodes server)
  step s e s' := e.Offered s ∧ e.reduce s = some s'

variable {server : Server} {nodes nodes' : List Node} {s s' : State} {ws : List WorkflowNode}

/-! ### What the server holds is loaded -/

/-- A workflow without a cycle, in which one node leads to another by one relationship at most. -/
structure WellStored (server : Server) : Prop where
  acyclic : Acyclic server.template.Parent
  unique : ∀ t t' a b, Stored server t a b → Stored server t' a b → t = t'

theorem mem_children_readNode {a b : ℕ} :
    b ∈ (readNode server a).children ↔ ∃ t, Stored server t a b := by
  rw [WorkflowNode.children, List.mem_append, List.mem_append]
  constructor
  · rintro ((hb | hb) | hb)
    · exact ⟨.success, mem_readNode.mp hb⟩
    · exact ⟨.failure, mem_readNode.mp hb⟩
    · exact ⟨.always, mem_readNode.mp hb⟩
  · rintro ⟨t, hb⟩
    cases t with
    | success => exact .inl (.inl (mem_readNode.mpr hb))
    | failure => exact .inl (.inr (mem_readNode.mpr hb))
    | always => exact .inr (mem_readNode.mpr hb)

theorem ids_fetchWorkflowNodes (server : Server) :
    (fetchWorkflowNodes server).map WorkflowNode.id = server.template.nodes := by
  rw [fetchWorkflowNodes, List.map_map]
  exact List.map_id _

theorem WellStored.nodup_children (h : WellStored server) (a : ℕ) :
    (readNode server a).children.Nodup := by
  have hdisjoint : ∀ {s t : LinkType} {b : ℕ}, s ≠ t →
      b ∈ (readNode server a).originalLinks.nodes s →
        b ∉ (readNode server a).originalLinks.nodes t := fun hne hb hb' =>
    hne (h.unique _ _ a _ (mem_readNode.mp hb) (mem_readNode.mp hb'))
  rw [WorkflowNode.children, List.nodup_append', List.nodup_append']
  refine ⟨⟨Template.nodup_children .., Template.nodup_children .., fun b hb hb' => ?_⟩,
    Template.nodup_children .., fun b hb hb' => ?_⟩
  · exact hdisjoint (s := .success) (t := .failure) (by decide) hb hb'
  · rcases List.mem_append.mp hb with hb | hb
    · exact hdisjoint (s := .success) (t := .always) (by decide) hb hb'
    · exact hdisjoint (s := .failure) (t := .always) (by decide) hb hb'

theorem WellStored.loadable (h : WellStored server) : Loadable (fetchWorkflowNodes server) where
  ids := by
    rw [ids_fetchWorkflowNodes]
    exact server.template.nodes_nodup
  closed node hnode c hc := by
    obtain ⟨a, -, rfl⟩ := List.mem_map.mp hnode
    obtain ⟨t, hab⟩ := mem_children_readNode.mp hc
    rw [ids_fetchWorkflowNodes]
    exact (server.template.edges_nodes _ _ hab).2
  once node hnode := by
    obtain ⟨a, -, rfl⟩ := List.mem_map.mp hnode
    exact h.nodup_children a
  acyclic := by
    refine h.acyclic.mono fun a b => ?_
    rintro ⟨node, hnode, rfl, hb⟩
    obtain ⟨a, -, rfl⟩ := List.mem_map.mp hnode
    obtain ⟨t, hab⟩ := mem_children_readNode.mp hb
    exact ⟨t.relationship, hab⟩

/-! ### What an edit keeps of the nodes -/

/-- The node is still the same; its template is another one only if it is marked as edited. -/
structure Keeps (node node' : Node) : Prop where
  id : node'.id = node.id
  original : node'.originalNodeObject = node.originalNodeObject
  unedited : node'.isEdited = false →
    node.isEdited = false ∧ node'.isApprovalTemplate = node.isApprovalTemplate

theorem Keeps.rfl (node : Node) : Keeps node node :=
  ⟨Eq.refl _, Eq.refl _, fun h => ⟨h, Eq.refl _⟩⟩

theorem keeps_self (nodes : List Node) : List.Forall₂ Keeps nodes nodes :=
  List.forall₂_same.mpr fun node _ => .rfl node

theorem keeps_map {f : Node → Node} (hf : ∀ node, Keeps node (f node)) (nodes : List Node) :
    List.Forall₂ Keeps nodes (nodes.map f) :=
  List.forall₂_map_right_iff.mpr (List.forall₂_same.mpr fun node _ => hf node)

theorem keeps_clearInvalidLinkTargets (nodes : List Node) :
    List.Forall₂ Keeps nodes (clearInvalidLinkTargets nodes) :=
  keeps_map (f := fun node => { node with isInvalidLinkTarget := false })
    (fun _ => ⟨rfl, rfl, fun h => ⟨h, rfl⟩⟩) nodes

theorem keeps_markDeleted (n : ℕ) (nodes : List Node) :
    List.Forall₂ Keeps nodes (markDeleted n nodes) := by
  induction nodes with
  | nil => exact .nil
  | cons node nodes ih =>
    rw [markDeleted]
    split_ifs
    · exact .cons ⟨rfl, rfl, fun h => ⟨h, rfl⟩⟩ (keeps_self nodes)
    · exact .cons (.rfl node) ih

theorem keeps_markEdited (n : ℕ) (b : Bool) (nodes : List Node) :
    List.Forall₂ Keeps nodes (markEdited n b nodes) := by
  induction nodes with
  | nil => exact .nil
  | cons node nodes ih =>
    rw [markEdited]
    split_ifs
    · exact .cons ⟨rfl, rfl, fun h => nomatch h⟩ (keeps_self nodes)
    · exact .cons (.rfl node) ih

/-- An action keeps the nodes, or adds one that the server does not know. -/
theorem nodes_visualizerReducer {a : Action} (h : visualizerReducer s a = some s') :
    List.Forall₂ Keeps s.nodes s'.nodes ∨ ∃ isApprovalTemplate,
      s'.nodes = s.nodes ++ [⟨s.nextNodeId, none, isApprovalTemplate, false, false, false⟩] := by
  cases a with
  | cancelLink =>
    cases h
    exact .inl (keeps_clearInvalidLinkTargets s.nodes)
  | createLink linkType =>
    rw [visualizerReducer, createLink] at h
    split at h
    · cases h
      exact .inl (keeps_clearInvalidLinkTargets s.nodes)
    · cases h
  | createNode node =>
    obtain ⟨a, -, rfl⟩ := Option.map_eq_some_iff.mp h
    exact .inr ⟨node.isApprovalTemplate, rfl⟩
  | deleteAllNodes =>
    cases h
    refine .inl (keeps_map (fun node => ?_) s.nodes)
    split_ifs
    · exact ⟨rfl, rfl, fun h => ⟨h, rfl⟩⟩
    · exact .rfl node
  | deleteLink =>
    obtain ⟨l, -, rfl⟩ := Option.map_eq_some_iff.mp h
    exact .inl (keeps_self s.nodes)
  | deleteNode =>
    obtain ⟨n, -, h⟩ := Option.bind_eq_some_iff.mp h
    obtain ⟨-, h⟩ := Option.ite_none_right_eq_some.mp h
    cases h
    exact .inl (keeps_markDeleted n s.nodes)
  | selectSourceForLinking node =>
    obtain ⟨search, -, h⟩ := Option.bind_eq_some_iff.mp h
    cases h
    refine .inl (keeps_map (fun node => ?_) s.nodes)
    split_ifs
    · exact ⟨rfl, rfl, fun h => ⟨h, rfl⟩⟩
    · exact .rfl node
  | updateLink linkType =>
    obtain ⟨l, -, rfl⟩ := Option.map_eq_some_iff.mp h
    exact .inl (keeps_self s.nodes)
  | cancelNodeModal | setAddLinkTargetNode _ | setLinkToDelete _ | setLinkToEdit _
  | setNodeToDelete _ | setShowDeleteAllNodesModal _ | startAddNode _ _ | startDeleteLink _
  | toggleDeleteAllNodesModal =>
    cases h
    exact .inl (keeps_self s.nodes)

/-- Every node that there is afterwards was there before. -/
theorem exists_keeps (h : List.Forall₂ Keeps nodes nodes') {node' : Node} (hmem : node' ∈ nodes') :
    ∃ node ∈ nodes, Keeps node node' := by
  induction h with
  | nil => exact absurd hmem List.not_mem_nil
  | @cons first _ _ _ hk _ ih =>
    rcases List.mem_cons.mp hmem with rfl | hmem
    · exact ⟨first, List.mem_cons_self, hk⟩
    · obtain ⟨node, hnode, hk⟩ := ih hmem
      exact ⟨node, List.mem_cons_of_mem _ hnode, hk⟩

/-! ### All edits -/

/-- The chart knows the nodes that were loaded, and no others. -/
structure Loaded (ws : List WorkflowNode) (nodes : List Node) : Prop where
  originals : nodes.filterMap Node.originalNodeObject = ws
  start : ∀ node ∈ nodes, node.id = 1 → node.originalNodeObject = none
  unedited : ∀ node ∈ nodes, ∀ o, node.originalNodeObject = some o → node.isEdited = false →
    node.isApprovalTemplate = o.isApproval

namespace Loaded

theorem keeps (h : Loaded ws nodes) (hk : List.Forall₂ Keeps nodes nodes') :
    Loaded ws nodes' where
  originals := by
    rw [← h.originals]
    clear h
    induction hk with
    | nil => rfl
    | cons hk _ ih => rw [List.filterMap_cons, List.filterMap_cons, hk.original, ih]
  start node' hmem h1 := by
    obtain ⟨node, hnode, hkeeps⟩ := exists_keeps hk hmem
    rw [hkeeps.original]
    exact h.start node hnode (hkeeps.id ▸ h1)
  unedited node' hmem o ho hedit := by
    obtain ⟨node, hnode, hkeeps⟩ := exists_keeps hk hmem
    obtain ⟨hnot, happr⟩ := hkeeps.unedited hedit
    rw [happr]
    exact h.unedited node hnode o (hkeeps.original ▸ ho) hnot

theorem append (h : Loaded ws nodes) {node : Node} (hnone : node.originalNodeObject = none) :
    Loaded ws (nodes ++ [node]) where
  originals := by
    rw [List.filterMap_append, List.filterMap_cons_none hnone, List.filterMap_nil, List.append_nil]
    exact h.originals
  start node' hmem h1 := by
    rcases List.mem_append.mp hmem with hmem | hmem
    · exact h.start node' hmem h1
    · rw [List.mem_singleton.mp hmem]
      exact hnone
  unedited node' hmem o ho hedit := by
    rcases List.mem_append.mp hmem with hmem | hmem
    · exact h.unedited node' hmem o ho hedit
    · rw [List.mem_singleton.mp hmem, hnone] at ho
      cases ho

theorem generateNodes (ws : List WorkflowNode) : Loaded ws (generateNodes ws) where
  originals := by
    rw [Visualizer.generateNodes, List.filterMap_cons_none rfl, List.filterMap_map]
    exact List.filterMap_some
  start node hmem h1 := by
    rcases List.mem_cons.mp hmem with rfl | hmem
    · rfl
    · obtain ⟨w, -, rfl⟩ := List.mem_map.mp hmem
      exact absurd h1 (chartId_ne_one _)
  unedited node hmem o ho _ := by
    rcases List.mem_cons.mp hmem with rfl | hmem
    · cases ho
    · obtain ⟨w, -, rfl⟩ := List.mem_map.mp hmem
      cases ho
      rfl

end Loaded

/-- An open dialog is about links, and about nodes that are not deleted. -/
theorem Dialog.withNodes (h : Dialog s) {f : Node → Node} (hid : ∀ node, (f node).id = node.id)
    (hdel : ∀ node, (f node).isDeleted = node.isDeleted)
    (hmark : ∀ node, (f node).isInvalidLinkTarget = node.isInvalidLinkTarget) :
    Dialog { s with nodes := s.nodes.map f, unsavedChanges := true } := by
  have hidle : ∀ {t : State}, Idle t →
      Idle { t with nodes := s.nodes.map f, unsavedChanges := true } := fun ht =>
    ⟨ht.1, ht.2, ht.3, ht.4, ht.5, ht.6, ht.7⟩
  have hlive : ∀ {n}, Live s.nodes n → Live (s.nodes.map f) n := (live_map hid hdel).mpr
  cases h with
  | idle h => exact .idle (hidle h)
  | addingNode h =>
    exact .addingNode ⟨hidle h.idle, h.shown, fun a ha => (h.source a ha).imp_right hlive, h.target⟩
  | deletingLink h => exact .deletingLink ⟨hidle h.idle, h.shown, h.link⟩
  | editingLink h => exact .editingLink ⟨hidle h.idle, h.shown⟩
  | deletingNode h =>
    exact .deletingNode ⟨hidle h.idle, h.shown, fun n hn => hlive (h.node n hn)⟩
  | linking a h =>
    refine .linking a ⟨hidle h.idle, h.source, h.adding, hlive h.live, ?_, fun t ht => ?_⟩
    · intro node hmem hnot hna hn1
      obtain ⟨node', hmem', rfl⟩ := List.mem_map.mp hmem
      rw [hid] at hna hn1 ⊢
      exact h.unmarked node' hmem' (hmark node' ▸ hnot) hna hn1
    · obtain ⟨ht, hlink, hshown⟩ := h.target t ht
      exact ⟨hlive ht, hlink, hshown⟩

theorem markEdited_eq_map (h : (nodes.map Node.id).Nodup) (n : ℕ) (b : Bool) :
    markEdited n b nodes = nodes.map fun node =>
      if node.id = n then { node with isApprovalTemplate := b, isEdited := true } else node := by
  induction nodes with
  | nil => rfl
  | cons node nodes ih =>
    rw [List.map_cons, List.nodup_cons] at h
    rw [markEdited, List.map_cons]
    split_ifs with hn
    · have hsame : nodes.map (fun node => if node.id = n then
          { node with isApprovalTemplate := b, isEdited := true } else node) = nodes.map id := by
        refine List.map_congr_left fun node' hmem => if_neg fun he => h.1 ?_
        rw [hn, ← he]
        exact List.mem_map_of_mem hmem
      rw [hsame, List.map_id]
    · rw [ih h.2]

/-- What is drawn stays well formed when a node is edited. -/
theorem Sound.updateNode (h : Sound s) {n : ℕ} {b : Bool}
    (h' : Visualizer.updateNode s n b = some s') : Sound s' := by
  obtain ⟨-, h'⟩ := Option.ite_none_right_eq_some.mp h'
  cases h'
  rw [markEdited_eq_map h.chart.ids]
  have hid : ∀ node : Node, (if node.id = n then
      { node with isApprovalTemplate := b, isEdited := true } else node : Node).id = node.id := by
    intro node
    split_ifs <;> rfl
  have hdel : ∀ node : Node, (if node.id = n then { node with
      isApprovalTemplate := b, isEdited := true } else node : Node).isDeleted = node.isDeleted := by
    intro node
    split_ifs <;> rfl
  refine ⟨h.chart.congr hid hdel rfl rfl rfl, h.dialog.withNodes hid hdel fun node => ?_⟩
  split_ifs <;> rfl

theorem sound_of_reachable (hserver : WellStored server) (h : (editing server).Reachable s) :
    Sound s ∧ Loaded (fetchWorkflowNodes server) s.nodes := by
  refine h.invariant (I := fun s => Sound s ∧ Loaded (fetchWorkflowNodes server) s.nodes)
    (fun s hs => ?_) fun s e s' _ ⟨hsound, hloaded⟩ hstep => ?_
  · cases hs
    exact ⟨Sound.of_init ⟨_, hserver.loadable, rfl⟩, .generateNodes _⟩
  · cases e with
    | action a =>
      obtain ⟨ho, hs'⟩ := hstep
      obtain ⟨t, ht, hsound'⟩ := hsound.step ho
      refine ⟨Option.some.inj (ht.symm.trans hs') ▸ hsound', ?_⟩
      rcases nodes_visualizerReducer hs' with hk | ⟨b, heq⟩
      · exact hloaded.keeps hk
      · rw [heq]
        exact hloaded.append rfl
    | updateNode n b =>
      refine ⟨hsound.updateNode hstep.2, ?_⟩
      have hs' : Visualizer.updateNode s n b = some s' := hstep.2
      obtain ⟨-, hs'⟩ := Option.ite_none_right_eq_some.mp hs'
      cases hs'
      exact hloaded.keeps (keeps_markEdited n b s.nodes)

theorem reachable_edits {edits : List Edit}
    (h : System.runAll (System.guarded Edit.reduce fun s e => e.Offered s)
      (generateNodesAndLinks initReducer (fetchWorkflowNodes server)) edits = some s) :
    (editing server).Reachable s := by
  refine System.Reachable.runAll (fun e _ t t' ht => ?_) (.init rfl) h
  exact Option.ite_none_right_eq_some.mp ht

/-! ### An edited chart can be saved -/

namespace Loaded

variable {node : Node} {o : WorkflowNode} {k i : ℕ}

/-- What the chart recorded of a node is what the server holds. -/
theorem original_eq (h : Loaded (fetchWorkflowNodes server) nodes) (hmem : node ∈ nodes)
    (ho : node.originalNodeObject = some o) :
    o.id ∈ server.template.nodes ∧ o = readNode server o.id := by
  have hloaded : o ∈ fetchWorkflowNodes server :=
    h.originals ▸ List.mem_filterMap.mpr ⟨node, hmem, ho⟩
  obtain ⟨a, ha, rfl⟩ := List.mem_map.mp hloaded
  exact ⟨ha, rfl⟩

theorem exists_hasId (h : Loaded (fetchWorkflowNodes server) nodes)
    (hi : i ∈ server.template.nodes) :
    ∃ node ∈ nodes, node.originalNodeObject = some (readNode server i) := by
  have hloaded : readNode server i ∈ fetchWorkflowNodes server := List.mem_map_of_mem hi
  exact List.mem_filterMap.mp (h.originals ▸ hloaded)

theorem node_inj {node' : Node} {o' : WorkflowNode} (h : Loaded ws nodes)
    (hws : (ws.map WorkflowNode.id).Nodup) (hmem : node ∈ nodes) (hmem' : node' ∈ nodes)
    (ho : node.originalNodeObject = some o) (ho' : node'.originalNodeObject = some o')
    (hid : o.id = o'.id) : node = node' := by
  obtain rfl := h.originals
  clear h
  induction nodes with
  | nil => exact absurd hmem List.not_mem_nil
  | cons first nodes ih =>
    have hlater : ∀ {node : Node} {o : WorkflowNode}, node ∈ nodes →
        node.originalNodeObject = some o →
          o.id ∈ (nodes.filterMap Node.originalNodeObject).map WorkflowNode.id := fun hmem ho =>
      List.mem_map_of_mem (List.mem_filterMap.mpr ⟨_, hmem, ho⟩)
    rcases List.mem_cons.mp hmem with rfl | hin
    · rcases List.mem_cons.mp hmem' with rfl | hin'
      · rfl
      · rw [List.filterMap_cons_some ho, List.map_cons, List.nodup_cons] at hws
        exact absurd (hid ▸ hlater hin' ho') hws.1
    · rcases List.mem_cons.mp hmem' with rfl | hin'
      · rw [List.filterMap_cons_some ho', List.map_cons, List.nodup_cons] at hws
        exact absurd (hid ▸ hlater hin ho) hws.1
      · refine ih hin hin' (hws.sublist (List.Sublist.map _ ?_))
        exact (List.sublist_cons_self first nodes).filterMap _

theorem wellDrawn (h : Loaded (fetchWorkflowNodes server) s.nodes)
    (hchart : Chart s) : WellDrawn s.nodes s.links where
  ids := hchart.ids
  graph := hchart.graph
  unique := hchart.unique
  start i := by
    rintro ⟨node, hmem, h1, o, ho, -⟩
    exact nomatch (h.start node hmem h1).symm.trans ho
  inj k k' i := by
    rintro ⟨node, hmem, rfl, o, ho, rfl⟩ ⟨node', hmem', rfl, o', ho', hid⟩
    have hws : ((fetchWorkflowNodes server).map WorkflowNode.id).Nodup := by
      rw [ids_fetchWorkflowNodes]
      exact server.template.nodes_nodup
    rw [h.node_inj hws hmem hmem' ho ho' hid.symm]

theorem saveable (h : Loaded (fetchWorkflowNodes server) s.nodes) (hchart : Chart s) :
    Saveable server s.nodes s.links where
  drawn := h.wellDrawn hchart
  known n hn := by
    obtain ⟨node, hmem, ho⟩ := h.exists_hasId hn
    exact ⟨node.id, hasId_of_mem hmem ho⟩
  stored i := by
    rintro ⟨k, -, node, hmem, -, o, ho, rfl⟩
    exact (h.original_eq hmem ho).1
  issued k i := by
    rintro ⟨node, hmem, -, o, ho, rfl⟩
    exact server.issued _ (h.original_eq hmem ho).1
  covers := by
    refine ⟨fun t a b hab => ?_, fun t a b hr _ => ?_, fun t a b hr => ?_⟩
    · rintro ⟨k, hlive, node, hmem, rfl, o, ho, rfl⟩
      obtain ⟨hdel, hne⟩ := hlive.not_deleted hchart.ids hmem rfl
      refine .inl (recorded_originalLinkMap.mpr ⟨node, hmem, hne, hdel, o, ho, rfl, ?_⟩)
      rw [(h.original_eq hmem ho).2]
      exact mem_readNode.mpr hab
    · obtain ⟨node, hmem, -, -, o, ho, rfl, hb⟩ := recorded_originalLinkMap.mp hr
      rw [(h.original_eq hmem ho).2] at hb
      exact mem_readNode.mp hb
    · obtain ⟨node, hmem, -, -, o, ho, rfl, hb⟩ := recorded_originalLinkMap.mp hr
      rw [(h.original_eq hmem ho).2] at hb
      obtain ⟨node', hmem', ho'⟩ :=
        h.exists_hasId (server.template.edges_nodes _ _ (mem_readNode.mp hb)).2
      exact ⟨⟨node.id, hasId_of_mem hmem ho⟩, node'.id, hasId_of_mem hmem' ho'⟩
  approved node hmem o ho _ _ happr := by
    rw [(h.original_eq hmem ho).2] at happr
    exact happr
  plain node hmem o ho _ hedit happr := by
    have hsame := h.unedited node hmem o ho hedit
    rw [(h.original_eq hmem ho).2] at hsame
    exact hsame.symm.trans happr

end Loaded

/-- Whatever has been drawn, it can be saved. -/
theorem saveable_of_reachable (hserver : WellStored server) (h : (editing server).Reachable s) :
    Saveable server s.nodes s.links := by
  obtain ⟨hsound, hloaded⟩ := sound_of_reachable hserver h
  exact hloaded.saveable hsound.chart

end Forail.Visualizer
