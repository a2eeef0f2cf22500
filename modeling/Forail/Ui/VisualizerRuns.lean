import Forail.Base.Runs
import Forail.Ui.ChartNodes
import Forail.Ui.LoadedChart

/-! Sequences of the edits that the visualizer offers. A dialog is open for at most one of them at
a time, and what it refers to stays in the chart until it is answered. -/

namespace Forail.Visualizer

open Relation Acyclicity

/-- A dialog covers the chart. -/
def Modal (s : State) : Prop :=
  s.nodeToDelete.isSome ∨ s.linkToDelete.isSome ∨ s.linkToEdit.isSome ∨
    (s.addLinkSourceNode.isSome ∧ s.addLinkTargetNode.isSome) ∨ s.addNodeSource.isSome ∨
      s.showDeleteAllNodesModal

/-- The actions that the chart, the toolbar and the open dialog dispatch. While a link is drawn, no
link and no start node takes a click, and a node only one that makes it the target. -/
def Offered (s : State) : Action → Prop
  | .cancelLink => s.addingLink ∨ s.linkToEdit.isSome
  | .cancelNodeModal => s.addNodeSource.isSome
  | .createLink _ => s.addLinkSourceNode.isSome ∧ s.addLinkTargetNode.isSome
  | .createNode _ => s.addNodeSource.isSome
  | .deleteAllNodes => s.showDeleteAllNodesModal
  | .deleteLink => s.linkToDelete.isSome
  | .deleteNode => s.nodeToDelete.isSome
  | .selectSourceForLinking node => ¬ Modal s ∧ ¬ s.addingLink ∧ Live s.nodes node
  | .setAddLinkTargetNode node => ¬ Modal s ∧ s.addingLink ∧ s.addLinkSourceNode ≠ some node ∧
      ∃ n ∈ s.nodes, n.id = node ∧ n.isDeleted = false ∧ node ≠ 1 ∧ n.isInvalidLinkTarget = false
  | .setLinkToDelete link => s.linkToDelete.isSome ∧ link = none
  | .setLinkToEdit link => ¬ Modal s ∧ ¬ s.addingLink ∧
      ∃ l ∈ s.links, l.source ≠ 1 ∧ link = some l
  | .setNodeToDelete node => s.nodeToDelete.isSome ∧ node = none ∨
      ¬ Modal s ∧ ¬ s.addingLink ∧ ∃ n ∈ s.nodes, n.id ≠ 1 ∧ n.isDeleted = false ∧ node = some n.id
  | .setShowDeleteAllNodesModal value => ¬ Modal s ∧ value
  | .startAddNode sourceNodeId none => ¬ Modal s ∧
      (¬ s.addingLink ∧ (sourceNodeId = 1 ∨ Live s.nodes sourceNodeId) ∨
        s.links = [] ∧ sourceNodeId = 1)
  | .startAddNode sourceNodeId (some targetNodeId) => ¬ Modal s ∧ ¬ s.addingLink ∧
      Edge s.links sourceNodeId targetNodeId
  | .startDeleteLink link => ¬ Modal s ∧ ¬ s.addingLink ∧ link ∈ s.links ∧ link.source ≠ 1
  | .toggleDeleteAllNodesModal => s.showDeleteAllNodesModal
  | .updateLink _ => s.linkToEdit.isSome

instance {nodes : List Node} {n : ℕ} : Decidable (Live nodes n) :=
  inferInstanceAs (Decidable (∃ node ∈ nodes, node.id = n ∧ node.isDeleted = false ∧ n ≠ 1))

instance {links : List Link} {a b : ℕ} : Decidable (Edge links a b) :=
  inferInstanceAs (Decidable ((a, b) ∈ links.map Link.ends))

instance (s : State) : Decidable (Modal s) :=
  inferInstanceAs (Decidable (s.nodeToDelete.isSome ∨ s.linkToDelete.isSome ∨
    s.linkToEdit.isSome ∨ (s.addLinkSourceNode.isSome ∧ s.addLinkTargetNode.isSome) ∨
      s.addNodeSource.isSome ∨ s.showDeleteAllNodesModal))

instance (s : State) (a : Action) : Decidable (Offered s a) := by
  cases a with
  | startAddNode sourceNodeId targetNodeId =>
    cases targetNodeId <;> exact inferInstanceAs (Decidable (_ ∧ _))
  | cancelLink => exact inferInstanceAs (Decidable (_ ∨ _))
  | setNodeToDelete node => exact inferInstanceAs (Decidable (_ ∨ _))
  | createLink linkType => exact inferInstanceAs (Decidable (_ ∧ _))
  | selectSourceForLinking node => exact inferInstanceAs (Decidable (_ ∧ _))
  | setAddLinkTargetNode node => exact inferInstanceAs (Decidable (_ ∧ _))
  | setLinkToDelete link => exact inferInstanceAs (Decidable (_ ∧ _))
  | setLinkToEdit link => exact inferInstanceAs (Decidable (_ ∧ _))
  | setShowDeleteAllNodesModal value => exact inferInstanceAs (Decidable (_ ∧ _))
  | startDeleteLink link => exact inferInstanceAs (Decidable (_ ∧ _))
  | cancelNodeModal => exact inferInstanceAs (Decidable (_ = true))
  | createNode node => exact inferInstanceAs (Decidable (_ = true))
  | deleteAllNodes => exact inferInstanceAs (Decidable (_ = true))
  | deleteLink => exact inferInstanceAs (Decidable (_ = true))
  | deleteNode => exact inferInstanceAs (Decidable (_ = true))
  | toggleDeleteAllNodesModal => exact inferInstanceAs (Decidable (_ = true))
  | updateLink linkType => exact inferInstanceAs (Decidable (_ = true))

/-- The visualizer, from the nodes that it has loaded. -/
def visualizer : System State Action where
  init s := ∃ workflowNodes, Loadable workflowNodes ∧
    s = generateNodesAndLinks initReducer workflowNodes
  step s a s' := Offered s a ∧ visualizerReducer s a = some s'

/-! ### The open dialog -/

/-- Nothing is under way, but that all nodes may be about to be deleted. -/
structure Idle (s : State) : Prop where
  addNodeSource : s.addNodeSource = none
  linkToDelete : s.linkToDelete = none
  linkToEdit : s.linkToEdit = none
  nodeToDelete : s.nodeToDelete = none
  addLinkSourceNode : s.addLinkSourceNode = none
  addLinkTargetNode : s.addLinkTargetNode = none
  addingLink : s.addingLink = false

structure AddingNode (s : State) : Prop where
  idle : Idle { s with addNodeSource := none }
  shown : s.showDeleteAllNodesModal = false
  source : ∀ a, s.addNodeSource = some a → a = 1 ∨ Live s.nodes a
  target : ∀ a b, s.addNodeSource = some a → s.addNodeTarget = some b → Edge s.links a b

structure DeletingLink (s : State) : Prop where
  idle : Idle { s with linkToDelete := none }
  shown : s.showDeleteAllNodesModal = false
  link : ∀ l, s.linkToDelete = some l → Edge s.links l.source l.target ∧ l.source ≠ 1 ∧
    l.isConvergenceLink = decide ((parentsOf s.links l.target).length > 1)

structure EditingLink (s : State) : Prop where
  idle : Idle { s with linkToEdit := none }
  shown : s.showDeleteAllNodesModal = false

structure DeletingNode (s : State) : Prop where
  idle : Idle { s with nodeToDelete := none }
  shown : s.showDeleteAllNodesModal = false
  node : ∀ n, s.nodeToDelete = some n → Live s.nodes n

/-- Whatever is not marked can be linked to the source, and so can the target. -/
structure Linking (s : State) (a : ℕ) : Prop where
  idle : Idle { s with addLinkSourceNode := none, addLinkTargetNode := none, addingLink := false }
  source : s.addLinkSourceNode = some a
  adding : s.addingLink = true
  live : Live s.nodes a
  unmarked : ∀ node ∈ s.nodes, node.isInvalidLinkTarget = false → node.id ≠ a → node.id ≠ 1 →
    Linkable s.links a node.id
  target : ∀ t, s.addLinkTargetNode = some t →
    Live s.nodes t ∧ Linkable s.links a t ∧ s.showDeleteAllNodesModal = false

inductive Dialog (s : State) : Prop
  | idle (h : Idle s)
  | addingNode (h : AddingNode s)
  | deletingLink (h : DeletingLink s)
  | editingLink (h : EditingLink s)
  | deletingNode (h : DeletingNode s)
  | linking (a : ℕ) (h : Linking s a)

variable {s s' : State}

theorem not_isSome {α : Type} {o : Option α} (h : o = none) : ¬ o.isSome := by
  rw [h]
  exact Bool.false_ne_true

namespace Dialog

/-- Where the chart can be clicked, nothing is under way. -/
theorem quiet (hd : Dialog s) (hm : ¬ Modal s) (ha : ¬ s.addingLink) : Idle s := by
  have hnone : ∀ {α : Type} (o : Option α), ¬ o.isSome → o = none := fun o ho =>
    Option.not_isSome_iff_eq_none.mp ho
  cases hd with
  | idle h => exact h
  | addingNode h =>
    have ho := hnone s.addNodeSource fun ho => hm (.inr (.inr (.inr (.inr (.inl ho)))))
    exact ⟨ho, h.idle.2, h.idle.3, h.idle.4, h.idle.5, h.idle.6, h.idle.7⟩
  | deletingLink h =>
    have ho := hnone s.linkToDelete fun ho => hm (.inr (.inl ho))
    exact ⟨h.idle.1, ho, h.idle.3, h.idle.4, h.idle.5, h.idle.6, h.idle.7⟩
  | editingLink h =>
    have ho := hnone s.linkToEdit fun ho => hm (.inr (.inr (.inl ho)))
    exact ⟨h.idle.1, h.idle.2, ho, h.idle.4, h.idle.5, h.idle.6, h.idle.7⟩
  | deletingNode h =>
    have ho := hnone s.nodeToDelete fun ho => hm (.inl ho)
    exact ⟨h.idle.1, h.idle.2, h.idle.3, ho, h.idle.5, h.idle.6, h.idle.7⟩
  | linking a h => exact absurd h.adding ha

theorem toAddingNode (hd : Dialog s) (ho : s.addNodeSource.isSome) : AddingNode s := by
  cases hd with
  | idle h => exact absurd ho (not_isSome h.addNodeSource)
  | addingNode h => exact h
  | deletingLink h => exact absurd ho (not_isSome h.idle.addNodeSource)
  | editingLink h => exact absurd ho (not_isSome h.idle.addNodeSource)
  | deletingNode h => exact absurd ho (not_isSome h.idle.addNodeSource)
  | linking a h => exact absurd ho (not_isSome h.idle.addNodeSource)

theorem toDeletingLink (hd : Dialog s) (ho : s.linkToDelete.isSome) : DeletingLink s := by
  cases hd with
  | idle h => exact absurd ho (not_isSome h.linkToDelete)
  | addingNode h => exact absurd ho (not_isSome h.idle.linkToDelete)
  | deletingLink h => exact h
  | editingLink h => exact absurd ho (not_isSome h.idle.linkToDelete)
  | deletingNode h => exact absurd ho (not_isSome h.idle.linkToDelete)
  | linking a h => exact absurd ho (not_isSome h.idle.linkToDelete)

theorem toEditingLink (hd : Dialog s) (ho : s.linkToEdit.isSome) : EditingLink s := by
  cases hd with
  | idle h => exact absurd ho (not_isSome h.linkToEdit)
  | addingNode h => exact absurd ho (not_isSome h.idle.linkToEdit)
  | deletingLink h => exact absurd ho (not_isSome h.idle.linkToEdit)
  | editingLink h => exact h
  | deletingNode h => exact absurd ho (not_isSome h.idle.linkToEdit)
  | linking a h => exact absurd ho (not_isSome h.idle.linkToEdit)

theorem toDeletingNode (hd : Dialog s) (ho : s.nodeToDelete.isSome) : DeletingNode s := by
  cases hd with
  | idle h => exact absurd ho (not_isSome h.nodeToDelete)
  | addingNode h => exact absurd ho (not_isSome h.idle.nodeToDelete)
  | deletingLink h => exact absurd ho (not_isSome h.idle.nodeToDelete)
  | editingLink h => exact absurd ho (not_isSome h.idle.nodeToDelete)
  | deletingNode h => exact h
  | linking a h => exact absurd ho (not_isSome h.idle.nodeToDelete)

theorem toLinking (hd : Dialog s) (ho : s.addingLink ∨ s.addLinkSourceNode.isSome) :
    ∃ a, Linking s a := by
  have hnot : s.addingLink = false → s.addLinkSourceNode = none → False := by
    intro ha hs
    rw [ha, hs] at ho
    exact ho.elim Bool.false_ne_true Bool.false_ne_true
  cases hd with
  | idle h => exact (hnot h.addingLink h.addLinkSourceNode).elim
  | addingNode h => exact (hnot h.idle.addingLink h.idle.addLinkSourceNode).elim
  | deletingLink h => exact (hnot h.idle.addingLink h.idle.addLinkSourceNode).elim
  | editingLink h => exact (hnot h.idle.addingLink h.idle.addLinkSourceNode).elim
  | deletingNode h => exact (hnot h.idle.addingLink h.idle.addLinkSourceNode).elim
  | linking a h => exact ⟨a, h⟩

/-- All nodes can be about to be deleted while a link is drawn, but only before it has a target. -/
theorem of_shown (hd : Dialog s) (ho : s.showDeleteAllNodesModal) :
    Idle s ∨ ∃ a, Linking s a ∧ s.addLinkTargetNode = none := by
  cases hd with
  | idle h => exact .inl h
  | addingNode h => exact absurd (h.shown.symm.trans ho) Bool.false_ne_true
  | deletingLink h => exact absurd (h.shown.symm.trans ho) Bool.false_ne_true
  | editingLink h => exact absurd (h.shown.symm.trans ho) Bool.false_ne_true
  | deletingNode h => exact absurd (h.shown.symm.trans ho) Bool.false_ne_true
  | linking a h =>
    refine .inr ⟨a, h, Option.eq_none_iff_forall_ne_some.mpr fun t ht => ?_⟩
    exact Bool.false_ne_true ((h.target t ht).2.2.symm.trans ho)

end Dialog

/-! ### One action -/

structure Sound (s : State) : Prop where
  chart : Chart s
  dialog : Dialog s

namespace Sound

theorem startAddNode (h : Sound s) {a : ℕ} {t : Option ℕ} (ho : Offered s (.startAddNode a t)) :
    Sound { s with addNodeSource := some a, addNodeTarget := t } := by
  have hadding : ¬ Modal s ∧ (a = 1 ∨ Live s.nodes a) ∧ (∀ b, t = some b → Edge s.links a b) ∧
      (¬ s.addingLink ∨ s.links = []) := by
    cases t with
    | none =>
      obtain ⟨hm, ⟨ha, hlive⟩ | ⟨hnil, ha⟩⟩ := ho
      · exact ⟨hm, hlive, (fun _ hb => nomatch hb), .inl ha⟩
      · exact ⟨hm, .inl ha, (fun _ hb => nomatch hb), .inr hnil⟩
    | some b =>
      obtain ⟨hm, ha, hab⟩ := ho
      exact ⟨hm, h.chart.graph.source a b hab, fun b' hb => Option.some.inj hb ▸ hab, .inl ha⟩
  obtain ⟨hm, hlive, htarget, ha⟩ := hadding
  have ha : ¬ s.addingLink := by
    rcases ha with ha | hnil
    · exact ha
    · -- the source of a link would have a link to it
      intro ha
      obtain ⟨b, hb⟩ := h.dialog.toLinking (.inl ha)
      obtain ⟨p, hp⟩ := h.chart.graph.parent b hb.live
      rw [hnil] at hp
      exact List.not_mem_nil hp
  have hidle := h.dialog.quiet hm ha
  have hshown : s.showDeleteAllNodesModal = false :=
    Bool.eq_false_iff.mpr fun ht => hm (.inr (.inr (.inr (.inr (.inr ht)))))
  refine ⟨h.chart.congr (f := id) (fun _ => rfl) (fun _ => rfl) (List.map_id _).symm rfl rfl,
    .addingNode ⟨⟨rfl, hidle.2, hidle.3, hidle.4, hidle.5, hidle.6, hidle.7⟩, hshown, ?_, ?_⟩⟩
  · intro a' ha'
    exact Option.some.inj ha' ▸ hlive
  · intro a' b ha' hb
    exact Option.some.inj ha' ▸ htarget b hb

theorem cancelNodeModal (h : Sound s) (ho : Offered s .cancelNodeModal) :
    Sound { s with addNodeSource := none, addNodeTarget := none } := by
  have hd := (h.dialog.toAddingNode ho).idle
  exact ⟨h.chart.congr (f := id) (fun _ => rfl) (fun _ => rfl) (List.map_id _).symm rfl rfl,
    .idle ⟨rfl, hd.2, hd.3, hd.4, hd.5, hd.6, hd.7⟩⟩

theorem createNode (h : Sound s) {node : NewNode} (ho : Offered s (.createNode node)) :
    ∃ s', Visualizer.createNode s node = some s' ∧ Sound s' := by
  have hd := h.dialog.toAddingNode ho
  obtain ⟨a, ha⟩ := Option.isSome_iff_exists.mp ho
  obtain ⟨s', hs'⟩ : ∃ s', Visualizer.createNode s node = some s' := by
    rw [Visualizer.createNode, ha]
    exact ⟨_, rfl⟩
  refine ⟨s', hs', h.chart.createNode ha (hd.source a ha) (fun b => hd.target a b ha) hs', .idle ?_⟩
  rw [Visualizer.createNode, ha] at hs'
  cases hs'
  exact ⟨rfl, hd.idle.2, hd.idle.3, hd.idle.4, hd.idle.5, hd.idle.6, hd.idle.7⟩

theorem selectSource (h : Sound s) {a : ℕ} (ho : Offered s (.selectSourceForLinking a)) :
    ∃ s', selectSourceForLinking s a = some s' ∧ Sound s' := by
  obtain ⟨hm, ha, hlive⟩ := ho
  have hidle := h.dialog.quiet hm ha
  have hne : a ≠ 1 := hlive.choose_spec.2.2.2
  obtain ⟨s', f, hs', heq, hf, hmarks⟩ := h.chart.selectSource hne
  refine ⟨s', hs', ?_, .linking a ?_⟩
  · rw [heq]
    exact h.chart.congr (fun node => (hf node).1) (fun node => (hf node).2) rfl rfl rfl
  · rw [heq]
    refine ⟨⟨hidle.1, hidle.2, hidle.3, hidle.4, rfl, rfl, rfl⟩, rfl, rfl, ?_, ?_, ?_⟩
    · exact (live_map (fun node => (hf node).1) fun node => (hf node).2).mpr hlive
    · intro node hmem hmark hna hn1
      obtain ⟨node', hmem', rfl⟩ := List.mem_map.mp hmem
      rw [(hf node').1] at hna hn1 ⊢
      exact hmarks node' hmem' hmark hna hn1
    · intro t ht
      have hnone : s.addLinkTargetNode = none := hidle.6
      exact absurd (hnone.symm.trans ht) (nomatch ·)

theorem setAddLinkTarget (h : Sound s) {t : ℕ} (ho : Offered s (.setAddLinkTargetNode t)) :
    Sound { s with addLinkTargetNode := some t } := by
  obtain ⟨hm, ha, hne, node, hmem, rfl, hdel, hn1, hmark⟩ := ho
  obtain ⟨a, hd⟩ := h.dialog.toLinking (.inl ha)
  have hna : node.id ≠ a := fun he => hne (he ▸ hd.source)
  have hshown : s.showDeleteAllNodesModal = false :=
    Bool.eq_false_iff.mpr fun ht => hm (.inr (.inr (.inr (.inr (.inr ht)))))
  refine ⟨h.chart.congr (f := id) (fun _ => rfl) (fun _ => rfl) (List.map_id _).symm rfl rfl,
    .linking a ⟨⟨hd.idle.1, hd.idle.2, hd.idle.3, hd.idle.4, rfl, rfl, rfl⟩, hd.source, hd.adding,
      hd.live, hd.unmarked, fun t ht => ?_⟩⟩
  cases ht
  exact ⟨⟨node, hmem, rfl, hdel, hn1⟩, hd.unmarked node hmem hmark hna hn1, hshown⟩

theorem createLink (h : Sound s) {linkType : LinkType} (ho : Offered s (.createLink linkType)) :
    ∃ s', Visualizer.createLink s linkType = some s' ∧ Sound s' := by
  obtain ⟨a, hd⟩ := h.dialog.toLinking (.inr ho.1)
  obtain ⟨t, ht⟩ := Option.isSome_iff_exists.mp ho.2
  obtain ⟨hlive, hlink, -⟩ := hd.target t ht
  obtain ⟨s', hs'⟩ : ∃ s', Visualizer.createLink s linkType = some s' := by
    rw [Visualizer.createLink, hd.source, ht]
    exact ⟨_, rfl⟩
  refine ⟨s', hs', h.chart.createLink hd.live hlive hlink.noEdge hlink.noPath hd.source ht hs',
    .idle ?_⟩
  rw [Visualizer.createLink, hd.source, ht] at hs'
  cases hs'
  exact ⟨hd.idle.1, hd.idle.2, rfl, hd.idle.4, rfl, rfl, rfl⟩

theorem cancelLink (h : Sound s) (ho : Offered s .cancelLink) : Sound (cancelLink s) := by
  refine ⟨h.chart.congr (f := fun node => { node with isInvalidLinkTarget := false })
    (fun _ => rfl) (fun _ => rfl) rfl rfl rfl, .idle ?_⟩
  rcases ho with ha | he
  · obtain ⟨a, hd⟩ := h.dialog.toLinking (.inl ha)
    exact ⟨hd.idle.1, hd.idle.2, rfl, hd.idle.4, rfl, rfl, rfl⟩
  · have hd := (h.dialog.toEditingLink he).idle
    exact ⟨hd.1, hd.2, rfl, hd.4, rfl, rfl, rfl⟩

theorem startDeleteLink (h : Sound s) {l : Link} (ho : Offered s (.startDeleteLink l)) :
    Sound (startDeleteLink s l) := by
  obtain ⟨hm, ha, hmem, hne⟩ := ho
  have hidle := h.dialog.quiet hm ha
  have hshown : s.showDeleteAllNodesModal = false :=
    Bool.eq_false_iff.mpr fun ht => hm (.inr (.inr (.inr (.inr (.inr ht)))))
  refine ⟨h.chart.congr (f := id) (fun _ => rfl) (fun _ => rfl) (List.map_id _).symm rfl rfl,
    .deletingLink ⟨⟨hidle.1, rfl, hidle.3, hidle.4, hidle.5, hidle.6, hidle.7⟩, hshown,
      fun l' hl' => ?_⟩⟩
  cases hl'
  have hedge : Edge s.links l.source l.target := Edge.of_mem hmem
  exact ⟨hedge, hne, rfl⟩

theorem cancelDeleteLink (h : Sound s) (ho : s.linkToDelete.isSome) :
    Sound { s with linkToDelete := none } := by
  have hd := (h.dialog.toDeletingLink ho).idle
  exact ⟨h.chart.congr (f := id) (fun _ => rfl) (fun _ => rfl) (List.map_id _).symm rfl rfl,
    .idle ⟨hd.1, rfl, hd.3, hd.4, hd.5, hd.6, hd.7⟩⟩

theorem deleteLink (h : Sound s) (ho : Offered s .deleteLink) :
    ∃ s', Visualizer.deleteLink s = some s' ∧ Sound s' := by
  have hd := h.dialog.toDeletingLink ho
  obtain ⟨l, hl⟩ := Option.isSome_iff_exists.mp ho
  obtain ⟨hedge, hne, hconv⟩ := hd.link l hl
  obtain ⟨s', hs'⟩ : ∃ s', Visualizer.deleteLink s = some s' := by
    rw [Visualizer.deleteLink, hl]
    exact ⟨_, rfl⟩
  refine ⟨s', hs', h.chart.deleteLink hl hedge hne hconv hs', .idle ?_⟩
  rw [Visualizer.deleteLink, hl] at hs'
  cases hs'
  exact ⟨hd.idle.1, rfl, hd.idle.3, hd.idle.4, hd.idle.5, hd.idle.6, hd.idle.7⟩

theorem setLinkToEdit (h : Sound s) {link : Option Link} (ho : Offered s (.setLinkToEdit link)) :
    Sound { s with linkToEdit := link } := by
  obtain ⟨hm, ha, -⟩ := ho
  have hidle := h.dialog.quiet hm ha
  have hshown : s.showDeleteAllNodesModal = false :=
    Bool.eq_false_iff.mpr fun ht => hm (.inr (.inr (.inr (.inr (.inr ht)))))
  exact ⟨h.chart.congr (f := id) (fun _ => rfl) (fun _ => rfl) (List.map_id _).symm rfl rfl,
    .editingLink ⟨⟨hidle.1, hidle.2, rfl, hidle.4, hidle.5, hidle.6, hidle.7⟩, hshown⟩⟩

theorem updateLink (h : Sound s) {linkType : LinkType} (ho : Offered s (.updateLink linkType)) :
    ∃ s', Visualizer.updateLink s linkType = some s' ∧ Sound s' := by
  have hd := (h.dialog.toEditingLink ho).idle
  obtain ⟨l, hl⟩ := Option.isSome_iff_exists.mp ho
  obtain ⟨s', hs'⟩ : ∃ s', Visualizer.updateLink s linkType = some s' := by
    rw [Visualizer.updateLink, hl]
    exact ⟨_, rfl⟩
  refine ⟨s', hs', h.chart.updateLink hs', .idle ?_⟩
  rw [Visualizer.updateLink, hl] at hs'
  cases hs'
  exact ⟨hd.1, hd.2, rfl, hd.4, hd.5, hd.6, hd.7⟩

theorem setNodeToDelete (h : Sound s) {node : Option ℕ} (ho : Offered s (.setNodeToDelete node)) :
    Sound { s with nodeToDelete := node } := by
  refine ⟨h.chart.congr (f := id) (fun _ => rfl) (fun _ => rfl) (List.map_id _).symm rfl rfl, ?_⟩
  rcases ho with ⟨ho, rfl⟩ | ⟨hm, ha, n, hmem, hn1, hdel, rfl⟩
  · have hd := (h.dialog.toDeletingNode ho).idle
    exact .idle ⟨hd.1, hd.2, hd.3, rfl, hd.5, hd.6, hd.7⟩
  · have hidle := h.dialog.quiet hm ha
    have hshown : s.showDeleteAllNodesModal = false :=
      Bool.eq_false_iff.mpr fun ht => hm (.inr (.inr (.inr (.inr (.inr ht)))))
    refine .deletingNode ⟨⟨hidle.1, hidle.2, hidle.3, rfl, hidle.5, hidle.6, hidle.7⟩, hshown,
      fun n' hn' => ?_⟩
    cases hn'
    exact ⟨n, hmem, rfl, hdel, hn1⟩

theorem deleteNode (h : Sound s) (ho : Offered s .deleteNode) :
    ∃ s', Visualizer.deleteNode s = some s' ∧ Sound s' := by
  have hd := h.dialog.toDeletingNode ho
  obtain ⟨n, hn⟩ := Option.isSome_iff_exists.mp ho
  have hlive := hd.node n hn
  obtain ⟨s', hs'⟩ : ∃ s', Visualizer.deleteNode s = some s' := by
    rw [Visualizer.deleteNode, hn, Option.bind_some, if_pos hlive.mem_ids]
    exact ⟨_, rfl⟩
  refine ⟨s', hs', h.chart.deleteNode hn hlive hs', .idle ?_⟩
  rw [Visualizer.deleteNode, hn, Option.bind_some, if_pos hlive.mem_ids] at hs'
  cases hs'
  exact ⟨hd.idle.1, hd.idle.2, hd.idle.3, rfl, hd.idle.5, hd.idle.6, hd.idle.7⟩

/-- The dialog over all nodes opens and closes. -/
theorem setShow (h : Sound s) (v : Bool) (ho : ¬ Modal s ∨ s.showDeleteAllNodesModal) :
    Sound { s with showDeleteAllNodesModal := v } := by
  refine ⟨h.chart.congr (f := id) (fun _ => rfl) (fun _ => rfl) (List.map_id _).symm rfl rfl, ?_⟩
  have hcases : Idle s ∨ ∃ a, Linking s a ∧ s.addLinkTargetNode = none := by
    rcases ho with hm | ho
    · by_cases ha : s.addingLink = true
      · obtain ⟨a, hd⟩ := h.dialog.toLinking (.inl ha)
        refine .inr ⟨a, hd, Option.not_isSome_iff_eq_none.mp fun ht => hm ?_⟩
        exact .inr (.inr (.inr (.inl ⟨Option.isSome_iff_exists.mpr ⟨a, hd.source⟩, ht⟩)))
      · exact .inl (h.dialog.quiet hm ha)
    · exact h.dialog.of_shown ho
  rcases hcases with hidle | ⟨a, hd, hnone⟩
  · exact .idle ⟨hidle.1, hidle.2, hidle.3, hidle.4, hidle.5, hidle.6, hidle.7⟩
  · refine .linking a ⟨⟨hd.idle.1, hd.idle.2, hd.idle.3, hd.idle.4, rfl, rfl, rfl⟩, hd.source,
      hd.adding, hd.live, hd.unmarked, fun t ht => ?_⟩
    exact absurd (hnone.symm.trans ht) (nomatch ·)

theorem deleteAllNodes (h : Sound s) (ho : Offered s .deleteAllNodes) :
    Sound (deleteAllNodes s) := by
  refine ⟨h.chart.deleteAllNodes, .idle ?_⟩
  rcases h.dialog.of_shown ho with hidle | ⟨a, hd, -⟩
  · exact ⟨hidle.1, hidle.2, hidle.3, hidle.4, rfl, rfl, rfl⟩
  · exact ⟨hd.idle.1, hd.idle.2, hd.idle.3, hd.idle.4, rfl, rfl, rfl⟩

/-- Every action that is offered has a result, and the result is sound again. -/
theorem step (h : Sound s) {a : Action} (ho : Offered s a) :
    ∃ s', visualizerReducer s a = some s' ∧ Sound s' := by
  cases a with
  | cancelLink => exact ⟨_, rfl, h.cancelLink ho⟩
  | cancelNodeModal => exact ⟨_, rfl, h.cancelNodeModal ho⟩
  | createLink linkType => exact h.createLink ho
  | createNode node => exact h.createNode ho
  | deleteAllNodes => exact ⟨_, rfl, h.deleteAllNodes ho⟩
  | deleteLink => exact h.deleteLink ho
  | deleteNode => exact h.deleteNode ho
  | selectSourceForLinking node => exact h.selectSource ho
  | setAddLinkTargetNode node => exact ⟨_, rfl, h.setAddLinkTarget ho⟩
  | setLinkToDelete link =>
    obtain ⟨ho, rfl⟩ := ho
    exact ⟨_, rfl, h.cancelDeleteLink ho⟩
  | setLinkToEdit link => exact ⟨_, rfl, h.setLinkToEdit ho⟩
  | setNodeToDelete node => exact ⟨_, rfl, h.setNodeToDelete ho⟩
  | setShowDeleteAllNodesModal value => exact ⟨_, rfl, h.setShow value (.inl ho.1)⟩
  | startAddNode sourceNodeId targetNodeId => exact ⟨_, rfl, h.startAddNode ho⟩
  | startDeleteLink link => exact ⟨_, rfl, h.startDeleteLink ho⟩
  | toggleDeleteAllNodesModal => exact ⟨_, rfl, h.setShow _ (.inr ho)⟩
  | updateLink linkType => exact h.updateLink ho

/-! ### All runs -/

theorem of_init (h : visualizer.init s) : Sound s := by
  obtain ⟨ws, hws, rfl⟩ := h
  exact ⟨chart_generateNodesAndLinks hws, .idle ⟨rfl, rfl, rfl, rfl, rfl, rfl, rfl⟩⟩

theorem of_reachable (h : visualizer.Reachable s) : Sound s := by
  refine h.invariant (fun _ hs => of_init hs) fun s a s' _ hsound hstep => ?_
  obtain ⟨t, ht, hsound'⟩ := hsound.step hstep.1
  exact Option.some.inj (ht.symm.trans hstep.2) ▸ hsound'

end Sound

/-- After every sequence of offered edits the chart is well formed, and every edit that is offered
next succeeds. -/
theorem chart_wellFormed (h : visualizer.Reachable s) :
    (∀ l ∈ s.links, (l.source = 1 ∨ Live s.nodes l.source) ∧ Live s.nodes l.target) ∧
      (s.links.map fun l => (l.source, l.target)).Nodup ∧
      (∀ n, ¬ TransGen (Edge s.links) n n) ∧
      (∀ n, Live s.nodes n → (∃ l ∈ s.links, l.target = n) ∧
        ((∃ l ∈ s.links, l.source = 1 ∧ l.target = n) ↔
          ¬ ∃ l ∈ s.links, l.source ≠ 1 ∧ l.target = n)) ∧
      ∀ a, Offered s a → ∃ s', visualizerReducer s a = some s' := by
  have hsound := Sound.of_reachable h
  have hgraph := hsound.chart.graph
  refine ⟨fun l hl => ?_, hsound.chart.unique, hgraph.acyclic, fun n hn => ⟨?_, ?_⟩, fun a ho => ?_⟩
  · exact ⟨hgraph.source _ _ (Edge.of_mem hl), hgraph.target _ _ (Edge.of_mem hl)⟩
  · obtain ⟨p, hp⟩ := hgraph.parent n hn
    obtain ⟨l, hl, -, htarget⟩ := edge_iff.mp hp
    exact ⟨l, hl, htarget⟩
  · rw [← edge_iff, hgraph.root_iff hn]
    refine not_congr ⟨?_, ?_⟩
    · rintro ⟨p, hp, hpn⟩
      obtain ⟨l, hl, rfl, htarget⟩ := edge_iff.mp hpn
      exact ⟨l, hl, hp, htarget⟩
    · rintro ⟨l, hl, hne, rfl⟩
      exact ⟨l.source, hne, Edge.of_mem hl⟩
  · obtain ⟨s', hs', -⟩ := hsound.step ho
    exact ⟨s', hs'⟩

theorem reachable_runAll {ws : List WorkflowNode} (hws : Loadable ws) {actions : List Action}
    (h : System.runAll (System.guarded visualizerReducer Offered)
      (generateNodesAndLinks initReducer ws) actions = some s) : visualizer.Reachable s := by
  refine System.Reachable.runAll (fun a _ t t' ht => ?_) (.init ⟨ws, hws, rfl⟩) h
  exact Option.ite_none_right_eq_some.mp ht

/-- A node goes between two others, which are linked besides; then it is deleted again. -/
theorem chart_wellFormed_edited : ∃ s, visualizer.Reachable s ∧
    s.links.map (fun l => (l.source, l.target, l.linkType)) =
      [(1, 2, .always), (2, 3, .failure)] ∧
    (∀ l ∈ s.links, (l.source = 1 ∨ Live s.nodes l.source) ∧ Live s.nodes l.target) ∧
      (s.links.map fun l => (l.source, l.target)).Nodup ∧
      (∀ n, ¬ TransGen (Edge s.links) n n) ∧
      (∀ n, Live s.nodes n → (∃ l ∈ s.links, l.target = n) ∧
        ((∃ l ∈ s.links, l.source = 1 ∧ l.target = n) ↔
          ¬ ∃ l ∈ s.links, l.source ≠ 1 ∧ l.target = n)) ∧
      ∀ a, Offered s a → ∃ s', visualizerReducer s a = some s' := by
  have hloadable : Loadable [⟨10, [20], [], [], false⟩, ⟨20, [], [], [], false⟩] := by
    refine ⟨by decide, by decide, by decide, acyclic_of_rank id fun a b => ?_⟩
    rintro ⟨node, hnode, rfl, hb⟩
    simp only [List.mem_cons, List.not_mem_nil, or_false] at hnode
    rcases hnode with rfl | rfl
    · rw [List.mem_singleton.mp hb]
      decide
    · cases hb
  obtain ⟨s, hs, hlinks⟩ : ∃ s, System.runAll (System.guarded visualizerReducer Offered)
      (generateNodesAndLinks initReducer [⟨10, [20], [], [], false⟩, ⟨20, [], [], [], false⟩])
      [.startAddNode 2 (some 3), .createNode ⟨false, .success⟩, .selectSourceForLinking 2,
        .setAddLinkTargetNode 3, .createLink .failure, .setNodeToDelete (some 4), .deleteNode] =
      some s ∧ s.links.map (fun l => (l.source, l.target, l.linkType)) =
        [(1, 2, .always), (2, 3, .failure)] :=
    System.exists_of_runAll (by decide)
  have hreachable := reachable_runAll hloadable hs
  exact ⟨s, hreachable, hlinks, chart_wellFormed hreachable⟩

end Forail.Visualizer
