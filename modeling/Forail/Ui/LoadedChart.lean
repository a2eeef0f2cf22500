import Forail.Ui.ChartGraph

/-! The chart that is generated from the nodes of a workflow template. -/

namespace Forail.Visualizer

open Relation Acyclicity

/-- The nodes of a workflow: their children are among them, with at most one edge from a node to
another, and there is no cycle. -/
structure Loadable (workflowNodes : List WorkflowNode) : Prop where
  ids : (workflowNodes.map WorkflowNode.id).Nodup
  closed : ∀ node ∈ workflowNodes, ∀ c ∈ node.children, c ∈ workflowNodes.map WorkflowNode.id
  once : ∀ node ∈ workflowNodes, node.children.Nodup
  acyclic : Acyclic fun a b => ∃ node ∈ workflowNodes, node.id = a ∧ b ∈ node.children

variable {ws : List WorkflowNode}

theorem chartId_inj {a b : ℕ} (ha : a ∈ ws.map WorkflowNode.id) :
    chartId ws a = chartId ws b ↔ a = b := by
  constructor
  · intro h
    exact (List.idxOf_inj ha).mp (Nat.add_right_cancel h)
  · rintro rfl
    rfl

theorem chartId_ne_one (a : ℕ) : chartId ws a ≠ 1 := by
  unfold chartId
  omega

theorem chartId_lt {a : ℕ} (ha : a ∈ ws.map WorkflowNode.id) : chartId ws a < ws.length + 2 := by
  have h := List.idxOf_lt_length_of_mem ha
  rw [List.length_map] at h
  unfold chartId
  omega

/-! ### The links -/

theorem ends_generateLinks : (generateLinks ws).map Link.ends = ws.flatMap fun node =>
    node.children.map fun c => (chartId ws node.id, chartId ws c) := by
  rw [generateLinks, List.map_flatMap]
  refine List.flatMap_congr fun node _ => ?_
  simp only [WorkflowNode.children, List.map_append, List.map_map]
  rfl

theorem edge_generateLinks {x y : ℕ} : Edge (generateLinks ws) x y ↔
    ∃ node ∈ ws, ∃ c ∈ node.children, x = chartId ws node.id ∧ y = chartId ws c := by
  simp only [Edge, ends_generateLinks, List.mem_flatMap, List.mem_map, Prod.mk.injEq]
  constructor
  · rintro ⟨node, hnode, c, hc, rfl, rfl⟩
    exact ⟨node, hnode, c, hc, rfl, rfl⟩
  · rintro ⟨node, hnode, c, hc, rfl, rfl⟩
    exact ⟨node, hnode, c, hc, rfl, rfl⟩

theorem nodup_generateLinks (h : Loadable ws) : ((generateLinks ws).map Link.ends).Nodup := by
  rw [ends_generateLinks, List.nodup_flatMap]
  constructor
  · intro node hnode
    refine List.Nodup.map_on ?_ (h.once node hnode)
    intro c hc c' _ heq
    exact (chartId_inj (h.closed node hnode c hc)).mp (congrArg Prod.snd heq)
  · refine (List.pairwise_map.mp h.ids).imp_of_mem fun {a b} ha _ hab e hea heb => hab ?_
    obtain ⟨c, -, rfl⟩ := List.mem_map.mp hea
    obtain ⟨c', -, heq⟩ := List.mem_map.mp heb
    exact (chartId_inj (List.mem_map_of_mem ha)).mp (congrArg Prod.fst heq).symm

/-- The links between nodes repeat the edges of the workflow. -/
theorem acyclic_generateLinks (h : Loadable ws) : Acyclic (Edge (generateLinks ws)) := by
  have hpath : ∀ x y, TransGen (Edge (generateLinks ws)) x y → ∃ a b, a ∈ ws.map WorkflowNode.id ∧
      x = chartId ws a ∧ y = chartId ws b ∧
      TransGen (fun a b => ∃ node ∈ ws, node.id = a ∧ b ∈ node.children) a b := by
    intro x y hxy
    induction hxy with
    | single hxy =>
      obtain ⟨node, hnode, c, hc, rfl, rfl⟩ := edge_generateLinks.mp hxy
      exact ⟨node.id, c, List.mem_map_of_mem hnode, rfl, rfl, .single ⟨node, hnode, rfl, hc⟩⟩
    | tail _ hyz ih =>
      obtain ⟨a, b, ha, rfl, rfl, hab⟩ := ih
      obtain ⟨node, hnode, c, hc, hb, rfl⟩ := edge_generateLinks.mp hyz
      have heq : node.id = b := (chartId_inj (List.mem_map_of_mem hnode)).mp hb.symm
      exact ⟨a, c, ha, rfl, rfl, hab.tail ⟨node, hnode, heq, hc⟩⟩
  intro x hx
  obtain ⟨a, b, ha, hxa, hxb, hab⟩ := hpath x x hx
  have heq : a = b := (chartId_inj ha).mp (hxa.symm.trans hxb)
  exact h.acyclic a (heq ▸ hab)

/-! ### The chart -/

theorem live_generateNodes {n : ℕ} : Live (generateNodes ws) n ↔
    ∃ a ∈ ws.map WorkflowNode.id, n = chartId ws a := by
  constructor
  · rintro ⟨node, hmem, rfl, -, hne⟩
    rcases List.mem_cons.mp hmem with rfl | hmem
    · exact absurd rfl hne
    · obtain ⟨w, hw, rfl⟩ := List.mem_map.mp hmem
      exact ⟨w.id, List.mem_map_of_mem hw, rfl⟩
  · rintro ⟨a, ha, rfl⟩
    obtain ⟨w, hw, rfl⟩ := List.mem_map.mp ha
    exact ⟨_, List.mem_cons_of_mem _ (List.mem_map_of_mem hw), rfl, rfl, chartId_ne_one _⟩

theorem nodup_generateNodes (h : Loadable ws) : ((generateNodes ws).map Node.id).Nodup := by
  rw [generateNodes, List.map_cons, List.map_map, List.nodup_cons]
  constructor
  · intro hmem
    obtain ⟨w, -, hw⟩ := List.mem_map.mp hmem
    exact chartId_ne_one w.id hw
  · refine List.Nodup.map_on ?_ h.ids.of_map
    intro w hw w' hw' heq
    exact List.inj_on_of_nodup_map h.ids hw hw'
      ((chartId_inj (List.mem_map_of_mem hw)).mp heq)

theorem chart_generateNodesAndLinks (h : Loadable ws) :
    Chart (generateNodesAndLinks initReducer ws) where
  graph := by
    have hedge : ∀ x y, Edge (generateNodesAndLinks initReducer ws).links x y ↔
        Edge (generateLinks ws) x y ∨ x = 1 ∧ ∃ a ∈ ws.map WorkflowNode.id,
          a ∉ nonRootNodeIds ws ∧ y = chartId ws a := by
      intro x y
      rw [generateNodesAndLinks, edge_append]
      refine or_congr_right ?_
      simp only [edge_iff, List.mem_map, List.mem_filter, decide_eq_true_eq]
      constructor
      · rintro ⟨l, ⟨a, ⟨ha, hroot⟩, rfl⟩, rfl, rfl⟩
        exact ⟨rfl, a, ha, hroot, rfl⟩
      · rintro ⟨rfl, a, ha, hroot, rfl⟩
        exact ⟨_, ⟨a, ⟨ha, hroot⟩, rfl⟩, rfl, rfl⟩
    have htarget : ∀ x y, Edge (generateLinks ws) x y → ∃ c ∈ ws.map WorkflowNode.id,
        c ∈ nonRootNodeIds ws ∧ y = chartId ws c := by
      intro x y hxy
      obtain ⟨node, hnode, c, hc, -, rfl⟩ := edge_generateLinks.mp hxy
      exact ⟨c, h.closed node hnode c hc, List.mem_flatMap.mpr ⟨node, hnode, hc⟩, rfl⟩
    have hsource : ∀ x y, Edge (generateLinks ws) x y → ∃ a ∈ ws.map WorkflowNode.id,
        x = chartId ws a := by
      intro x y hxy
      obtain ⟨node, hnode, c, -, rfl, -⟩ := edge_generateLinks.mp hxy
      exact ⟨node.id, List.mem_map_of_mem hnode, rfl⟩
    have hnot : ∀ y, ¬ Edge (generateLinks ws) 1 y := fun y hy => by
      obtain ⟨a, -, ha⟩ := hsource 1 y hy
      exact chartId_ne_one a ha.symm
    constructor
    · rintro ⟨node, -, -, -, hne⟩
      exact hne rfl
    · intro x y hxy
      rcases (hedge x y).mp hxy with hxy | ⟨rfl, -⟩
      · exact .inr (live_generateNodes.mpr (hsource x y hxy))
      · exact .inl rfl
    · intro x y hxy
      rcases (hedge x y).mp hxy with hxy | ⟨-, a, ha, -, hy⟩
      · obtain ⟨c, hc, -, hy⟩ := htarget x y hxy
        exact live_generateNodes.mpr ⟨c, hc, hy⟩
      · exact live_generateNodes.mpr ⟨a, ha, hy⟩
    · refine acyclic_of_root (acyclic_generateLinks h) (fun x (hx : Edge _ x 1) => ?_)
        fun x y hxy => ?_
      · rcases (hedge x 1).mp hx with hx | ⟨-, a, -, -, ha⟩
        · obtain ⟨c, -, -, hc⟩ := htarget x 1 hx
          exact chartId_ne_one c hc.symm
        · exact chartId_ne_one a ha.symm
      · exact ((hedge x y).mp hxy).imp_right And.left
    · intro v hv
      obtain ⟨a, ha, rfl⟩ := live_generateNodes.mp hv
      by_cases hroot : a ∈ nonRootNodeIds ws
      · obtain ⟨node, hnode, hc⟩ := List.mem_flatMap.mp hroot
        exact ⟨_, (hedge _ _).mpr (.inl (edge_generateLinks.mpr ⟨node, hnode, a, hc, rfl, rfl⟩))⟩
      · exact ⟨1, (hedge _ _).mpr (.inr ⟨rfl, a, ha, hroot, rfl⟩)⟩
    · intro v p hv hp
      rcases (hedge 1 v).mp hv with hv | ⟨-, a, ha, hroot, rfl⟩
      · exact absurd hv (hnot v)
      · rcases (hedge p _).mp hp with hp | ⟨hp, -⟩
        · obtain ⟨c, -, hc, heq⟩ := htarget p _ hp
          exact absurd ((chartId_inj ha).mp heq ▸ hc) hroot
        · exact hp
  unique := by
    rw [generateNodesAndLinks, List.map_append]
    refine List.nodup_append.mpr ⟨nodup_generateLinks h, ?_, ?_⟩
    · rw [List.map_map]
      refine List.Nodup.map_on ?_ (h.ids.filter _)
      intro a ha b _ heq
      exact (chartId_inj (List.mem_filter.mp ha).1).mp (congrArg Prod.snd heq)
    · rintro ⟨x, y⟩ hxy e he rfl
      obtain ⟨l, hl, hl'⟩ := List.mem_map.mp he
      obtain ⟨a, -, rfl⟩ := List.mem_map.mp hl
      obtain ⟨node, -, c, -, hx, -⟩ := edge_generateLinks.mp hxy
      exact chartId_ne_one node.id (hx.symm.trans (congrArg Prod.fst hl').symm)
  ids := nodup_generateNodes h
  issued node hmem := by
    rcases List.mem_cons.mp hmem with rfl | hmem
    · exact Nat.lt_of_lt_of_le Nat.one_lt_two (Nat.le_add_left 2 _)
    · obtain ⟨w, hw, rfl⟩ := List.mem_map.mp hmem
      exact chartId_lt (List.mem_map_of_mem hw)
  next := Nat.lt_of_lt_of_le Nat.one_lt_two (Nat.le_add_left 2 _)

end Forail.Visualizer
