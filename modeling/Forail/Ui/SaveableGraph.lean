import Forail.Ui.ChartGraph
import Forail.Ui.SaveVisualizer

/-! What a server and a chart that is to be saved on it have in common: every node of the server is
in the chart, and where the children that the chart recorded of a node agree with what is drawn,
the server has the row. Every answer to a request of a save keeps this. -/

namespace Forail.Visualizer

open Relation Acyclicity Api Scheduler

/-- The node `k` of the chart is node `i` of the server. -/
def HasId (nodes : List Node) (k i : ℕ) : Prop :=
  ∃ node ∈ nodes, node.id = k ∧ ∃ original, node.originalNodeObject = some original ∧ original.id = i

def LiveId (nodes : List Node) (i : ℕ) : Prop := ∃ k, Live nodes k ∧ HasId nodes k i

/-- A link is drawn between these nodes of the server. -/
def Drawn (nodes : List Node) (links : List Link) (t : LinkType) (a b : ℕ) : Prop :=
  ∃ l ∈ links, l.source ≠ 1 ∧ l.linkType = t ∧ HasId nodes l.source a ∧ HasId nodes l.target b

def Stored (server : Server) (t : LinkType) (a b : ℕ) : Prop :=
  server.template.Edge t.relationship a b

def Recorded (linkMap : List (ℕ × OriginalLinks)) (t : LinkType) (a b : ℕ) : Prop :=
  ∃ entry ∈ linkMap, entry.2.id = a ∧ b ∈ entry.2.nodes t

structure WellDrawn (nodes : List Node) (links : List Link) : Prop where
  ids : (nodes.map Node.id).Nodup
  graph : RootedDag 1 (Live nodes) (Edge links)
  unique : (links.map Link.ends).Nodup
  start : ∀ i, ¬ HasId nodes 1 i
  inj : ∀ k k' i, HasId nodes k i → HasId nodes k' i → k = k'

/-- What the chart recorded of the rows of the server. -/
structure Covers (server : Server) (nodes : List Node) (links : List Link)
    (R : LinkType → ℕ → ℕ → Prop) : Prop where
  recorded : ∀ t a b, Stored server t a b → LiveId nodes a → R t a b ∨ Drawn nodes links t a b
  kept : ∀ t a b, R t a b → Drawn nodes links t a b → Stored server t a b
  known : ∀ t a b, R t a b → (∃ k, HasId nodes k a) ∧ ∃ k, HasId nodes k b

structure Saveable (server : Server) (nodes : List Node) (links : List Link) : Prop where
  drawn : WellDrawn nodes links
  known : ∀ n ∈ server.template.nodes, ∃ k, HasId nodes k n
  stored : ∀ i, LiveId nodes i → i ∈ server.template.nodes
  issued : ∀ k i, HasId nodes k i → i < server.nextId
  covers : Covers server nodes links (Recorded (originalLinkMap nodes))
  approved : ∀ node ∈ nodes, ∀ original, node.originalNodeObject = some original →
    node.isDeleted = false → node.isApprovalTemplate = true → original.isApproval = true →
      server.isApproval original.id = true
  plain : ∀ node ∈ nodes, ∀ original, node.originalNodeObject = some original →
    node.isDeleted = false → node.isEdited = false → node.isApprovalTemplate = false →
      server.isApproval original.id = false

variable {server server' : Server} {nodes : List Node} {links : List Link}
  {R : LinkType → ℕ → ℕ → Prop} {t : LinkType} {a b i k : ℕ}

theorem relationship_inj {t t' : LinkType} (h : t.relationship = t'.relationship) : t = t' := by
  cases t <;> cases t' <;> first | rfl | exact nomatch h

theorem Live.not_deleted (hids : (nodes.map Node.id).Nodup) (h : Live nodes k) {node : Node}
    (hmem : node ∈ nodes) (hk : node.id = k) : node.isDeleted = false ∧ k ≠ 1 := by
  obtain ⟨node', hmem', hk', hdel, hne⟩ := h
  have heq : node' = node := List.inj_on_of_nodup_map hids hmem' hmem (hk'.trans hk.symm)
  exact ⟨heq ▸ hdel, hne⟩

theorem hasId_of_mem {node : Node} {original : WorkflowNode} (hmem : node ∈ nodes)
    (ho : node.originalNodeObject = some original) : HasId nodes node.id original.id :=
  ⟨node, hmem, rfl, original, ho, rfl⟩

/-! ### The drawn graph by the ids of the server -/

namespace WellDrawn

theorem hasId_inj (h : WellDrawn nodes links) {i j : ℕ} (hi : HasId nodes k i)
    (hj : HasId nodes k j) : i = j := by
  obtain ⟨node, hmem, hk, o, ho, rfl⟩ := hi
  obtain ⟨node', hmem', hk', o', ho', rfl⟩ := hj
  have heq : node = node' := List.inj_on_of_nodup_map h.ids hmem hmem' (hk.trans hk'.symm)
  subst heq
  rw [Option.some.inj (ho.symm.trans ho')]

theorem liveId_of_mem (h : WellDrawn nodes links) {node : Node} {original : WorkflowNode}
    (hmem : node ∈ nodes) (ho : node.originalNodeObject = some original)
    (hdel : node.isDeleted = false) : LiveId nodes original.id := by
  refine ⟨node.id, ⟨node, hmem, rfl, hdel, fun h1 => ?_⟩, hasId_of_mem hmem ho⟩
  exact h.start original.id (h1 ▸ hasId_of_mem hmem ho)

/-- A node of the server is not drawn both as deleted and as not deleted. -/
theorem not_liveId (h : WellDrawn nodes links) {node : Node} {original : WorkflowNode}
    (hmem : node ∈ nodes) (ho : node.originalNodeObject = some original)
    (hdel : node.isDeleted = true) : ¬ LiveId nodes original.id := by
  rintro ⟨k, hlive, hk⟩
  have heq : node.id = k := h.inj _ _ _ (hasId_of_mem hmem ho) hk
  exact Bool.false_ne_true ((hlive.not_deleted h.ids hmem heq).1.symm.trans hdel)

theorem liveId_of_drawn (h : WellDrawn nodes links) (hd : Drawn nodes links t a b) :
    LiveId nodes a ∧ LiveId nodes b := by
  obtain ⟨l, hl, hne, -, ha, hb⟩ := hd
  exact ⟨⟨_, (h.graph.source _ _ (Edge.of_mem hl)).resolve_left hne, ha⟩,
    ⟨_, h.graph.target _ _ (Edge.of_mem hl), hb⟩⟩

theorem drawn_unique (h : WellDrawn nodes links) {t' : LinkType} (hd : Drawn nodes links t a b)
    (hd' : Drawn nodes links t' a b) : t = t' := by
  obtain ⟨l, hl, -, rfl, ha, hb⟩ := hd
  obtain ⟨l', hl', -, rfl, ha', hb'⟩ := hd'
  have hends : l.ends = l'.ends := by
    rw [Link.ends, Link.ends, h.inj _ _ _ ha ha', h.inj _ _ _ hb hb']
  rw [List.inj_on_of_nodup_map h.unique hl hl' hends]

theorem acyclic_drawn (h : WellDrawn nodes links) :
    Acyclic fun a b => ∃ t, Drawn nodes links t a b := by
  have hpath : ∀ a b, TransGen (fun a b => ∃ t, Drawn nodes links t a b) a b →
      ∃ k k', HasId nodes k a ∧ HasId nodes k' b ∧ TransGen (Edge links) k k' := by
    intro a b hab
    induction hab with
    | single hab =>
      obtain ⟨t, l, hl, -, -, ha, hb⟩ := hab
      exact ⟨_, _, ha, hb, .single (Edge.of_mem hl)⟩
    | tail _ hbc ih =>
      obtain ⟨k, k', ha, hb, hkk'⟩ := ih
      obtain ⟨t, l, hl, -, -, hb', hc⟩ := hbc
      have heq : l.source = k' := h.inj _ _ _ hb' hb
      exact ⟨k, _, ha, hc, hkk'.tail (heq ▸ Edge.of_mem hl)⟩
  intro a ha
  obtain ⟨k, k', hk, hk', hkk'⟩ := hpath a a ha
  exact h.graph.acyclic k (h.inj _ _ _ hk' hk ▸ hkk')

end WellDrawn

/-! ### What the server does with its rows and templates -/

/-- Rows go that are not drawn, and come that are. -/
theorem Covers.ofStored (h : Covers server nodes links R)
    (hgain : ∀ t a b, Stored server' t a b → Stored server t a b ∨ Drawn nodes links t a b)
    (hlose : ∀ t a b, Drawn nodes links t a b → Stored server t a b → Stored server' t a b) :
    Covers server' nodes links R where
  recorded t a b hab ha := (hgain t a b hab).elim (fun hab => h.recorded t a b hab ha) .inr
  kept t a b hr hd := hlose t a b hd (h.kept t a b hr hd)
  known := h.known

theorem Saveable.ofTemplate (h : Saveable server nodes links)
    (hnodes : ∀ n ∈ server'.template.nodes, n ∈ server.template.nodes)
    (hlive : ∀ i, LiveId nodes i → i ∈ server.template.nodes → i ∈ server'.template.nodes)
    (happroval : server'.isApproval = server.isApproval) (hnext : server'.nextId = server.nextId)
    (hgain : ∀ t a b, Stored server' t a b → Stored server t a b ∨ Drawn nodes links t a b)
    (hlose : ∀ t a b, Drawn nodes links t a b → Stored server t a b → Stored server' t a b) :
    Saveable server' nodes links where
  drawn := h.drawn
  known n hn := h.known n (hnodes n hn)
  stored i hi := hlive i hi (h.stored i hi)
  issued k i hi := hnext ▸ h.issued k i hi
  covers := h.covers.ofStored hgain hlose
  approved := happroval ▸ h.approved
  plain := happroval ▸ h.plain

theorem Saveable.ofApproval (h : Saveable server nodes links)
    (htemplate : server'.template = server.template) (hnext : server'.nextId = server.nextId)
    (hset : ∀ i, server'.isApproval i = server.isApproval i ∨ ∀ node ∈ nodes, ∀ original,
      node.originalNodeObject = some original → original.id = i →
        server'.isApproval i = node.isApprovalTemplate) : Saveable server' nodes links where
  drawn := h.drawn
  known := htemplate ▸ h.known
  stored := htemplate ▸ h.stored
  issued := hnext ▸ h.issued
  covers := by
    refine h.covers.ofStored (fun t a b hab => .inl ?_) fun t a b _ hab => ?_
    · rw [Stored, htemplate] at hab
      exact hab
    · rw [Stored, htemplate]
      exact hab
  approved node hmem original ho hdel happr hwas := by
    rcases hset original.id with heq | heq
    · rw [heq]
      exact h.approved node hmem original ho hdel happr hwas
    · rw [heq node hmem original ho rfl, happr]
  plain node hmem original ho hdel hedit happr := by
    rcases hset original.id with heq | heq
    · rw [heq]
      exact h.plain node hmem original ho hdel hedit happr
    · rw [heq node hmem original ho rfl, happr]

/-! ### What the answers change in the chart -/

theorem live_setOriginal {n : ℕ} {data : WorkflowNode} :
    Live (setOriginal nodes n data) k ↔ Live nodes k := by
  refine live_map (fun node => ?_) fun node => ?_
  · split_ifs <;> rfl
  · split_ifs <;> rfl

theorem ids_setOriginal (n : ℕ) (data : WorkflowNode) :
    (setOriginal nodes n data).map Node.id = nodes.map Node.id := by
  rw [setOriginal, List.map_map]
  refine List.map_congr_left fun node _ => ?_
  rw [Function.comp]
  split_ifs <;> rfl

theorem mem_setOriginal {n : ℕ} {data : WorkflowNode} {node : Node} :
    node ∈ setOriginal nodes n data ↔ (node ∈ nodes ∧ node.id ≠ n) ∨
      ∃ node' ∈ nodes, node'.id = n ∧ node = { node' with originalNodeObject := some data } := by
  rw [setOriginal, List.mem_map]
  constructor
  · rintro ⟨node', hmem, rfl⟩
    split_ifs with hn
    · exact .inr ⟨node', hmem, hn, rfl⟩
    · exact .inl ⟨hmem, hn⟩
  · rintro (⟨hmem, hn⟩ | ⟨node', hmem, hn, rfl⟩)
    · exact ⟨node, hmem, if_neg hn⟩
    · exact ⟨node', hmem, if_pos hn⟩

theorem hasId_setOriginal {n : ℕ} {data : WorkflowNode} (hn : n ∈ nodes.map Node.id) :
    HasId (setOriginal nodes n data) k i ↔
      (k ≠ n ∧ HasId nodes k i) ∨ (k = n ∧ i = data.id) := by
  constructor
  · rintro ⟨node, hmem, rfl, o, ho, rfl⟩
    rcases mem_setOriginal.mp hmem with ⟨hmem, hne⟩ | ⟨node', hmem', hn', rfl⟩
    · exact .inl ⟨hne, hasId_of_mem hmem ho⟩
    · cases ho
      exact .inr ⟨hn', rfl⟩
  · rintro (⟨hne, node, hmem, rfl, o, ho, rfl⟩ | ⟨rfl, rfl⟩)
    · exact hasId_of_mem (mem_setOriginal.mpr (.inl ⟨hmem, hne⟩)) ho
    · obtain ⟨node', hmem', hk⟩ := List.mem_map.mp hn
      exact ⟨_, mem_setOriginal.mpr (.inr ⟨node', hmem', hk, rfl⟩), hk, data, rfl, rfl⟩

theorem recorded_originalLinkMap : Recorded (originalLinkMap nodes) t a b ↔
    ∃ node ∈ nodes, node.id ≠ 1 ∧ node.isDeleted = false ∧ ∃ o, node.originalNodeObject = some o ∧
      o.id = a ∧ b ∈ o.originalLinks.nodes t := by
  simp only [Recorded, originalLinkMap, List.mem_filterMap]
  constructor
  · rintro ⟨entry, ⟨node, hmem, heq⟩, ha, hb⟩
    split_ifs at heq with hcond
    obtain ⟨hne, hdel⟩ := not_or.mp hcond
    obtain ⟨o, ho, rfl⟩ := Option.map_eq_some_iff.mp heq
    exact ⟨node, hmem, hne, Bool.eq_false_iff.mpr hdel, o, ho, ha, hb⟩
  · rintro ⟨node, hmem, hne, hdel, o, ho, ha, hb⟩
    refine ⟨(node.id, o.originalLinks), ⟨node, hmem, ?_⟩, ha, hb⟩
    have hcond : ¬(node.id = 1 ∨ node.isDeleted = true) := by
      rw [hdel]
      exact not_or.mpr ⟨hne, Bool.false_ne_true⟩
    rw [if_neg hcond, ho]
    rfl

theorem mem_readNode : b ∈ (readNode server a).originalLinks.nodes t ↔ Stored server t a b := by
  cases t
  · exact Template.mem_children
  · exact Template.mem_children
  · exact Template.mem_children

theorem Covers.congr (h : Covers server nodes links R) {nodes' : List Node}
    (hid : ∀ k i, HasId nodes' k i ↔ HasId nodes k i) (hlive : ∀ k, Live nodes' k ↔ Live nodes k) :
    Covers server nodes' links R := by
  have hliveId : ∀ i, LiveId nodes' i → LiveId nodes i := by
    rintro i ⟨k, hk, hi⟩
    exact ⟨k, (hlive k).mp hk, (hid k i).mp hi⟩
  have hdrawn : ∀ t a b, Drawn nodes' links t a b ↔ Drawn nodes links t a b := by
    intro t a b
    simp only [Drawn, hid]
  refine ⟨fun t a b hab ha => ?_, fun t a b hr hd => ?_, fun t a b hr => ?_⟩
  · rw [hdrawn]
    exact h.recorded t a b hab (hliveId a ha)
  · exact h.kept t a b hr ((hdrawn t a b).mp hd)
  · obtain ⟨⟨k, hk⟩, k', hk'⟩ := h.known t a b hr
    exact ⟨⟨k, (hid k a).mpr hk⟩, k', (hid k' b).mpr hk'⟩

section Create

variable {n : ℕ}

theorem stored_createNode : Stored server.createNode t a b ↔ Stored server t a b := Iff.rfl

theorem isApproval_createNode (hi : i ≠ server.nextId) :
    server.createNode.isApproval i = server.isApproval i := Function.update_of_ne hi ..

theorem not_stored_nextId : ¬ Stored server t server.nextId b := fun h =>
  Nat.lt_irrefl _ (server.issued _ (server.template.edges_nodes _ _ h).1)

/-- The node that is created, with the data of the answer. -/
theorem hasId_created (hn : Live nodes n) (hnone : ∀ i, ¬ HasId nodes n i) :
    HasId (setOriginal nodes n (readNode server.createNode server.nextId)) k i ↔
      HasId nodes k i ∨ (k = n ∧ i = server.nextId) := by
  rw [hasId_setOriginal hn.mem_ids]
  constructor
  · rintro (⟨-, hi⟩ | hi)
    · exact .inl hi
    · exact .inr hi
  · rintro (hi | hi)
    · exact .inl ⟨fun he => hnone i (he ▸ hi), hi⟩
    · exact .inr hi

/-- Between nodes that were there before, nothing else is drawn. -/
theorem drawn_created (hn : Live nodes n) (hnone : ∀ i, ¬ HasId nodes n i)
    (ha : a < server.nextId) (hb : b < server.nextId) :
    Drawn (setOriginal nodes n (readNode server.createNode server.nextId)) links t a b ↔
      Drawn nodes links t a b := by
  have hold : ∀ {k i}, i < server.nextId →
      (HasId (setOriginal nodes n (readNode server.createNode server.nextId)) k i ↔
        HasId nodes k i) := by
    intro k i hi
    rw [hasId_created hn hnone]
    exact ⟨fun hk => hk.resolve_right fun he => Nat.ne_of_lt hi he.2, .inl⟩
  simp only [Drawn, hold ha, hold hb]

variable (h : Saveable server nodes links) (hn : Live nodes n) (hnone : ∀ i, ¬ HasId nodes n i)

include h hn hnone

theorem wellDrawn_created : WellDrawn (setOriginal nodes n (readNode server.createNode server.nextId))
    links where
  ids := by
    rw [ids_setOriginal]
    exact h.drawn.ids
  graph := by
    have hlive : Live (setOriginal nodes n (readNode server.createNode server.nextId)) =
        Live nodes := by
      funext k
      rw [live_setOriginal]
    rw [hlive]
    exact h.drawn.graph
  unique := h.drawn.unique
  start i hi := by
    rcases (hasId_created hn hnone).mp hi with hi | ⟨h1, -⟩
    · exact h.drawn.start i hi
    · exact hn.choose_spec.2.2.2 h1.symm
  inj k k' i hk hk' := by
    rcases (hasId_created hn hnone).mp hk with hold | ⟨hkn, hi⟩
    · rcases (hasId_created hn hnone).mp hk' with hold' | ⟨-, hi⟩
      · exact h.drawn.inj k k' i hold hold'
      · exact absurd hi (Nat.ne_of_lt (h.issued k i hold))
    · rcases (hasId_created hn hnone).mp hk' with hold' | ⟨hkn', -⟩
      · exact absurd hi (Nat.ne_of_lt (h.issued k' i hold'))
      · rw [hkn, hkn']

theorem covers_created (hc : Covers server nodes links R) : Covers server.createNode
    (setOriginal nodes n (readNode server.createNode server.nextId)) links R := by
  have hlt : ∀ {a}, (∃ k, HasId nodes k a) → a < server.nextId := fun hk =>
    h.issued _ _ hk.choose_spec
  refine ⟨fun t a b hab ha => ?_, fun t a b hr hd => ?_, fun t a b hr => ?_⟩
  · have hmem := server.template.edges_nodes _ _ hab
    rw [drawn_created hn hnone (server.issued _ hmem.1) (server.issued _ hmem.2)]
    obtain ⟨k, hlive, hk⟩ := ha
    refine hc.recorded t a b hab ⟨k, live_setOriginal.mp hlive, ?_⟩
    exact ((hasId_created hn hnone).mp hk).resolve_right fun he =>
      Nat.ne_of_lt (server.issued _ hmem.1) he.2
  · obtain ⟨ha, hb⟩ := hc.known t a b hr
    exact hc.kept t a b hr ((drawn_created hn hnone (hlt ha) (hlt hb)).mp hd)
  · obtain ⟨⟨k, hk⟩, k', hk'⟩ := hc.known t a b hr
    exact ⟨⟨k, (hasId_created hn hnone).mpr (.inl hk)⟩, k', (hasId_created hn hnone).mpr (.inl hk')⟩

omit h hn in
/-- The new node has no children on the server, so nothing is recorded of it. -/
theorem recorded_created : Recorded (originalLinkMap
    (setOriginal nodes n (readNode server.createNode server.nextId))) =
      Recorded (originalLinkMap nodes) := by
  funext t a b
  rw [eq_iff_iff, recorded_originalLinkMap, recorded_originalLinkMap]
  constructor
  · rintro ⟨node, hmem, hne, hdel, o, ho, ha, hb⟩
    rcases mem_setOriginal.mp hmem with ⟨hmem, -⟩ | ⟨node', -, -, rfl⟩
    · exact ⟨node, hmem, hne, hdel, o, ho, ha, hb⟩
    · cases ho
      exact absurd (stored_createNode.mp (mem_readNode.mp hb)) not_stored_nextId
  · rintro ⟨node, hmem, hne, hdel, o, ho, ha, hb⟩
    refine ⟨node, mem_setOriginal.mpr (.inl ⟨hmem, fun he => ?_⟩), hne, hdel, o, ho, ha, hb⟩
    exact hnone o.id (he ▸ hasId_of_mem hmem ho)

theorem Saveable.created : Saveable server.createNode
    (setOriginal nodes n (readNode server.createNode server.nextId)) links where
  drawn := wellDrawn_created h hn hnone
  known m hm := by
    rcases List.mem_append.mp hm with hm | hm
    · obtain ⟨k, hk⟩ := h.known m hm
      exact ⟨k, (hasId_created hn hnone).mpr (.inl hk)⟩
    · exact ⟨n, (hasId_created hn hnone).mpr (.inr ⟨rfl, List.mem_singleton.mp hm⟩)⟩
  stored i := by
    rintro ⟨k, hlive, hk⟩
    rcases (hasId_created hn hnone).mp hk with hk | ⟨-, rfl⟩
    · exact List.mem_append_left _ (h.stored i ⟨k, live_setOriginal.mp hlive, hk⟩)
    · exact List.mem_append_right _ (List.mem_singleton.mpr rfl)
  issued k i hk := by
    rcases (hasId_created hn hnone).mp hk with hk | ⟨-, rfl⟩
    · exact Nat.lt_succ_of_lt (h.issued k i hk)
    · exact Nat.lt_succ_self _
  covers := by
    rw [recorded_created hnone]
    exact covers_created h hn hnone h.covers
  approved node hmem o ho hdel happr hwas := by
    rcases mem_setOriginal.mp hmem with ⟨hmem, -⟩ | ⟨node', -, -, rfl⟩
    · have hne : o.id ≠ server.nextId := Nat.ne_of_lt (h.issued _ _ (hasId_of_mem hmem ho))
      rw [isApproval_createNode hne]
      exact h.approved node hmem o ho hdel happr hwas
    · cases ho
      exact hwas
  plain node hmem o ho hdel hedit happr := by
    rcases mem_setOriginal.mp hmem with ⟨hmem, -⟩ | ⟨node', -, -, rfl⟩
    · have hne : o.id ≠ server.nextId := Nat.ne_of_lt (h.issued _ _ (hasId_of_mem hmem ho))
      rw [isApproval_createNode hne]
      exact h.plain node hmem o ho hdel hedit happr
    · cases ho
      exact Function.update_self ..

end Create

section Update

variable {n : ℕ}

/-- A node that is answered with again keeps its id. -/
theorem hasId_read (h : WellDrawn nodes links) (hni : HasId nodes n i) {j : ℕ} :
    HasId (setOriginal nodes n (readNode server i)) k j ↔ HasId nodes k j := by
  have hn : n ∈ nodes.map Node.id := by
    obtain ⟨node, hmem, hn, -⟩ := hni
    exact hn ▸ List.mem_map_of_mem hmem
  rw [hasId_setOriginal hn]
  constructor
  · rintro (⟨-, hj⟩ | ⟨rfl, rfl⟩)
    · exact hj
    · exact hni
  · intro hj
    by_cases hk : k = n
    · exact .inr ⟨hk, h.hasId_inj (hk ▸ hj) hni⟩
    · exact .inl ⟨hk, hj⟩

theorem WellDrawn.read (h : WellDrawn nodes links) (hni : HasId nodes n i) :
    WellDrawn (setOriginal nodes n (readNode server i)) links where
  ids := by
    rw [ids_setOriginal]
    exact h.ids
  graph := by
    have hlive : Live (setOriginal nodes n (readNode server i)) = Live nodes := by
      funext k
      rw [live_setOriginal]
    rw [hlive]
    exact h.graph
  unique := h.unique
  start j hj := h.start j ((hasId_read h hni).mp hj)
  inj k k' j hk hk' := h.inj k k' j ((hasId_read h hni).mp hk) ((hasId_read h hni).mp hk')

theorem recorded_read (h : WellDrawn nodes links) (hni : HasId nodes n i) :
    Recorded (originalLinkMap (setOriginal nodes n (readNode server i))) t a b ↔
      (a ≠ i ∧ Recorded (originalLinkMap nodes) t a b) ∨
        (a = i ∧ Live nodes n ∧ Stored server t i b) := by
  rw [recorded_originalLinkMap, recorded_originalLinkMap]
  constructor
  · rintro ⟨node, hmem, hne, hdel, o, ho, ha, hb⟩
    rcases mem_setOriginal.mp hmem with ⟨hmem, hnode⟩ | ⟨node', hmem', hn', rfl⟩
    · refine .inl ⟨fun hai => hnode ?_, node, hmem, hne, hdel, o, ho, ha, hb⟩
      exact h.inj _ _ i (hai ▸ ha ▸ hasId_of_mem hmem ho) hni
    · cases ho
      exact .inr ⟨ha.symm, ⟨node', hmem', hn', hdel, hn' ▸ hne⟩, mem_readNode.mp hb⟩
  · rintro (⟨hai, node, hmem, hne, hdel, o, ho, ha, hb⟩ | ⟨rfl, ⟨node, hmem, rfl, hdel, hne⟩, hb⟩)
    · refine ⟨node, mem_setOriginal.mpr (.inl ⟨hmem, fun he => hai ?_⟩), hne, hdel, o, ho, ha, hb⟩
      exact h.hasId_inj (ha ▸ he ▸ hasId_of_mem hmem ho) hni
    · exact ⟨_, mem_setOriginal.mpr (.inr ⟨node, hmem, rfl, rfl⟩), hne, hdel, _, rfl, rfl,
        mem_readNode.mpr hb⟩

/-- The chart records the rows of a node once more. -/
theorem Saveable.read (h : Saveable server nodes links) (hni : HasId nodes n i) :
    Saveable server (setOriginal nodes n (readNode server i)) links where
  drawn := h.drawn.read hni
  known m hm := by
    obtain ⟨k, hk⟩ := h.known m hm
    exact ⟨k, (hasId_read h.drawn hni).mpr hk⟩
  stored j := by
    rintro ⟨k, hlive, hk⟩
    exact h.stored j ⟨k, live_setOriginal.mp hlive, (hasId_read h.drawn hni).mp hk⟩
  issued k j hk := h.issued k j ((hasId_read h.drawn hni).mp hk)
  covers := by
    have hids : ∀ k j, HasId (setOriginal nodes n (readNode server i)) k j ↔ HasId nodes k j :=
      fun k j => hasId_read h.drawn hni
    have hlive : ∀ k, Live (setOriginal nodes n (readNode server i)) k ↔ Live nodes k :=
      fun k => live_setOriginal
    have hsame := h.covers.congr hids hlive
    refine ⟨fun t a b hab ha => ?_, fun t a b hr hd => ?_, fun t a b hr => ?_⟩
    · rw [recorded_read h.drawn hni]
      by_cases hai : a = i
      · obtain ⟨k, hlive, hk⟩ := ha
        have hkn : k = n := h.drawn.inj k n i ((hasId_read h.drawn hni).mp (hai ▸ hk)) hni
        exact .inl (.inr ⟨hai, hkn ▸ live_setOriginal.mp hlive, hai ▸ hab⟩)
      · exact (hsame.recorded t a b hab ha).imp_left fun hr => .inl ⟨hai, hr⟩
    · rcases (recorded_read h.drawn hni).mp hr with ⟨-, hr⟩ | ⟨rfl, -, hab⟩
      · exact hsame.kept t a b hr hd
      · exact hab
    · rcases (recorded_read h.drawn hni).mp hr with ⟨-, hr⟩ | ⟨rfl, -, hab⟩
      · exact hsame.known t a b hr
      · obtain ⟨k, hk⟩ := h.known b (server.template.edges_nodes _ _ hab).2
        exact ⟨⟨n, (hasId_read h.drawn hni).mpr hni⟩, k, (hasId_read h.drawn hni).mpr hk⟩
  approved node hmem o ho hdel happr hwas := by
    rcases mem_setOriginal.mp hmem with ⟨hmem, -⟩ | ⟨node', -, -, rfl⟩
    · exact h.approved node hmem o ho hdel happr hwas
    · cases ho
      exact hwas
  plain node hmem o ho hdel hedit happr := by
    rcases mem_setOriginal.mp hmem with ⟨hmem, -⟩ | ⟨node', hmem', hn', rfl⟩
    · exact h.plain node hmem o ho hdel hedit happr
    · cases ho
      obtain ⟨node'', hmem'', hn'', o, ho, rfl⟩ := hni
      have heq : node'' = node' :=
        List.inj_on_of_nodup_map h.drawn.ids hmem'' hmem' (hn''.trans hn'.symm)
      subst heq
      exact h.plain node'' hmem'' o ho hdel hedit happr

end Update

end Forail.Visualizer
