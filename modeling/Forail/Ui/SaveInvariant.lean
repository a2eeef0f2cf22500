import Forail.Ui.SaveableGraph

/-! What every request that is on its way asks for, and what an attempt to save keeps: the graph
stays saveable, and the entries of its link map belong to nodes that are drawn. -/

namespace Forail.Visualizer

open Relation Acyclicity Api Scheduler

/-- A node with these flags is node `i` of the server. -/
def Shows (nodes : List Node) (i : ℕ) (P : Node → Prop) : Prop :=
  ∃ node ∈ nodes, P node ∧ ∃ o, node.originalNodeObject = some o ∧ o.id = i

/-- The flags of a node that do not depend on what the server answered. -/
def OfFlags (P : Node → Prop) : Prop :=
  ∀ node data, P node → P { node with originalNodeObject := some data }

/-- What a request was sent for still holds of the chart. -/
def Valid (server : Server) (nodes : List Node) (links : List Link) : Request → Prop
  | .destroy id => Shows nodes id fun node => node.isDeleted = true
  | .createNode n isApprovalTemplate => ∃ node ∈ nodes, node.id = n ∧ n ≠ 1 ∧
      node.isDeleted = false ∧ node.originalNodeObject = none ∧
        node.isApprovalTemplate = isApprovalTemplate
  | .updateNode n id isApprovalTemplate wasApproval =>
      (Shows nodes id fun node => node.id = n ∧ node.isDeleted = false ∧
        node.isApprovalTemplate = isApprovalTemplate) ∧
      (isApprovalTemplate = true → wasApproval = true → server.isApproval id = true)
  | .createApprovalTemplate id => Shows nodes id fun node =>
      node.isDeleted = false ∧ node.isApprovalTemplate = true
  | .updateApprovalTemplate id => (Shows nodes id fun node =>
      node.isDeleted = false ∧ node.isApprovalTemplate = true) ∧ server.isApproval id = true
  | .disassociate t a b => LiveId nodes a ∧ LiveId nodes b ∧ ¬ Drawn nodes links t a b
  | .associate t a b => Drawn nodes links t a b

structure Core (server : Server) (nodes : List Node) (links : List Link)
    (linkMap : List (ℕ × OriginalLinks)) (deleted : List ℕ) : Prop where
  saveable : Saveable server nodes links
  covers : Covers server nodes links (Recorded linkMap)
  entries : ∀ e ∈ linkMap, Live nodes e.1 ∧ HasId nodes e.1 e.2.id
  deleted : ∀ i, i ∈ deleted ↔ Shows nodes i fun node => node.isDeleted = true

variable {server server' : Server} {nodes : List Node} {links : List Link}
  {linkMap : List (ℕ × OriginalLinks)} {deleted : List ℕ} {t : LinkType} {a b i k n : ℕ}
  {request : Request} {P Q : Node → Prop}

theorem Shows.hasId (h : Shows nodes i P) : ∃ node ∈ nodes, P node ∧ HasId nodes node.id i := by
  obtain ⟨node, hmem, hp, o, ho, rfl⟩ := h
  exact ⟨node, hmem, hp, hasId_of_mem hmem ho⟩

/-- One node of the chart has the flags of both. -/
theorem Shows.and (h : Shows nodes i P) (h' : Shows nodes i Q) (hd : WellDrawn nodes links) :
    ∃ node ∈ nodes, P node ∧ Q node := by
  obtain ⟨node, hmem, hp, hk⟩ := h.hasId
  obtain ⟨node', hmem', hq, hk'⟩ := h'.hasId
  have heq : node = node' := List.inj_on_of_nodup_map hd.ids hmem hmem' (hd.inj _ _ i hk hk')
  exact ⟨node, hmem, hp, heq ▸ hq⟩

theorem Shows.created (h : Shows nodes i P) (hnone : ∀ j, ¬ HasId nodes n j) {data : WorkflowNode} :
    Shows (setOriginal nodes n data) i P := by
  obtain ⟨node, hmem, hp, o, ho, rfl⟩ := h
  refine ⟨node, mem_setOriginal.mpr (.inl ⟨hmem, fun he => ?_⟩), hp, o, ho, rfl⟩
  exact hnone o.id (he ▸ hasId_of_mem hmem ho)

theorem Shows.read (h : Shows nodes i P) (hp : OfFlags P) {j : ℕ} (hd : WellDrawn nodes links)
    (hnj : HasId nodes n j) : Shows (setOriginal nodes n (readNode server j)) i P := by
  obtain ⟨node, hmem, hpn, o, ho, rfl⟩ := h
  by_cases hn : node.id = n
  · refine ⟨_, mem_setOriginal.mpr (.inr ⟨node, hmem, hn, rfl⟩), hp node _ hpn, _, rfl, ?_⟩
    exact hd.hasId_inj hnj (hn ▸ hasId_of_mem hmem ho)
  · exact ⟨node, mem_setOriginal.mpr (.inl ⟨hmem, hn⟩), hpn, o, ho, rfl⟩

/-! ### Requests that are still on their way -/

/-- A node that shows an id is a different one from a node that shows it with another template. -/
theorem Valid.ofApproval (h : Valid server nodes links request)
    (hset : ∀ i, server.isApproval i = true → (Shows nodes i fun node =>
      node.isDeleted = false ∧ node.isApprovalTemplate = true) → server'.isApproval i = true) :
    Valid server' nodes links request := by
  cases request with
  | destroy id => exact h
  | createNode n b => exact h
  | updateNode n id b was =>
    refine ⟨h.1, fun hb hwas => hset id (h.2 hb hwas) ?_⟩
    obtain ⟨node, hmem, ⟨-, hdel, happr⟩, ho⟩ := h.1
    exact ⟨node, hmem, ⟨hdel, happr.trans hb⟩, ho⟩
  | createApprovalTemplate id => exact h
  | updateApprovalTemplate id => exact ⟨h.1, hset id h.2 h.1⟩
  | disassociate t a b => exact h
  | associate t a b => exact h

theorem Valid.created (h : Valid server nodes links request) (hs : Saveable server nodes links)
    (hn : Live nodes n) (hnone : ∀ i, ¬ HasId nodes n i) (hne : ∀ b, request ≠ .createNode n b) :
    Valid server.createNode (setOriginal nodes n (readNode server.createNode server.nextId)) links
      request := by
  have hlt : ∀ {i}, (∃ k, HasId nodes k i) → i < server.nextId := fun hk =>
    hs.issued _ _ hk.choose_spec
  have hliveId : ∀ {i}, LiveId nodes i →
      LiveId (setOriginal nodes n (readNode server.createNode server.nextId)) i := by
    rintro i ⟨k, hlive, hk⟩
    exact ⟨k, live_setOriginal.mpr hlive, (hasId_created hn hnone).mpr (.inl hk)⟩
  have happroval : ∀ {i} {P : Node → Prop}, Shows nodes i P → server.isApproval i = true →
      server.createNode.isApproval i = true := by
    intro i P hi htrue
    obtain ⟨node, -, -, hk⟩ := hi.hasId
    rw [isApproval_createNode (Nat.ne_of_lt (hlt ⟨_, hk⟩))]
    exact htrue
  cases request with
  | destroy id => exact Shows.created h hnone
  | createNode m b =>
    obtain ⟨node, hmem, hm, h1, hrest⟩ := h
    refine ⟨node, mem_setOriginal.mpr (.inl ⟨hmem, fun he => hne b ?_⟩), hm, h1, hrest⟩
    rw [← hm, he]
  | updateNode m id b was =>
    exact ⟨Shows.created h.1 hnone, fun hb hwas => happroval h.1 (h.2 hb hwas)⟩
  | createApprovalTemplate id => exact Shows.created h hnone
  | updateApprovalTemplate id =>
    exact ⟨Shows.created h.1 hnone, happroval h.1 h.2⟩
  | disassociate t a b =>
    obtain ⟨ha, hb, hd⟩ := h
    refine ⟨hliveId ha, hliveId hb, fun hd' => hd ?_⟩
    obtain ⟨k, -, hk⟩ := ha
    obtain ⟨k', -, hk'⟩ := hb
    exact (drawn_created hn hnone (hlt ⟨k, hk⟩) (hlt ⟨k', hk'⟩)).mp hd'
  | associate t a b =>
    obtain ⟨ha, hb⟩ := hs.drawn.liveId_of_drawn h
    obtain ⟨k, -, hk⟩ := ha
    obtain ⟨k', -, hk'⟩ := hb
    exact (drawn_created hn hnone (hlt ⟨k, hk⟩) (hlt ⟨k', hk'⟩)).mpr h

theorem drawn_read {j : ℕ} (hd : WellDrawn nodes links) (hnj : HasId nodes n j) :
    Drawn (setOriginal nodes n (readNode server j)) links t a b ↔ Drawn nodes links t a b := by
  simp only [Drawn, hasId_read hd hnj]

theorem liveId_read {j : ℕ} (hd : WellDrawn nodes links) (hnj : HasId nodes n j) :
    LiveId (setOriginal nodes n (readNode server j)) i ↔ LiveId nodes i := by
  simp only [LiveId, hasId_read hd hnj, live_setOriginal]

theorem Valid.read {j : ℕ} (h : Valid server nodes links request) (hd : WellDrawn nodes links)
    (hnj : HasId nodes n j) :
    Valid server (setOriginal nodes n (readNode server j)) links request := by
  cases request with
  | destroy id => exact Shows.read h (fun _ _ hp => hp) hd hnj
  | createNode m b =>
    obtain ⟨node, hmem, hm, h1, hdel, hnone, hb⟩ := h
    refine ⟨node, mem_setOriginal.mpr (.inl ⟨hmem, fun he => ?_⟩), hm, h1, hdel, hnone, hb⟩
    -- this node has no id on the server
    obtain ⟨node', hmem', hn', o, ho, -⟩ := hnj
    have heq : node = node' := List.inj_on_of_nodup_map hd.ids hmem hmem' (he.trans hn'.symm)
    subst heq
    exact nomatch hnone.symm.trans ho
  | updateNode m id b was => exact ⟨Shows.read h.1 (fun _ _ hp => hp) hd hnj, h.2⟩
  | createApprovalTemplate id => exact Shows.read h (fun _ _ hp => hp) hd hnj
  | updateApprovalTemplate id => exact ⟨Shows.read h.1 (fun _ _ hp => hp) hd hnj, h.2⟩
  | disassociate t a b =>
    exact ⟨(liveId_read hd hnj).mpr h.1, (liveId_read hd hnj).mpr h.2.1,
      fun hdr => h.2.2 ((drawn_read hd hnj).mp hdr)⟩
  | associate t a b => exact (drawn_read hd hnj).mpr h

/-! ### What the attempt remembers -/

theorem Core.ofTemplate (h : Core server nodes links linkMap deleted)
    (hnodes : ∀ n ∈ server'.template.nodes, n ∈ server.template.nodes)
    (hlive : ∀ i, LiveId nodes i → i ∈ server.template.nodes → i ∈ server'.template.nodes)
    (happroval : server'.isApproval = server.isApproval) (hnext : server'.nextId = server.nextId)
    (hgain : ∀ t a b, Stored server' t a b → Stored server t a b ∨ Drawn nodes links t a b)
    (hlose : ∀ t a b, Drawn nodes links t a b → Stored server t a b → Stored server' t a b) :
    Core server' nodes links linkMap deleted where
  saveable := h.saveable.ofTemplate hnodes hlive happroval hnext hgain hlose
  covers := h.covers.ofStored hgain hlose
  entries := h.entries
  deleted := h.deleted

theorem Core.ofApproval (h : Core server nodes links linkMap deleted)
    (htemplate : server'.template = server.template) (hnext : server'.nextId = server.nextId)
    (hset : ∀ i, server'.isApproval i = server.isApproval i ∨ ∀ node ∈ nodes, ∀ original,
      node.originalNodeObject = some original → original.id = i →
        server'.isApproval i = node.isApprovalTemplate) :
    Core server' nodes links linkMap deleted where
  saveable := h.saveable.ofApproval htemplate hnext hset
  covers := by
    refine h.covers.ofStored (fun t a b hab => .inl ?_) fun t a b _ hab => ?_
    · rw [Stored, htemplate] at hab
      exact hab
    · rw [Stored, htemplate]
      exact hab
  entries := h.entries
  deleted := h.deleted

theorem shows_setOriginal {data : WorkflowNode} (hp : ∀ node data, P { node with
    originalNodeObject := some data } → P node) (hid : HasId nodes n i ↔ data.id = i)
    (hids : (nodes.map Node.id).Nodup) (h : Shows (setOriginal nodes n data) i P) :
    Shows nodes i P := by
  obtain ⟨node, hmem, hpn, o, ho, hoi⟩ := h
  rcases mem_setOriginal.mp hmem with ⟨hmem, -⟩ | ⟨node', hmem', hn', rfl⟩
  · exact ⟨node, hmem, hpn, o, ho, hoi⟩
  · cases ho
    obtain ⟨shown, hshown, hn, o, ho, hi⟩ := hid.mpr hoi
    have heq : shown = node' := List.inj_on_of_nodup_map hids hshown hmem' (hn.trans hn'.symm)
    subst heq
    exact ⟨shown, hshown, hp shown _ hpn, o, ho, hi⟩

theorem Core.created (h : Core server nodes links linkMap deleted) (hn : Live nodes n)
    (hnone : ∀ i, ¬ HasId nodes n i) : Core server.createNode
      (setOriginal nodes n (readNode server.createNode server.nextId)) links
      (linkMap ++ [(n, ⟨server.nextId, [], [], []⟩)]) deleted where
  saveable := h.saveable.created hn hnone
  covers := by
    have heq : Recorded (linkMap ++ [(n, ⟨server.nextId, [], [], []⟩)]) = Recorded linkMap := by
      funext t a b
      rw [eq_iff_iff]
      constructor
      · rintro ⟨e, he, ha, hb⟩
        rcases List.mem_append.mp he with he | he
        · exact ⟨e, he, ha, hb⟩
        · rw [List.mem_singleton.mp he] at hb
          cases t <;> exact absurd hb List.not_mem_nil
      · rintro ⟨e, he, ha, hb⟩
        exact ⟨e, List.mem_append_left _ he, ha, hb⟩
    rw [heq]
    exact covers_created h.saveable hn hnone h.covers
  entries e he := by
    rcases List.mem_append.mp he with he | he
    · obtain ⟨hlive, hid⟩ := h.entries e he
      exact ⟨live_setOriginal.mpr hlive, (hasId_created hn hnone).mpr (.inl hid)⟩
    · rw [List.mem_singleton.mp he]
      exact ⟨live_setOriginal.mpr hn, (hasId_created hn hnone).mpr (.inr ⟨rfl, rfl⟩)⟩
  deleted i := by
    rw [h.deleted]
    constructor
    · intro hi
      exact hi.created hnone
    · rintro ⟨node, hmem, hdel, o, ho, rfl⟩
      rcases mem_setOriginal.mp hmem with ⟨hmem, -⟩ | ⟨node', hmem', hn', rfl⟩
      · exact ⟨node, hmem, hdel, o, ho, rfl⟩
      · have hlive := (hn.not_deleted h.saveable.drawn.ids hmem' hn').1
        exact absurd (hlive.symm.trans hdel) Bool.false_ne_true

theorem Core.read {j : ℕ} (h : Core server nodes links linkMap deleted) (hnj : HasId nodes n j) :
    Core server (setOriginal nodes n (readNode server j)) links linkMap deleted where
  saveable := h.saveable.read hnj
  covers := h.covers.congr (fun _ _ => hasId_read h.saveable.drawn hnj) fun _ => live_setOriginal
  entries e he := by
    obtain ⟨hlive, hid⟩ := h.entries e he
    exact ⟨live_setOriginal.mpr hlive, (hasId_read h.saveable.drawn hnj).mpr hid⟩
  deleted i := by
    have hid : HasId nodes n i ↔ (readNode server j).id = i := by
      constructor
      · exact h.saveable.drawn.hasId_inj hnj
      · rintro rfl
        exact hnj
    rw [h.deleted]
    constructor
    · intro hi
      exact hi.read (fun _ _ hp => hp) h.saveable.drawn hnj
    · exact shows_setOriginal (fun _ _ hp => hp) hid h.saveable.drawn.ids

end Forail.Visualizer
