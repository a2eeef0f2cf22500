import Forail.Ui.SaveInvariant

/-! One request that is served, whatever the batch it belongs to. -/

namespace Forail.Visualizer

open Relation Acyclicity Api Scheduler

/-- A node of the server is deleted, and a node of the chart created, by one request only. -/
def Request.key : Request → Option (Bool × ℕ)
  | .destroy id => some (true, id)
  | .createNode n _ => some (false, n)
  | _ => none

/-- Until the requests for nodes have been served: who is still to go, and who is still to come. -/
structure NodesPhase (a : Attempt) : Prop where
  destroyed : ∀ i, (Shows a.nodes i fun node => node.isDeleted = true) →
    .destroy i ∈ a.pending ∨ i ∉ a.server.template.nodes
  created : ∀ k, Live a.nodes k → (∃ i, HasId a.nodes k i) ∨ ∃ b, .createNode k b ∈ a.pending
  entered : ∀ k i, Live a.nodes k → HasId a.nodes k i → ∃ e ∈ a.originalLinkMap, e.1 = k

/-- The server has just the nodes that are drawn. -/
structure Complete (a : Attempt) : Prop where
  entered : ∀ k, Live a.nodes k → ∃ e ∈ a.originalLinkMap, e.1 = k
  live : ∀ n ∈ a.server.template.nodes, LiveId a.nodes n

structure Disassociating (links : List Link) (a : Attempt) : Prop extends Complete a where
  removed : ∀ t x y, Stored a.server t x y →
    Drawn a.nodes links t x y ∨ .disassociate t x y ∈ a.pending
  missing : ∀ t x y, Drawn a.nodes links t x y → Stored a.server t x y ∨
    ∃ l ∈ a.newLinks, l.linkType = t ∧ HasId a.nodes l.source x ∧ HasId a.nodes l.target y
  newLinks : ∀ l ∈ a.newLinks, l ∈ links ∧ l.source ≠ 1

structure Associating (links : List Link) (a : Attempt) : Prop extends Complete a where
  removed : ∀ t x y, Stored a.server t x y → Drawn a.nodes links t x y
  added : ∀ t x y, Drawn a.nodes links t x y → Stored a.server t x y ∨ .associate t x y ∈ a.pending

structure Finished (links : List Link) (a : Attempt) : Prop extends Complete a where
  rows : ∀ t x y, Stored a.server t x y ↔ Drawn a.nodes links t x y
  none : a.pending = []

/-- What the batches so far have achieved. -/
def Progress (links : List Link) (a : Attempt) : Prop :=
  match a.phase with
  | .nodes => NodesPhase a
  | .disassociating => Disassociating links a
  | .associating => Associating links a
  | .finishing => Finished links a
  | .done => Finished links a
  | .failed => True

structure Sane (links : List Link) (a : Attempt) : Prop where
  core : Core a.server a.nodes links a.originalLinkMap a.deletedNodeIds
  valid : ∀ r ∈ a.pending, Valid a.server a.nodes links r
  once : (a.pending.filterMap Request.key).Nodup
  settled : ∀ t x y, .associate t x y ∈ a.pending →
    ∀ t x y, Stored a.server t x y → Drawn a.nodes links t x y
  progress : Progress links a

variable {links : List Link} {a : Attempt} {r : Request} {server : Server} {n i : ℕ}

theorem mem_of_take {x : Request} (hx : x ∈ (a.take r).pending) : x ∈ a.pending :=
  List.mem_of_mem_erase hx

theorem mem_take {x : Request} (hx : x ∈ a.pending) (hne : x ≠ r) : x ∈ (a.take r).pending :=
  (List.mem_erase_of_ne hne).mpr hx

theorem Sane.once_take (h : Sane links a) : ((a.take r).pending.filterMap Request.key).Nodup :=
  h.once.sublist (List.erase_sublist.filterMap _)

/-- The other requests are for other nodes. -/
theorem Sane.key_take (h : Sane links a) (hr : r ∈ a.pending) {key : Bool × ℕ}
    (hk : r.key = some key) : ∀ x ∈ (a.take r).pending, x.key ≠ some key := by
  intro x hx hxk
  have hperm := (List.perm_cons_erase hr).filterMap Request.key
  rw [List.filterMap_cons_some hk] at hperm
  exact (List.nodup_cons.mp (hperm.nodup_iff.mp h.once)).1 (List.mem_filterMap.mpr ⟨x, hx, hxk⟩)

theorem Sane.failed (h : Sane links a) : Sane links (a.take r).fail where
  core := h.core
  valid x hx := h.valid x (mem_of_take hx)
  once := h.once_take
  settled t x y hx := h.settled t x y (mem_of_take hx)
  progress := trivial

/-! ### Rows and nodes that the server gives up or takes in -/

/-- What the server has done for a request. -/
def Fulfilled (server : Server) : Request → Prop
  | .destroy id => id ∉ server.template.nodes
  | .createNode _ _ => False
  | .disassociate t x y => ¬ Stored server t x y
  | .associate t x y => Stored server t x y
  | _ => True

theorem Progress.served (hp : Progress links a) (hr : r ∈ a.pending)
    (hnodes : ∀ n ∈ server.template.nodes, n ∈ a.server.template.nodes)
    (hgain : ∀ t x y, Stored server t x y → Stored a.server t x y ∨ Drawn a.nodes links t x y)
    (hlose : ∀ t x y, Drawn a.nodes links t x y → Stored a.server t x y → Stored server t x y)
    (hdone : Fulfilled server r) : Progress links { a.take r with server := server } := by
  have hnone : a.pending ≠ [] := List.ne_nil_of_mem hr
  unfold Progress at hp ⊢
  change match a.phase with
    | .nodes => NodesPhase { a.take r with server := server }
    | .disassociating => Disassociating links { a.take r with server := server }
    | .associating => Associating links { a.take r with server := server }
    | .finishing => Finished links { a.take r with server := server }
    | .done => Finished links { a.take r with server := server }
    | .failed => True
  cases hphase : a.phase <;> rw [hphase] at hp <;> dsimp only at hp ⊢
  · refine ⟨fun i hi => ?_, fun k hk => ?_, hp.entered⟩
    · rcases hp.destroyed i hi with hpend | hgone
      · by_cases heq : Request.destroy i = r
        · subst heq
          exact .inr hdone
        · exact .inl (mem_take hpend heq)
      · exact .inr fun hin => hgone (hnodes i hin)
    · refine (hp.created k hk).imp_right fun ⟨b, hb⟩ => ⟨b, mem_take hb ?_⟩
      rintro rfl
      exact hdone
  · refine ⟨⟨hp.entered, fun n hn => hp.live n (hnodes n hn)⟩, fun t x y hs => ?_,
      fun t x y hd => (hp.missing t x y hd).imp_left (hlose t x y hd), hp.newLinks⟩
    rcases hgain t x y hs with hold | hd
    · refine (hp.removed t x y hold).imp_right fun hpend => mem_take hpend ?_
      rintro rfl
      exact hdone hs
    · exact .inl hd
  · refine ⟨⟨hp.entered, fun n hn => hp.live n (hnodes n hn)⟩, fun t x y hs => ?_,
      fun t x y hd => ?_⟩
    · exact (hgain t x y hs).elim (hp.removed t x y) id
    · rcases hp.added t x y hd with hs | hpend
      · exact .inl (hlose t x y hd hs)
      · by_cases heq : Request.associate t x y = r
        · subst heq
          exact .inl hdone
        · exact .inr (mem_take hpend heq)
  · exact absurd hp.none hnone
  · exact absurd hp.none hnone

theorem Sane.ofTemplate (h : Sane links a) (hr : r ∈ a.pending)
    (hnodes : ∀ n ∈ server.template.nodes, n ∈ a.server.template.nodes)
    (hlive : ∀ i, LiveId a.nodes i → i ∈ a.server.template.nodes → i ∈ server.template.nodes)
    (happroval : server.isApproval = a.server.isApproval) (hnext : server.nextId = a.server.nextId)
    (hgain : ∀ t x y, Stored server t x y → Stored a.server t x y ∨ Drawn a.nodes links t x y)
    (hlose : ∀ t x y, Drawn a.nodes links t x y → Stored a.server t x y → Stored server t x y)
    (hdone : Fulfilled server r) : Sane links { a.take r with server := server } where
  core := h.core.ofTemplate hnodes hlive happroval hnext hgain hlose
  valid x hx := (h.valid x (mem_of_take hx)).ofApproval fun i hi _ => happroval ▸ hi
  once := h.once_take
  settled t x y hx t' x' y' hs := by
    rcases hgain t' x' y' hs with hs | hd
    · exact h.settled t x y (mem_of_take hx) t' x' y' hs
    · exact hd
  progress := h.progress.served hr hnodes hgain hlose hdone

theorem Sane.ofApproval (h : Sane links a) (hr : r ∈ a.pending)
    (htemplate : server.template = a.server.template) (hnext : server.nextId = a.server.nextId)
    (hset : ∀ i, server.isApproval i = a.server.isApproval i ∨ ∀ node ∈ a.nodes, ∀ original,
      node.originalNodeObject = some original → original.id = i →
        server.isApproval i = node.isApprovalTemplate)
    (hdone : Fulfilled server r) : Sane links { a.take r with server := server } where
  core := h.core.ofApproval htemplate hnext hset
  valid x hx := (h.valid x (mem_of_take hx)).ofApproval fun i hi hshows => by
    obtain ⟨node, hmem, ⟨-, happr⟩, o, ho, hoi⟩ := hshows
    rcases hset i with heq | heq
    · exact heq.trans hi
    · exact (heq node hmem o ho hoi).trans happr
  once := h.once_take
  settled t x y hx t' x' y' hs := by
    rw [Stored, htemplate] at hs
    exact h.settled t x y (mem_of_take hx) t' x' y' hs
  progress := by
    refine h.progress.served hr (fun n hn => htemplate ▸ hn) (fun t x y hs => .inl ?_)
      (fun t x y _ hs => ?_) hdone
    · rw [Stored, htemplate] at hs
      exact hs
    · rw [Stored, htemplate]
      exact hs

/-! ### Nodes that are answered with -/

theorem Progress.read (h : Sane links a) (hr : r ∈ a.pending) (hni : HasId a.nodes n i)
    (hdone : Fulfilled a.server r) (extra : List Request) :
    Progress links { a.take r with
      nodes := setOriginal a.nodes n (readNode a.server i)
      pending := (a.take r).pending ++ extra } := by
  have hd := h.core.saveable.drawn
  have hid : ∀ {k j}, HasId (setOriginal a.nodes n (readNode a.server i)) k j ↔
      HasId a.nodes k j := hasId_read hd hni
  have hdr : ∀ {t x y}, Drawn (setOriginal a.nodes n (readNode a.server i)) links t x y ↔
      Drawn a.nodes links t x y := drawn_read hd hni
  have hdata : ∀ j, HasId a.nodes n j ↔ (readNode a.server i).id = j := by
    intro j
    constructor
    · exact hd.hasId_inj hni
    · rintro rfl
      exact hni
  have hp := h.progress.served hr (fun _ hn => hn) (fun _ _ _ hs => .inl hs) (fun _ _ _ _ hs => hs)
    hdone
  have hnone : a.pending ≠ [] := List.ne_nil_of_mem hr
  have hq := h.progress
  unfold Progress at hp hq ⊢
  change match a.phase with
    | .nodes => NodesPhase { a.take r with
        nodes := setOriginal a.nodes n (readNode a.server i)
        pending := (a.take r).pending ++ extra }
    | .disassociating => Disassociating links { a.take r with
        nodes := setOriginal a.nodes n (readNode a.server i)
        pending := (a.take r).pending ++ extra }
    | .associating => Associating links { a.take r with
        nodes := setOriginal a.nodes n (readNode a.server i)
        pending := (a.take r).pending ++ extra }
    | .finishing => Finished links { a.take r with
        nodes := setOriginal a.nodes n (readNode a.server i)
        pending := (a.take r).pending ++ extra }
    | .done => Finished links { a.take r with
        nodes := setOriginal a.nodes n (readNode a.server i)
        pending := (a.take r).pending ++ extra }
    | .failed => True
  dsimp only [Attempt.take] at hp
  cases hphase : a.phase <;> rw [hphase] at hp hq <;> dsimp only at hp hq ⊢
  · refine ⟨fun j hj => ?_, fun k hk => ?_, fun k j hk hj => ?_⟩
    · exact (hp.destroyed j (shows_setOriginal (fun _ _ hdel => hdel) (hdata j) hd.ids hj)).imp_left
        (List.mem_append_left _)
    · rcases hp.created k (live_setOriginal.mp hk) with ⟨j, hj⟩ | ⟨b, hb⟩
      · exact .inl ⟨j, hid.mpr hj⟩
      · exact .inr ⟨b, List.mem_append_left _ hb⟩
    · exact hp.entered k j (live_setOriginal.mp hk) (hid.mp hj)
  · refine ⟨⟨fun k hk => hp.entered k (live_setOriginal.mp hk),
      fun m hm => (liveId_read hd hni).mpr (hp.live m hm)⟩, fun t x y hs => ?_, fun t x y hdt => ?_,
      hp.newLinks⟩
    · exact (hp.removed t x y hs).imp hdr.mpr (List.mem_append_left _)
    · refine (hp.missing t x y (hdr.mp hdt)).imp_right ?_
      rintro ⟨l, hl, ht, hx, hy⟩
      exact ⟨l, hl, ht, hid.mpr hx, hid.mpr hy⟩
  · refine ⟨⟨fun k hk => hp.entered k (live_setOriginal.mp hk),
      fun m hm => (liveId_read hd hni).mpr (hp.live m hm)⟩, fun t x y hs => ?_, fun t x y hdt => ?_⟩
    · exact hdr.mpr (hp.removed t x y hs)
    · exact (hp.added t x y (hdr.mp hdt)).imp_right (List.mem_append_left _)
  · exact absurd hq.none hnone
  · exact absurd hq.none hnone

theorem Sane.read (h : Sane links a) (hr : r ∈ a.pending) (hni : HasId a.nodes n i)
    (hdone : Fulfilled a.server r) {x : Request} (hx : Valid a.server a.nodes links x)
    (hkey : x.key = none) (hrow : ∀ t y z, x ≠ .associate t y z) :
    Sane links { a.take r with
      nodes := setOriginal a.nodes n (readNode a.server i)
      pending := (a.take r).pending ++ [x] } where
  core := h.core.read hni
  valid y hy := by
    rcases List.mem_append.mp hy with hy | hy
    · exact (h.valid y (mem_of_take hy)).read h.core.saveable.drawn hni
    · rw [List.mem_singleton.mp hy]
      exact hx.read h.core.saveable.drawn hni
  once := by
    rw [List.filterMap_append, List.filterMap_cons_none hkey, List.filterMap_nil, List.append_nil]
    exact h.once_take
  settled t y z hy t' y' z' hs := by
    rcases List.mem_append.mp hy with hy | hy
    · exact (drawn_read h.core.saveable.drawn hni).mpr
        (h.settled t y z (mem_of_take hy) t' y' z' hs)
    · exact absurd (List.mem_singleton.mp hy).symm (hrow t y z)
  progress := Progress.read h hr hni hdone [x]

theorem Progress.created (h : Sane links a) {b : Bool} (hr : .createNode n b ∈ a.pending)
    (hn : Live a.nodes n) (hnone : ∀ i, ¬ HasId a.nodes n i) (extra : List Request) :
    Progress links { a.take (.createNode n b) with
      server := a.server.createNode
      nodes := setOriginal a.nodes n (readNode a.server.createNode a.server.nextId)
      originalLinkMap := a.originalLinkMap ++ [(n, ⟨a.server.nextId, [], [], []⟩)]
      pending := (a.take (.createNode n b)).pending ++ extra } := by
  have hq := h.progress
  unfold Progress at hq ⊢
  -- from the second batch on, every node of the chart has its entry already
  have hlater : Complete a → False := by
    intro hc
    obtain ⟨e, he, heq⟩ := hc.entered n hn
    exact hnone _ (heq ▸ (h.core.entries e he).2)
  dsimp only [Attempt.take] at hq ⊢
  cases hphase : a.phase <;> rw [hphase] at hq <;> dsimp only at hq ⊢
  · refine ⟨fun i hi => ?_, fun k hk => ?_, fun k i hk hi => ?_⟩
    · have hdel := (h.core.deleted i).mp (((h.core.created hn hnone).deleted i).mpr hi)
      rcases hq.destroyed i hdel with hpend | hgone
      · exact .inl (List.mem_append_left _ (mem_take hpend (by rintro ⟨⟩)))
      · refine .inr fun hin => ?_
        rcases List.mem_append.mp hin with hin | hin
        · exact hgone hin
        · obtain ⟨node, -, -, hk⟩ := hdel.hasId
          exact Nat.ne_of_lt (h.core.saveable.issued _ _ hk) (List.mem_singleton.mp hin)
    · by_cases hkn : k = n
      · exact .inl ⟨a.server.nextId, (hasId_created hn hnone).mpr (.inr ⟨hkn, rfl⟩)⟩
      · rcases hq.created k (live_setOriginal.mp hk) with ⟨i, hi⟩ | ⟨b', hb⟩
        · exact .inl ⟨i, (hasId_created hn hnone).mpr (.inl hi)⟩
        · refine .inr ⟨b', List.mem_append_left _ (mem_take hb fun he => hkn ?_)⟩
          cases he
          rfl
    · rcases (hasId_created hn hnone).mp hi with hi | ⟨rfl, -⟩
      · obtain ⟨e, he, hek⟩ := hq.entered k i (live_setOriginal.mp hk) hi
        exact ⟨e, List.mem_append_left _ he, hek⟩
      · exact ⟨_, List.mem_append_right _ (List.mem_singleton.mpr rfl), rfl⟩
  · exact (hlater hq.toComplete).elim
  · exact (hlater hq.toComplete).elim
  · exact (hlater hq.toComplete).elim
  · exact (hlater hq.toComplete).elim

theorem Sane.created (h : Sane links a) {b : Bool} (hr : .createNode n b ∈ a.pending)
    (hn : Live a.nodes n) (hnone : ∀ i, ¬ HasId a.nodes n i) (extra : List Request)
    (hextra : ∀ x ∈ extra, x.key = none ∧ (∀ t y z, x ≠ .associate t y z) ∧
      Valid a.server.createNode
        (setOriginal a.nodes n (readNode a.server.createNode a.server.nextId)) links x) :
    Sane links { a.take (.createNode n b) with
      server := a.server.createNode
      nodes := setOriginal a.nodes n (readNode a.server.createNode a.server.nextId)
      originalLinkMap := a.originalLinkMap ++ [(n, ⟨a.server.nextId, [], [], []⟩)]
      pending := (a.take (.createNode n b)).pending ++ extra } where
  core := h.core.created hn hnone
  valid x hx := by
    rcases List.mem_append.mp hx with hx | hx
    · refine (h.valid x (mem_of_take hx)).created h.core.saveable hn hnone fun b' he => ?_
      have hkey : (Request.createNode n b).key = some (false, n) := rfl
      exact h.key_take hr hkey x hx (he ▸ rfl)
    · exact (hextra x hx).2.2
  once := by
    have hnil : extra.filterMap Request.key = [] := by
      rw [List.filterMap_eq_nil_iff]
      exact fun x hx => (hextra x hx).1
    rw [List.filterMap_append, hnil, List.append_nil]
    exact h.once_take
  settled t x y hx t' x' y' hs := by
    rcases List.mem_append.mp hx with hx | hx
    · have hmem := a.server.template.edges_nodes _ _ (stored_createNode.mp hs)
      rw [drawn_created hn hnone (a.server.issued _ hmem.1) (a.server.issued _ hmem.2)]
      exact h.settled t x y (mem_of_take hx) t' x' y' hs
    · exact absurd rfl ((hextra _ hx).2.1 t x y)
  progress := Progress.created h hr hn hnone extra

/-! ### Every request -/

theorem Sane.serve_destroy (h : Sane links a) {id : ℕ} (hr : .destroy id ∈ a.pending) :
    Sane links ((a.take (.destroy id)).serve (.destroy id)) := by
  obtain ⟨node, hmem, hdel, o, ho, hoid⟩ := h.valid _ hr
  have hnot : ¬ LiveId a.nodes id := hoid ▸ h.core.saveable.drawn.not_liveId hmem ho hdel
  have hserver : (a.take (.destroy id)).server = a.server := rfl
  rw [Attempt.serve, hserver]
  unfold Server.destroy
  split_ifs with hin
  · refine h.ofTemplate hr (fun n hn => (Template.mem_destroy.mp hn).1) (fun i hi hn => ?_) rfl rfl
      (fun t x y hs => .inl (Template.destroy_edge.mp hs).1) (fun t x y hd hs => ?_) fun hn => ?_
    · exact Template.mem_destroy.mpr ⟨hn, fun he => hnot (he ▸ hi)⟩
    · obtain ⟨hx, hy⟩ := h.core.saveable.drawn.liveId_of_drawn hd
      exact Template.destroy_edge.mpr ⟨hs, fun he => hnot (he ▸ hx), fun he => hnot (he ▸ hy)⟩
    · exact (Template.mem_destroy.mp hn).2 rfl
  · exact h.failed

theorem live_of_createNode {server : Server} {nodes : List Node} {b : Bool}
    (hids : (nodes.map Node.id).Nodup) (hv : Valid server nodes links (.createNode n b)) :
    Live nodes n ∧ (∀ i, ¬ HasId nodes n i) ∧
      ∃ node ∈ nodes, node.id = n ∧ node.isDeleted = false ∧ node.isApprovalTemplate = b := by
  obtain ⟨node, hmem, hn, h1, hdel, hnone, hb⟩ := hv
  refine ⟨⟨node, hmem, hn, hdel, h1⟩, fun i => ?_, node, hmem, hn, hdel, hb⟩
  rintro ⟨node', hmem', hn', o, ho, -⟩
  have heq : node = node' := List.inj_on_of_nodup_map hids hmem hmem' (hn.trans hn'.symm)
  subst heq
  rw [hnone] at ho
  cases ho

theorem Sane.serve_createNode (h : Sane links a) {b : Bool} (hr : .createNode n b ∈ a.pending) :
    Sane links ((a.take (.createNode n b)).serve (.createNode n b)) := by
  obtain ⟨hlive, hnone, node, hmem, hn, hdel, hb⟩ :=
    live_of_createNode h.core.saveable.drawn.ids (h.valid _ hr)
  cases b with
  | false =>
    have hs := h.created hr hlive hnone [] fun x hx => absurd hx List.not_mem_nil
    rw [List.append_nil] at hs
    exact hs
  | true =>
    refine h.created hr hlive hnone [.createApprovalTemplate a.server.nextId]
      fun x hx => ?_
    rw [List.mem_singleton.mp hx]
    exact ⟨rfl, (by rintro _ _ _ ⟨⟩), _, mem_setOriginal.mpr (.inr ⟨node, hmem, hn, rfl⟩),
      ⟨hdel, hb⟩, _, rfl, rfl⟩

theorem update_approval {server : Server} (hi : i ∈ server.template.nodes) :
    server.update i false = some server := by
  rw [Server.update, if_pos hi, if_neg Bool.false_ne_true]

theorem Sane.serve_updateNode (h : Sane links a) {b was : Bool}
    (hr : .updateNode n i b was ∈ a.pending) :
    Sane links ((a.take (.updateNode n i b was)).serve (.updateNode n i b was)) := by
  obtain ⟨⟨node, hmem, ⟨hn, hdel, hb⟩, o, ho, hoi⟩, hwas⟩ := h.valid _ hr
  have hni : HasId a.nodes n i := hn ▸ hoi ▸ hasId_of_mem hmem ho
  rw [Attempt.serve]
  by_cases hin : i ∈ a.server.template.nodes
  · cases b with
    | true =>
      have hupdate : (a.take (.updateNode n i true was)).server.update i (!true) = some a.server :=
        update_approval hin
      rw [hupdate]
      dsimp only
      rw [if_pos rfl]
      refine h.read hr hni trivial ?_ ?_ ?_
      · cases was with
        | true => exact ⟨⟨node, hmem, ⟨hdel, hb⟩, o, ho, hoi⟩, hwas rfl rfl⟩
        | false => exact ⟨node, hmem, ⟨hdel, hb⟩, o, ho, hoi⟩
      · cases was <;> rfl
      · cases was <;> rintro _ _ _ ⟨⟩
    | false =>
      have hupdate : (a.take (.updateNode n i false was)).server.update i (!false) =
          some { a.server with isApproval := Function.update a.server.isApproval i false } := by
        exact (if_pos hin).trans rfl
      rw [hupdate]
      dsimp only
      rw [if_neg Bool.false_ne_true]
      refine h.ofApproval hr rfl rfl (fun j => ?_) trivial
      by_cases hj : j = i
      · refine .inr fun node' hmem' o' ho' hoj => ?_
        have hnode : node'.id = n := h.core.saveable.drawn.inj _ _ i
          (hj ▸ hoj ▸ hasId_of_mem hmem' ho') hni
        have heq : node = node' := List.inj_on_of_nodup_map h.core.saveable.drawn.ids hmem hmem'
          (hn.trans hnode.symm)
        rw [hj, ← heq, hb]
        exact Function.update_self ..
      · exact .inl (Function.update_of_ne hj ..)
  · have hupdate : (a.take (.updateNode n i b was)).server.update i (!b) = none := if_neg hin
    rw [hupdate]
    exact h.failed

theorem Sane.serve_createApprovalTemplate (h : Sane links a)
    (hr : .createApprovalTemplate i ∈ a.pending) :
    Sane links ((a.take (.createApprovalTemplate i)).serve (.createApprovalTemplate i)) := by
  obtain ⟨node, hmem, ⟨-, hb⟩, o, ho, hoi⟩ := h.valid _ hr
  have hni : HasId a.nodes node.id i := hoi ▸ hasId_of_mem hmem ho
  have hserver : (a.take (.createApprovalTemplate i)).server = a.server := rfl
  rw [Attempt.serve, hserver]
  unfold Server.createApprovalTemplate
  split_ifs with hin
  · refine h.ofApproval hr rfl rfl (fun j => ?_) trivial
    by_cases hj : j = i
    · refine .inr fun node' hmem' o' ho' hoj => ?_
      have hnode : node.id = node'.id := h.core.saveable.drawn.inj _ _ i hni
        (hj ▸ hoj ▸ hasId_of_mem hmem' ho')
      have heq : node = node' := List.inj_on_of_nodup_map h.core.saveable.drawn.ids hmem hmem' hnode
      rw [hj, ← heq, hb]
      exact Function.update_self ..
    · exact .inl (Function.update_of_ne hj ..)
  · exact h.failed

theorem Sane.serve_updateApprovalTemplate (h : Sane links a)
    (hr : .updateApprovalTemplate i ∈ a.pending) :
    Sane links ((a.take (.updateApprovalTemplate i)).serve (.updateApprovalTemplate i)) := by
  have hserver : (a.take (.updateApprovalTemplate i)).server = a.server := rfl
  rw [Attempt.serve, hserver]
  unfold Server.updateApprovalTemplate
  split_ifs with hin
  · exact h.ofApproval hr rfl rfl (fun j => .inl rfl) trivial
  · exact h.failed

theorem Sane.serve_disassociate (h : Sane links a) {t : LinkType} {x y : ℕ}
    (hr : .disassociate t x y ∈ a.pending) :
    Sane links ((a.take (.disassociate t x y)).serve (.disassociate t x y)) := by
  obtain ⟨-, -, hnot⟩ := h.valid _ hr
  have hserver : (a.take (.disassociate t x y)).server = a.server := rfl
  rw [Attempt.serve, hserver]
  unfold Server.disassociate
  split_ifs with hin
  · refine h.ofTemplate hr (fun n hn => hn) (fun i _ hn => hn) rfl rfl
      (fun t' x' y' hs => .inl (Template.remove_edge.mp hs).1) (fun t' x' y' hd hs => ?_) fun hs => ?_
    · refine Template.remove_edge.mpr ⟨hs, ?_⟩
      rintro ⟨ht, rfl, rfl⟩
      exact hnot (relationship_inj ht ▸ hd)
    · exact (Template.remove_edge.mp hs).2 ⟨rfl, rfl, rfl⟩
  · exact h.failed

theorem exists_linkType (l : EdgeLabel) : ∃ t : LinkType, t.relationship = l := by
  cases l
  · exact ⟨.success, rfl⟩
  · exact ⟨.failure, rfl⟩
  · exact ⟨.always, rfl⟩

/-- The rows that are there are drawn, so that one more drawn row is accepted. -/
theorem accepted {server : Server} {nodes : List Node} {t : LinkType} {x y : ℕ}
    (hs : Saveable server nodes links)
    (hsub : ∀ t x y, Stored server t x y → Drawn nodes links t x y)
    (hd : Drawn nodes links t x y) :
    ∃ server', server.associate t.relationship x y = (true, server') ∧
      server'.template.nodes = server.template.nodes ∧
      server'.isApproval = server.isApproval ∧ server'.nextId = server.nextId ∧
      ∀ t' x' y', Stored server' t' x' y' ↔
        Stored server t' x' y' ∨ (t' = t ∧ x' = x ∧ y' = y) := by
  have hparent : ∀ x y, server.template.Parent x y → ∃ t, Drawn nodes links t x y := by
    rintro x y ⟨l, hl⟩
    obtain ⟨t, rfl⟩ := exists_linkType l
    exact ⟨t, hsub t x y hl⟩
  obtain ⟨hx, hy⟩ := hs.drawn.liveId_of_drawn hd
  have hac := hs.drawn.acyclic_drawn
  have hother : ∀ l, l ≠ t.relationship → ¬ server.template.Edge l x y := by
    intro l hl hold
    obtain ⟨t', rfl⟩ := exists_linkType l
    exact hl (congrArg _ (hs.drawn.drawn_unique (hsub t' x y hold) hd))
  have hcl : ¬ server.template.Closes x y := fun hcl =>
    hac x (TransGen.head' ⟨t, hd⟩ (reach_mono hparent hcl))
  obtain ⟨server', hassoc, hnodes, happroval, hnext, hedge⟩ := Server.associate_accepted
    (hac.mono hparent) ⟨hs.stored x hx, hs.stored y hy⟩ hother hcl
  refine ⟨server', hassoc, hnodes, happroval, hnext, fun t' x' y' => ?_⟩
  rw [Stored, hedge]
  exact or_congr_right (and_congr_left' ⟨relationship_inj, congrArg _⟩)

theorem Sane.serve_associate (h : Sane links a) {t : LinkType} {x y : ℕ}
    (hr : .associate t x y ∈ a.pending) :
    Sane links ((a.take (.associate t x y)).serve (.associate t x y)) := by
  have hd : Drawn a.nodes links t x y := h.valid _ hr
  obtain ⟨server, hassoc, hnodes, happroval, hnext, hstored⟩ :=
    accepted h.core.saveable (h.settled t x y hr) hd
  have hserve : (a.take (.associate t x y)).serve (.associate t x y) =
      { a.take (.associate t x y) with server := server } := by
    rw [Attempt.serve, show (a.take (.associate t x y)).server.associate t.relationship x y =
      (true, server) from hassoc]
  rw [hserve]
  refine h.ofTemplate hr (fun n hn => hnodes ▸ hn) (fun i _ hn => hnodes ▸ hn) happroval hnext
    (fun t' x' y' hs => ?_) (fun t' x' y' _ hs => (hstored t' x' y').mpr (.inl hs)) ?_
  · refine ((hstored t' x' y').mp hs).imp_right ?_
    rintro ⟨rfl, rfl, rfl⟩
    exact hd
  · exact (hstored t x y).mpr (.inr ⟨rfl, rfl, rfl⟩)

theorem Sane.serve (h : Sane links a) (hr : r ∈ a.pending) : Sane links ((a.take r).serve r) := by
  cases r with
  | destroy id => exact h.serve_destroy hr
  | createNode n b => exact h.serve_createNode hr
  | updateNode n id b was => exact h.serve_updateNode hr
  | createApprovalTemplate id => exact h.serve_createApprovalTemplate hr
  | updateApprovalTemplate id => exact h.serve_updateApprovalTemplate hr
  | disassociate t x y => exact h.serve_disassociate hr
  | associate t x y => exact h.serve_associate hr

end Forail.Visualizer
