import Forail.Base.Runs
import Forail.Ui.SaveRuns
import Mathlib.Algebra.GroupWithZero.Nat
import Mathlib.Data.Prod.Lex

/-! An attempt of which nothing is lost. Where the nodes to be deleted are still there and every
approval has its template or is about to get it, the server serves every request, in whatever order,
and comes to hold what is drawn. -/

namespace Forail.Visualizer

open Relation Acyclicity Api Scheduler

/-- What a save leaves on the server. -/
structure Right (links : List Link) (a : Attempt) : Prop where
  nodes : ∀ n, n ∈ a.server.template.nodes ↔ LiveId a.nodes n
  exists_id : ∀ k, Live a.nodes k → ∃ i, HasId a.nodes k i
  one_id : ∀ k i j, HasId a.nodes k i → HasId a.nodes k j → i = j
  one_node : ∀ k k' i, HasId a.nodes k i → HasId a.nodes k' i → k = k'
  rows : ∀ t x y, Stored a.server t x y ↔ Drawn a.nodes links t x y
  templates : ∀ node ∈ a.nodes, ∀ o, node.originalNodeObject = some o → node.isDeleted = false →
    a.server.isApproval o.id = node.isApprovalTemplate

/-- A node but for what the server answered. -/
def Node.bare (node : Node) : Node := { node with originalNodeObject := none }

/-- The save has come to its end, and the server holds what was drawn. -/
def Saved (nodes : List Node) (links : List Link) (a : Attempt) : Prop :=
  a.phase = .done ∧ a.nodes.map Node.bare = nodes.map Node.bare ∧ Right links a

/-- A node has an approval template just if it is drawn as an approval, or this is under way. -/
def Templates (a : Attempt) : Prop :=
  ∀ node ∈ a.nodes, ∀ o, node.originalNodeObject = some o → node.isDeleted = false →
    a.server.isApproval o.id = node.isApprovalTemplate ∨
      (node.isApprovalTemplate = true ∧ .createApprovalTemplate o.id ∈ a.pending) ∨
        ∃ was, .updateNode node.id o.id node.isApprovalTemplate was ∈ a.pending

structure Good (links : List Link) (a : Attempt) : Prop where
  sane : Sane links a
  templates : Templates a
  present : ∀ id, .destroy id ∈ a.pending → id ∈ a.server.template.nodes
  going : a.phase ≠ .failed

variable {server : Server} {nodes : List Node} {links : List Link} {a a' : Attempt} {r : Request}
  {n i : ℕ}

/-! ### The chart -/

theorem bare_setOriginal {data : WorkflowNode} :
    (setOriginal nodes n data).map Node.bare = nodes.map Node.bare := by
  rw [setOriginal, List.map_map]
  refine List.map_congr_left fun node _ => ?_
  rw [Function.comp]
  split_ifs <;> rfl

theorem bare_serve (a : Attempt) (r : Request) :
    (a.serve r).nodes.map Node.bare = a.nodes.map Node.bare := by
  cases r with
  | createNode m b => exact bare_setOriginal
  | updateNode m id b was =>
    rw [Attempt.serve]
    split
    · split
      · exact bare_setOriginal
      · rfl
    · rfl
  | destroy id => rw [Attempt.serve]; split <;> rfl
  | createApprovalTemplate id => rw [Attempt.serve]; split <;> rfl
  | updateApprovalTemplate id => rw [Attempt.serve]; split <;> rfl
  | disassociate t x y => rw [Attempt.serve]; split <;> rfl
  | associate t x y => rw [Attempt.serve]; split <;> rfl

theorem bare_proceed (a : Attempt) : (a.proceed links).nodes = a.nodes := by
  unfold Attempt.proceed
  cases a.phase with
  | nodes => dsimp only; split <;> rfl
  | disassociating => dsimp only; split <;> rfl
  | associating => rfl
  | finishing => rfl
  | done => rfl
  | failed => rfl

/-- An attempt changes nothing in the chart but the ids of its nodes. -/
theorem bare_step {e : Event} (hstep : Attempt.Step links a e a') :
    a'.nodes.map Node.bare = a.nodes.map Node.bare := by
  cases hstep with
  | serve _ => exact bare_serve _ _
  | proceed _ _ _ => rw [bare_proceed]
  | lose _ => rfl
  | loseOther _ => rfl

/-! ### Requests that are served -/

/-- A request that is not for a template, and leaves the templates as they are. -/
theorem Templates.take (h : Templates a) (happroval : server.isApproval = a.server.isApproval)
    (hcreate : ∀ i, r ≠ .createApprovalTemplate i) (hupdate : ∀ n i b was, r ≠ .updateNode n i b was) :
    Templates { a.take r with server := server } := by
  intro node hmem o ho hdel
  change server.isApproval o.id = _ ∨ _
  rw [happroval]
  rcases h node hmem o ho hdel with heq | ⟨happr, hpend⟩ | ⟨was, hpend⟩
  · exact .inl heq
  · exact .inr (.inl ⟨happr, mem_take hpend (hcreate _).symm⟩)
  · exact .inr (.inr ⟨was, mem_take hpend (hupdate _ _ _ _).symm⟩)

theorem Good.serve_destroy (h : Good links a) {id : ℕ} (hr : .destroy id ∈ a.pending) :
    Good links ((a.take (.destroy id)).serve (.destroy id)) := by
  have hsane := h.sane.serve hr
  obtain ⟨server, hserver⟩ : ∃ server, a.server.destroy id = some server := by
    rw [Server.destroy, if_pos (h.present id hr)]
    exact ⟨_, rfl⟩
  have hserve : (a.take (.destroy id)).serve (.destroy id) =
      { a.take (.destroy id) with server := server } := by
    rw [Attempt.serve, show (a.take (.destroy id)).server.destroy id = some server from hserver]
  rw [hserve] at hsane ⊢
  rw [Server.destroy, if_pos (h.present id hr)] at hserver
  cases hserver
  refine ⟨hsane, h.templates.take rfl (by rintro _ ⟨⟩) (by rintro _ _ _ _ ⟨⟩),
    fun id' hpend => ?_, h.going⟩
  refine Template.mem_destroy.mpr ⟨h.present id' (mem_of_take hpend), fun heq => ?_⟩
  have hkey : (Request.destroy id).key = some (true, id) := rfl
  exact h.sane.key_take hr hkey _ hpend (heq ▸ rfl)

theorem Good.serve_disassociate (h : Good links a) {t : LinkType} {x y : ℕ}
    (hr : .disassociate t x y ∈ a.pending) :
    Good links ((a.take (.disassociate t x y)).serve (.disassociate t x y)) := by
  have hsane := h.sane.serve hr
  obtain ⟨hx, hy, -⟩ := h.sane.valid _ hr
  have hin : x ∈ a.server.template.nodes ∧ y ∈ a.server.template.nodes :=
    ⟨h.sane.core.saveable.stored x hx, h.sane.core.saveable.stored y hy⟩
  have hserver : (a.take (.disassociate t x y)).server.disassociate t.relationship x y =
      some { a.server with template := a.server.template.remove t.relationship x y } := if_pos hin
  have hserve : (a.take (.disassociate t x y)).serve (.disassociate t x y) =
      { a.take (.disassociate t x y) with
        server := { a.server with template := a.server.template.remove t.relationship x y } } := by
    rw [Attempt.serve, hserver]
  rw [hserve] at hsane ⊢
  exact ⟨hsane, h.templates.take rfl (by rintro _ ⟨⟩) (by rintro _ _ _ _ ⟨⟩),
    fun id hpend => h.present id (mem_of_take hpend), h.going⟩

theorem Good.serve_associate (h : Good links a) {t : LinkType} {x y : ℕ}
    (hr : .associate t x y ∈ a.pending) :
    Good links ((a.take (.associate t x y)).serve (.associate t x y)) := by
  have hsane := h.sane.serve hr
  obtain ⟨server, hassoc, hnodes, happroval, -⟩ :=
    accepted h.sane.core.saveable (h.sane.settled t x y hr) (h.sane.valid _ hr)
  have hserve : (a.take (.associate t x y)).serve (.associate t x y) =
      { a.take (.associate t x y) with server := server } := by
    rw [Attempt.serve, show (a.take (.associate t x y)).server.associate t.relationship x y =
      (true, server) from hassoc]
  rw [hserve] at hsane ⊢
  refine ⟨hsane, h.templates.take happroval (by rintro _ ⟨⟩) (by rintro _ _ _ _ ⟨⟩),
    fun id hpend => ?_, h.going⟩
  change id ∈ server.template.nodes
  rw [hnodes]
  exact h.present id (mem_of_take hpend)

theorem Good.serve_updateApprovalTemplate (h : Good links a)
    (hr : .updateApprovalTemplate i ∈ a.pending) :
    Good links ((a.take (.updateApprovalTemplate i)).serve (.updateApprovalTemplate i)) := by
  have hsane := h.sane.serve hr
  obtain ⟨⟨node, hmem, ⟨hdel, -⟩, o, ho, hoi⟩, happr⟩ := h.sane.valid _ hr
  have hin : i ∈ a.server.template.nodes := h.sane.core.saveable.stored i
    (hoi ▸ h.sane.core.saveable.drawn.liveId_of_mem hmem ho hdel)
  have hserver : (a.take (.updateApprovalTemplate i)).server.updateApprovalTemplate i =
      some a.server := if_pos ⟨hin, happr⟩
  have hserve : (a.take (.updateApprovalTemplate i)).serve (.updateApprovalTemplate i) =
      { a.take (.updateApprovalTemplate i) with server := a.server } := by
    rw [Attempt.serve, hserver]
  rw [hserve] at hsane ⊢
  exact ⟨hsane, h.templates.take rfl (by rintro _ ⟨⟩) (by rintro _ _ _ _ ⟨⟩),
    fun id hpend => h.present id (mem_of_take hpend), h.going⟩

/-- Two nodes that have an id in common are one. -/
theorem WellDrawn.node_inj (h : WellDrawn nodes links) {node node' : Node} {o o' : WorkflowNode}
    (hmem : node ∈ nodes) (hmem' : node' ∈ nodes) (ho : node.originalNodeObject = some o)
    (ho' : node'.originalNodeObject = some o') (hid : o.id = o'.id) : node = node' :=
  List.inj_on_of_nodup_map h.ids hmem hmem'
    (h.inj _ _ o.id (hasId_of_mem hmem ho) (hid ▸ hasId_of_mem hmem' ho'))

theorem Good.serve_createApprovalTemplate (h : Good links a)
    (hr : .createApprovalTemplate i ∈ a.pending) :
    Good links ((a.take (.createApprovalTemplate i)).serve (.createApprovalTemplate i)) := by
  have hsane := h.sane.serve hr
  have hd := h.sane.core.saveable.drawn
  obtain ⟨shown, hshown, ⟨hdel, happr⟩, oi, hoi, hid⟩ := h.sane.valid _ hr
  have hin : i ∈ a.server.template.nodes := h.sane.core.saveable.stored i
    (hid ▸ hd.liveId_of_mem hshown hoi hdel)
  have hserver : (a.take (.createApprovalTemplate i)).server.createApprovalTemplate i =
      some { a.server with isApproval := Function.update a.server.isApproval i true } := if_pos hin
  have hserve : (a.take (.createApprovalTemplate i)).serve (.createApprovalTemplate i) =
      { a.take (.createApprovalTemplate i) with
        server := { a.server with isApproval := Function.update a.server.isApproval i true } } := by
    rw [Attempt.serve, hserver]
  rw [hserve] at hsane ⊢
  refine ⟨hsane, fun node hmem o ho hdel => ?_, fun id hpend => h.present id (mem_of_take hpend),
    h.going⟩
  by_cases heq : o.id = i
  · have hnode : shown = node := hd.node_inj hshown hmem hoi ho (hid.trans heq.symm)
    refine .inl ?_
    rw [← hnode, happr, heq]
    exact Function.update_self ..
  · change Function.update a.server.isApproval i true o.id = _ ∨ _
    rw [Function.update_of_ne heq]
    rcases h.templates node hmem o ho hdel with hsame | ⟨happr', hpend⟩ | ⟨was, hpend⟩
    · exact .inl hsame
    · refine .inr (.inl ⟨happr', mem_take hpend fun he => heq ?_⟩)
      cases he
      rfl
    · exact .inr (.inr ⟨was, mem_take hpend (by rintro ⟨⟩)⟩)

theorem Good.serve_createNode (h : Good links a) {b : Bool} (hr : .createNode n b ∈ a.pending) :
    Good links ((a.take (.createNode n b)).serve (.createNode n b)) := by
  have hsane := h.sane.serve hr
  obtain ⟨hlive, hnone, shown, hshown, hn, -, happr⟩ :=
    live_of_createNode h.sane.core.saveable.drawn.ids (h.sane.valid _ hr)
  have hpending : ∀ x ∈ (a.take (.createNode n b)).pending,
      x ∈ ((a.take (.createNode n b)).serve (.createNode n b)).pending := by
    intro x hx
    cases b with
    | true => exact List.mem_append_left _ hx
    | false => exact hx
  refine ⟨hsane, fun node hmem o ho hdel => ?_, fun id hpend => ?_, h.going⟩
  · change a.server.createNode.isApproval o.id = _ ∨ _
    rcases mem_setOriginal.mp hmem with ⟨hmem, -⟩ | ⟨node', hmem', hn', rfl⟩
    · have hne : o.id ≠ a.server.nextId :=
        Nat.ne_of_lt (h.sane.core.saveable.issued _ _ (hasId_of_mem hmem ho))
      rw [isApproval_createNode hne]
      rcases h.templates node hmem o ho hdel with hsame | ⟨happr', hpend⟩ | ⟨was, hpend⟩
      · exact .inl hsame
      · exact .inr (.inl ⟨happr', hpending _ (mem_take hpend (by rintro ⟨⟩))⟩)
      · exact .inr (.inr ⟨was, hpending _ (mem_take hpend (by rintro ⟨⟩))⟩)
    · cases ho
      have hnode : shown = node' := List.inj_on_of_nodup_map h.sane.core.saveable.drawn.ids hshown
        hmem' (hn.trans hn'.symm)
      subst hnode
      cases b with
      | true => exact .inr (.inl ⟨happr, List.mem_append_right _ List.mem_cons_self⟩)
      | false =>
        refine .inl ?_
        dsimp only
        rw [happr]
        exact Function.update_self ..
  · have hmem : .destroy id ∈ a.pending := by
      cases b with
      | true =>
        rcases List.mem_append.mp hpend with hpend | hpend
        · exact mem_of_take hpend
        · cases List.mem_singleton.mp hpend
      | false => exact mem_of_take hpend
    exact List.mem_append_left _ (h.present id hmem)

theorem Good.serve_updateNode (h : Good links a) {b was : Bool}
    (hr : .updateNode n i b was ∈ a.pending) :
    Good links ((a.take (.updateNode n i b was)).serve (.updateNode n i b was)) := by
  have hsane := h.sane.serve hr
  have hd := h.sane.core.saveable.drawn
  obtain ⟨⟨shown, hshown, ⟨hn, hdel, happr⟩, oi, hoi, hid⟩, hwas⟩ := h.sane.valid _ hr
  have hni : HasId a.nodes n i := hn ▸ hid ▸ hasId_of_mem hshown hoi
  have hin : i ∈ a.server.template.nodes := h.sane.core.saveable.stored i
    (hid ▸ hd.liveId_of_mem hshown hoi hdel)
  cases b with
  | true =>
    have hserve : (a.take (.updateNode n i true was)).serve (.updateNode n i true was) =
        { a.take (.updateNode n i true was) with
          nodes := setOriginal a.nodes n (readNode a.server i)
          pending := (a.take (.updateNode n i true was)).pending ++
            [if was then .updateApprovalTemplate i else .createApprovalTemplate i] } := by
      rw [Attempt.serve, show (a.take (.updateNode n i true was)).server.update i (!true) =
        some a.server from update_approval hin]
      exact if_pos rfl
    rw [hserve] at hsane ⊢
    refine ⟨hsane, fun node hmem o ho hdel => ?_, fun id hpend => ?_, h.going⟩
    · change a.server.isApproval o.id = _ ∨ _
      rcases mem_setOriginal.mp hmem with ⟨hmem, hne⟩ | ⟨node', hmem', hn', rfl⟩
      · rcases h.templates node hmem o ho hdel with hsame | ⟨happr', hpend⟩ | ⟨was', hpend⟩
        · exact .inl hsame
        · exact .inr (.inl ⟨happr', List.mem_append_left _ (mem_take hpend (by rintro ⟨⟩))⟩)
        · refine .inr (.inr ⟨was', List.mem_append_left _ (mem_take hpend fun he => hne ?_)⟩)
          exact (Request.updateNode.inj he).1
      · cases ho
        have hnode : shown = node' :=
          List.inj_on_of_nodup_map hd.ids hshown hmem' (hn.trans hn'.symm)
        subst hnode
        cases was with
        | true => exact .inl ((hwas rfl rfl).trans happr.symm)
        | false => exact .inr (.inl ⟨happr, List.mem_append_right _ List.mem_cons_self⟩)
    · refine h.present id ?_
      rcases List.mem_append.mp hpend with hpend | hpend
      · exact mem_of_take hpend
      · cases was <;> cases List.mem_singleton.mp hpend
  | false =>
    have hserver : (a.take (.updateNode n i false was)).server.update i (!false) =
        some { a.server with isApproval := Function.update a.server.isApproval i false } :=
      (if_pos hin).trans rfl
    have hserve : (a.take (.updateNode n i false was)).serve (.updateNode n i false was) =
        { a.take (.updateNode n i false was) with
          server := { a.server with isApproval := Function.update a.server.isApproval i false } } := by
      rw [Attempt.serve, hserver]
      exact if_neg Bool.false_ne_true
    rw [hserve] at hsane ⊢
    refine ⟨hsane, fun node hmem o ho hdel => ?_, fun id hpend => h.present id (mem_of_take hpend),
      h.going⟩
    by_cases heq : o.id = i
    · have hnode : shown = node := hd.node_inj hshown hmem hoi ho (hid.trans heq.symm)
      refine .inl ?_
      rw [← hnode, happr, heq]
      exact Function.update_self ..
    · change Function.update a.server.isApproval i false o.id = _ ∨ _
      rw [Function.update_of_ne heq]
      rcases h.templates node hmem o ho hdel with hsame | ⟨happr', hpend⟩ | ⟨was', hpend⟩
      · exact .inl hsame
      · exact .inr (.inl ⟨happr', mem_take hpend (by rintro ⟨⟩)⟩)
      · refine .inr (.inr ⟨was', mem_take hpend fun he => heq ?_⟩)
        exact (Request.updateNode.inj he).2.1

theorem Good.serve (h : Good links a) (hr : r ∈ a.pending) : Good links ((a.take r).serve r) := by
  cases r with
  | destroy id => exact h.serve_destroy hr
  | createNode n b => exact h.serve_createNode hr
  | updateNode n id b was => exact h.serve_updateNode hr
  | createApprovalTemplate id => exact h.serve_createApprovalTemplate hr
  | updateApprovalTemplate id => exact h.serve_updateApprovalTemplate hr
  | disassociate t x y => exact h.serve_disassociate hr
  | associate t x y => exact h.serve_associate hr

/-! ### To the end -/

theorem server_proceed (a : Attempt) : (a.proceed links).server = a.server := by
  unfold Attempt.proceed
  cases a.phase with
  | nodes => dsimp only; split <;> rfl
  | disassociating => dsimp only; split <;> rfl
  | associating => rfl
  | finishing => rfl
  | done => rfl
  | failed => rfl

theorem Good.templates_settled (h : Good links a) (hnil : a.pending = []) : ∀ node ∈ a.nodes, ∀ o,
    node.originalNodeObject = some o → node.isDeleted = false →
      a.server.isApproval o.id = node.isApprovalTemplate := by
  intro node hmem o ho hdel
  rcases h.templates node hmem o ho hdel with heq | ⟨-, hpend⟩ | ⟨was, hpend⟩
  · exact heq
  · rw [hnil] at hpend
    exact absurd hpend List.not_mem_nil
  · rw [hnil] at hpend
    exact absurd hpend List.not_mem_nil

theorem Good.proceed (h : Good links a) (hnil : a.pending = []) (hdone : a.phase ≠ .done) :
    Good links (a.proceed links) := by
  obtain ⟨hsane, hgoing, hkey⟩ := h.sane.proceed hnil hdone h.going
  refine ⟨hsane, fun node hmem o ho hdel => .inl ?_, fun id hpend => ?_, hgoing⟩
  · rw [bare_proceed] at hmem
    rw [server_proceed]
    exact h.templates_settled hnil node hmem o ho hdel
  · exact nomatch hkey _ hpend

theorem Good.right (h : Good links a) (hdone : a.phase = .done) : Right links a := by
  have hp : Finished links a := by
    have hp := h.sane.progress
    rw [Progress, hdone] at hp
    exact hp
  have hs := h.sane.core.saveable
  refine ⟨fun n => ⟨hp.live n, hs.stored n⟩, fun k hk => ?_, fun k i j => hs.drawn.hasId_inj,
    hs.drawn.inj, hp.rows, h.templates_settled hp.none⟩
  obtain ⟨e, he, rfl⟩ := hp.entered k hk
  exact ⟨e.2.id, (h.sane.core.entries e he).2⟩

/-- How far a phase is from the end. -/
def Phase.rank : Phase → ℕ
  | .nodes => 5
  | .disassociating => 4
  | .associating => 3
  | .finishing => 2
  | .done => 1
  | .failed => 0

/-- A request for a node may be followed by one for its approval template. -/
def Request.weight : Request → ℕ
  | .createNode _ _ => 2
  | .updateNode _ _ _ _ => 2
  | _ => 1

def Attempt.rest (a : Attempt) : ℕ ×ₗ ℕ :=
  toLex (a.phase.rank, (a.pending.map Request.weight).sum)

theorem rank_proceed (hdone : a.phase ≠ .done) (hfailed : a.phase ≠ .failed) :
    (a.proceed links).phase.rank < a.phase.rank := by
  unfold Attempt.proceed
  cases hphase : a.phase with
  | nodes =>
    dsimp only
    split
    · exact (by decide : Phase.disassociating.rank < Phase.nodes.rank)
    · exact (by decide : Phase.failed.rank < Phase.nodes.rank)
  | disassociating =>
    dsimp only
    split
    · exact (by decide : Phase.associating.rank < Phase.disassociating.rank)
    · exact (by decide : Phase.failed.rank < Phase.disassociating.rank)
  | associating => dsimp only; decide
  | finishing => dsimp only; decide
  | done => exact absurd hphase hdone
  | failed => exact absurd hphase hfailed

theorem weight_take (hr : r ∈ a.pending) : (a.pending.map Request.weight).sum =
    r.weight + ((a.take r).pending.map Request.weight).sum := by
  rw [((List.perm_cons_erase hr).map Request.weight).sum_nat, List.map_cons, List.sum_cons]
  rfl

theorem weight_append (pending : List Request) (r : Request) :
    ((pending ++ [r]).map Request.weight).sum = (pending.map Request.weight).sum + r.weight := by
  rw [List.map_append, List.sum_append]
  rfl

/-- A request that is served weighs more than what it adds. -/
theorem weight_serve (a : Attempt) (r : Request) :
    ((a.serve r).phase = .failed ∨ (a.serve r).phase = a.phase) ∧
      ((a.serve r).pending.map Request.weight).sum <
        r.weight + (a.pending.map Request.weight).sum := by
  have hsame : ∀ {w : ℕ}, 0 < w → (a.pending.map Request.weight).sum <
      w + (a.pending.map Request.weight).sum := fun hw => Nat.lt_add_of_pos_left hw
  have hmore : ∀ x : Request, x.weight = 1 → ((a.pending ++ [x]).map Request.weight).sum <
      2 + (a.pending.map Request.weight).sum := by
    intro x hx
    rw [weight_append, hx]
    omega
  cases r with
  | destroy id => rw [Attempt.serve]; split <;> exact ⟨by simp [Attempt.fail], hsame Nat.one_pos⟩
  | createNode n b =>
    cases b with
    | true => exact ⟨.inr rfl, hmore _ rfl⟩
    | false => exact ⟨.inr rfl, hsame Nat.two_pos⟩
  | updateNode n id b was =>
    rw [Attempt.serve]
    split
    · split
      · refine ⟨.inr rfl, hmore _ ?_⟩
        cases was <;> rfl
      · exact ⟨.inr rfl, hsame Nat.two_pos⟩
    · exact ⟨.inl rfl, hsame Nat.two_pos⟩
  | createApprovalTemplate id =>
    rw [Attempt.serve]; split <;> exact ⟨by simp [Attempt.fail], hsame Nat.one_pos⟩
  | updateApprovalTemplate id =>
    rw [Attempt.serve]; split <;> exact ⟨by simp [Attempt.fail], hsame Nat.one_pos⟩
  | disassociate t x y =>
    rw [Attempt.serve]; split <;> exact ⟨by simp [Attempt.fail], hsame Nat.one_pos⟩
  | associate t x y =>
    rw [Attempt.serve]; split <;> exact ⟨by simp [Attempt.fail], hsame Nat.one_pos⟩

/-- An attempt of which nothing is lost goes on until the server holds what is drawn. -/
theorem Good.inevitable (h : Good links a) (hbare : a.nodes.map Node.bare = nodes.map Node.bare)
    {server : Server} {nodes' : List Node} :
    ((saving server nodes' links).restrict Delivered).Inevitable (Saved nodes links) a := by
  refine System.Inevitable.of_measure (S := (saving server nodes' links).restrict Delivered)
    Attempt.rest (I := fun a => Good links a ∧ a.nodes.map Node.bare = nodes.map Node.bare)
    (fun a ⟨hgood, hbare⟩ hnot => ?_) (fun a e a' ⟨hgood, hbare⟩ ⟨hstep, hdel⟩ => ?_) ⟨h, hbare⟩
  · cases hpending : a.pending with
    | cons r rest =>
      have hr : r ∈ a.pending := hpending ▸ List.mem_cons_self
      exact ⟨.serve r, _, .serve hr, trivial⟩
    | nil =>
      have hdone : a.phase ≠ .done := fun hdone => hnot ⟨hdone, hbare, hgood.right hdone⟩
      exact ⟨.proceed, _, .proceed hpending hdone hgood.going, trivial⟩
  · refine ⟨⟨?_, (bare_step hstep).trans hbare⟩, ?_⟩
    · cases hstep with
      | serve hr => exact hgood.serve hr
      | proceed hnil hdone _ => exact hgood.proceed hnil hdone
      | lose _ => exact hdel.elim
      | loseOther _ => exact hdel.elim
    · cases hstep with
      | @serve r hr =>
        obtain ⟨hphase, hlt⟩ := weight_serve (a.take r) r
        refine Prod.Lex.toLex_lt_toLex.mpr (.inr ⟨?_, ?_⟩)
        · have hsame := hphase.resolve_left (hgood.serve hr).going
          rw [hsame]
          rfl
        · rw [weight_take hr]
          exact hlt
      | proceed _ hdone hfailed => exact Prod.Lex.toLex_lt_toLex.mpr (.inl (rank_proceed hdone hfailed))
      | lose _ => exact hdel.elim
      | loseOther _ => exact hdel.elim

end Forail.Visualizer
