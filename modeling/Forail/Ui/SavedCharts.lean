import Forail.Ui.EditedCharts

/-! When a save comes to its end, whatever order its requests are served in: the first one of an
edited chart, and one that repeats an attempt that failed. -/

namespace Forail.Visualizer

open Relation Acyclicity Api Scheduler

/-- Nothing is in the way of a save: the nodes that are to be deleted are still there, an approval
that is not sent again has its template, and no branch of the loop raises. -/
structure Clear (server : Server) (nodes : List Node) : Prop where
  there : ∀ i, (Shows nodes i fun node => node.isDeleted = true) → i ∈ server.template.nodes
  approvals : ∀ i, (Shows nodes i fun node => node.isDeleted = false ∧ node.isEdited = false ∧
    node.isApprovalTemplate = true) → server.isApproval i = true
  stray : ¬ ∃ node ∈ nodes, node.Stray

variable {server : Server} {nodes : List Node} {links : List Link} {a a' : Attempt} {r : Request}
  {s : State} {i : ℕ}

/-! ### Where nothing is in the way -/

theorem Saveable.good (h : Saveable server nodes links) (hclear : Clear server nodes) :
    Good links (saveVisualizer server nodes) where
  sane := h.sane
  templates node hmem o ho hdel := by
    have h1 : node.id ≠ 1 := fun h1 => h.drawn.start o.id (h1 ▸ hasId_of_mem hmem ho)
    have hraises : (nodeRequests nodes).2 = false :=
      Bool.eq_false_iff.mpr fun hraises => hclear.stray (raises_iff.mp hraises)
    cases hedit : node.isEdited with
    | true =>
      have hreq : nodeRequest node =
          some [.updateNode node.id o.id node.isApprovalTemplate o.isApproval] := by
        rw [nodeRequest, if_neg h1, hdel, ho, hedit]
        rfl
      exact .inr (.inr ⟨_, sent_of_not_raises hraises hmem hreq _ List.mem_cons_self⟩)
    | false =>
      refine .inl ?_
      cases happr : node.isApprovalTemplate with
      | true => exact hclear.approvals o.id ⟨node, hmem, ⟨hdel, hedit, happr⟩, o, ho, rfl⟩
      | false => exact h.plain node hmem o ho hdel hedit happr
  present id hr := h.sane.valid _ hr |> hclear.there id
  going := by
    have hraises : (nodeRequests nodes).2 = false :=
      Bool.eq_false_iff.mpr fun hraises => hclear.stray (raises_iff.mp hraises)
    rw [saveVisualizer]
    dsimp only
    rw [if_neg (Bool.eq_false_iff.mp hraises)]
    rintro ⟨⟩

/-! ### What is in the way stays there -/

theorem phase_serve (a : Attempt) (r : Request) :
    (a.serve r).phase = .failed ∨ (a.serve r).phase = a.phase := (weight_serve a r).1

theorem failed_step {e : Event} (hphase : a.phase = .failed) (hstep : Attempt.Step links a e a') :
    a'.phase = .failed := by
  cases hstep with
  | @serve r hr => exact (phase_serve (a.take r) r).elim id fun heq => heq.trans hphase
  | proceed _ _ hfailed => exact absurd hphase hfailed
  | lose _ => rfl
  | loseOther _ => rfl

theorem pending_serve (a : Attempt) (r : Request) : (∀ x ∈ a.pending, x ∈ (a.serve r).pending) ∧
    ∀ x ∈ (a.serve r).pending, x ∈ a.pending ∨ x = .createApprovalTemplate a.server.nextId ∨
      ∃ n id was, r = .updateNode n id true was ∧
        (x = .updateApprovalTemplate id ∨ x = .createApprovalTemplate id) := by
  cases r with
  | createNode n b =>
    cases b with
    | true =>
      refine ⟨fun x hx => List.mem_append_left _ hx, fun x hx => ?_⟩
      exact (List.mem_append.mp hx).imp_right fun hx => .inl (List.mem_singleton.mp hx)
    | false => exact ⟨fun x hx => hx, fun x hx => .inl hx⟩
  | updateNode n id b was =>
    rw [Attempt.serve]
    split
    · split
      · rename_i hb
        refine ⟨fun x hx => List.mem_append_left _ hx, fun x hx => ?_⟩
        refine (List.mem_append.mp hx).imp_right fun hx => .inr ⟨n, id, was, by rw [hb], ?_⟩
        rw [List.mem_singleton.mp hx]
        cases was with
        | true => exact .inl rfl
        | false => exact .inr rfl
      · exact ⟨fun x hx => hx, fun x hx => .inl hx⟩
    · exact ⟨fun x hx => hx, fun x hx => .inl hx⟩
  | destroy id => rw [Attempt.serve]; split <;> exact ⟨fun x hx => hx, fun x hx => .inl hx⟩
  | createApprovalTemplate id =>
    rw [Attempt.serve]; split <;> exact ⟨fun x hx => hx, fun x hx => .inl hx⟩
  | updateApprovalTemplate id =>
    rw [Attempt.serve]; split <;> exact ⟨fun x hx => hx, fun x hx => .inl hx⟩
  | disassociate t x y =>
    rw [Attempt.serve]; split <;> exact ⟨fun x hx => hx, fun x hx => .inl hx⟩
  | associate t x y =>
    rw [Attempt.serve]; split <;> exact ⟨fun x hx => hx, fun x hx => .inl hx⟩

/-- A node of the server that was not there before is a new one, and an approval template that was
not there before has been asked for. -/
theorem server_serve (a : Attempt) (r : Request) :
    (∀ n ∈ (a.serve r).server.template.nodes, n ∈ a.server.template.nodes ∨ n = a.server.nextId) ∧
      ∀ i, (a.serve r).server.isApproval i = true → a.server.isApproval i = true ∨
        r = .createApprovalTemplate i := by
  have hsame : (∀ n ∈ a.server.template.nodes, n ∈ a.server.template.nodes ∨ n = a.server.nextId) ∧
      ∀ i, a.server.isApproval i = true → a.server.isApproval i = true ∨
        r = .createApprovalTemplate i := ⟨fun n hn => .inl hn, fun i hi => .inl hi⟩
  have hfalse : ∀ {i j : ℕ}, Function.update a.server.isApproval i false j = true →
      a.server.isApproval j = true := by
    intro i j hj
    by_cases heq : j = i
    · rw [heq, Function.update_self] at hj
      cases hj
    · rwa [Function.update_of_ne heq] at hj
  cases r with
  | destroy id =>
    rw [Attempt.serve]
    split
    · rename_i server hserver
      rw [Server.destroy] at hserver
      obtain ⟨-, heq⟩ := Option.ite_none_right_eq_some.mp hserver
      cases heq
      exact ⟨fun n hn => .inl (Template.mem_destroy.mp hn).1, hsame.2⟩
    · exact hsame
  | createNode n b =>
    refine ⟨fun m hm => ?_, fun j hj => .inl (hfalse hj)⟩
    exact (List.mem_append.mp hm).imp_right List.mem_singleton.mp
  | updateNode n id b was =>
    rw [Attempt.serve]
    split
    · rename_i server hserver
      rw [Server.update] at hserver
      obtain ⟨-, heq⟩ := Option.ite_none_right_eq_some.mp hserver
      cases heq
      cases b with
      | true => exact hsame
      | false => exact ⟨hsame.1, fun j hj => .inl (hfalse hj)⟩
    · exact hsame
  | createApprovalTemplate id =>
    rw [Attempt.serve]
    split
    · rename_i server hserver
      rw [Server.createApprovalTemplate] at hserver
      obtain ⟨-, heq⟩ := Option.ite_none_right_eq_some.mp hserver
      cases heq
      refine ⟨hsame.1, fun j hj => ?_⟩
      by_cases heq : j = id
      · exact .inr (heq ▸ rfl)
      · dsimp only at hj
        rw [Function.update_of_ne heq] at hj
        exact .inl hj
    · exact hsame
  | updateApprovalTemplate id =>
    rw [Attempt.serve]
    split
    · rename_i server hserver
      rw [Server.updateApprovalTemplate] at hserver
      obtain ⟨-, heq⟩ := Option.ite_none_right_eq_some.mp hserver
      cases heq
      exact hsame
    · exact hsame
  | disassociate t x y =>
    rw [Attempt.serve]
    split
    · rename_i server hserver
      rw [Server.disassociate] at hserver
      obtain ⟨-, heq⟩ := Option.ite_none_right_eq_some.mp hserver
      cases heq
      exact hsame
    · exact hsame
  | associate t x y =>
    have hassoc : ∀ {b server}, a.server.associate t.relationship x y = (b, server) →
        server.template.nodes = a.server.template.nodes ∧
          server.isApproval = a.server.isApproval := by
      intro b server heq
      rw [Server.associate] at heq
      split at heq
      · cases heq
        exact ⟨rfl, rfl⟩
      · rename_i hw
        cases heq
        exact ⟨Template.nodes_attach hw, rfl⟩
    rw [Attempt.serve]
    split
    · rename_i heq
      obtain ⟨hnodes, happr⟩ := hassoc heq
      exact ⟨fun n hn => .inl (hnodes ▸ hn), fun i hi => .inl (happr ▸ hi)⟩
    · rename_i heq
      obtain ⟨hnodes, happr⟩ := hassoc heq
      exact ⟨fun n hn => .inl (hnodes ▸ hn), fun i hi => .inl (happr ▸ hi)⟩

/-- What a node shows is shown as long as its flags are the same. -/
theorem Shows.serve {P : Node → Prop} (h : Shows a.nodes i P) (hp : OfFlags P)
    (hs : Sane links a) (hr : r ∈ a.pending) : Shows ((a.take r).serve r).nodes i P := by
  have hd := hs.core.saveable.drawn
  cases r with
  | createNode n b =>
    obtain ⟨-, hnone, -⟩ := live_of_createNode hd.ids (hs.valid _ hr)
    exact h.created hnone
  | updateNode n id b was =>
    obtain ⟨⟨shown, hshown, ⟨hn, -⟩, o, ho, hid⟩, -⟩ := hs.valid _ hr
    rw [Attempt.serve]
    split
    · split
      · rename_i server hserver _
        have hni : HasId a.nodes n id := hn ▸ hid ▸ hasId_of_mem hshown ho
        exact h.read (j := id) hp hd hni
      · exact h
    · exact h
  | destroy id => rw [Attempt.serve]; split <;> exact h
  | createApprovalTemplate id => rw [Attempt.serve]; split <;> exact h
  | updateApprovalTemplate id => rw [Attempt.serve]; split <;> exact h
  | disassociate t x y => rw [Attempt.serve]; split <;> exact h
  | associate t x y => rw [Attempt.serve]; split <;> exact h

/-- A node that is gone is asked for until the answer is 404. -/
structure Missing (links : List Link) (i : ℕ) (a : Attempt) : Prop where
  sane : Sane links a
  deleted : Shows a.nodes i fun node => node.isDeleted = true
  gone : i ∉ a.server.template.nodes
  asked : a.phase = .failed ∨ (a.phase = .nodes ∧ .destroy i ∈ a.pending)

theorem Shows.lt_nextId {P : Node → Prop} (h : Shows a.nodes i P) (hs : Sane links a) :
    i < a.server.nextId := by
  obtain ⟨node, -, -, hk⟩ := h.hasId
  exact hs.core.saveable.issued _ _ hk

theorem Missing.step (h : Missing links i a) {e : Event} (hstep : Attempt.Step links a e a') :
    Missing links i a' := by
  have hsane := h.sane.step hstep
  cases hstep with
  | @serve r hr =>
    refine ⟨hsane, h.deleted.serve (fun _ _ hdel => hdel) h.sane hr, fun hin => ?_, ?_⟩
    · rcases (server_serve (a.take r) r).1 i hin with hin | heq
      · exact h.gone hin
      · exact Nat.ne_of_lt (h.deleted.lt_nextId h.sane) heq
    · rcases h.asked with hfailed | ⟨hphase, hpend⟩
      · exact .inl ((phase_serve (a.take r) r).elim id fun heq => heq.trans hfailed)
      · by_cases heq : r = .destroy i
        · subst heq
          have hnone : (a.take (.destroy i)).server.destroy i = none := if_neg h.gone
          rw [Attempt.serve, hnone]
          exact .inl rfl
        · refine (phase_serve (a.take r) r).imp id fun hsame => ⟨hsame.trans hphase, ?_⟩
          exact (pending_serve (a.take r) r).1 _ (mem_take hpend (Ne.symm heq))
  | proceed hnil hdone hfailed =>
    rcases h.asked with hphase | ⟨-, hpend⟩
    · exact absurd hphase hfailed
    · rw [hnil] at hpend
      exact absurd hpend List.not_mem_nil
  | lose _ => exact ⟨hsane, h.deleted, h.gone, .inl rfl⟩
  | loseOther _ => exact ⟨hsane, h.deleted, h.gone, .inl rfl⟩

theorem mem_of_mapM {α β : Type} {f : α → Option β} {l : List α} {ys : List β}
    (h : l.mapM f = some ys) {y : β} (hy : y ∈ ys) : ∃ x ∈ l, f x = some y := by
  induction l generalizing ys with
  | nil =>
    cases h
    exact absurd hy List.not_mem_nil
  | cons x l ih =>
    rw [List.mapM_cons] at h
    obtain ⟨z, hz, h⟩ := Option.bind_eq_some_iff.mp h
    obtain ⟨zs, hzs, h⟩ := Option.bind_eq_some_iff.mp h
    cases h
    rcases List.mem_cons.mp hy with rfl | hy
    · exact ⟨x, List.mem_cons_self, hz⟩
    · obtain ⟨x', hx', hy⟩ := ih hzs hy
      exact ⟨x', List.mem_cons_of_mem _ hx', hy⟩

/-- After the nodes, only rows are asked for. -/
theorem pending_proceed {x : Request} (hx : x ∈ (a.proceed links).pending) : x ∈ a.pending ∨
    ∃ t y z, x = .disassociate t y z ∨ x = .associate t y z := by
  unfold Attempt.proceed at hx
  cases hphase : a.phase <;> rw [hphase] at hx <;> dsimp only at hx
  · split at hx
    · obtain ⟨t, y, z, rfl, -⟩ := mem_disassociateNodes.mp hx
      exact .inr ⟨t, y, z, .inl rfl⟩
    · exact .inl hx
  · split at hx
    · rename_i requests hassoc
      obtain ⟨l, -, hl⟩ := mem_of_mapM hassoc hx
      obtain ⟨ends, -, hl⟩ := Option.bind_eq_some_iff.mp hl
      exact .inr ⟨_, _, _, .inr (Option.some.inj hl).symm⟩
    · exact .inl hx
  · exact .inl hx
  · exact .inl hx
  · exact .inl hx
  · exact .inl hx

/-- A request that gives a node of the server an approval template, or has one follow that does. -/
def Request.Approves (i : ℕ) (r : Request) : Prop :=
  r = .createApprovalTemplate i ∨ ∃ n was, r = .updateNode n i true was

/-- An approval has no template, and no request asks for it. -/
structure Forgotten (links : List Link) (i : ℕ) (a : Attempt) : Prop where
  sane : Sane links a
  drawn : Shows a.nodes i fun node => node.isDeleted = false ∧ node.isApprovalTemplate = true
  plain : a.server.isApproval i = false
  pending : ∀ r ∈ a.pending, ¬ r.Approves i

theorem Forgotten.step (h : Forgotten links i a) {e : Event} (hstep : Attempt.Step links a e a') :
    Forgotten links i a' := by
  have hsane := h.sane.step hstep
  cases hstep with
  | @serve r hr =>
    refine ⟨hsane, h.drawn.serve (fun _ _ hp => hp) h.sane hr, ?_, fun x hx hcreate => ?_⟩
    · refine Bool.eq_false_iff.mpr fun htrue => ?_
      rcases (server_serve (a.take r) r).2 i htrue with htrue | rfl
      · exact Bool.false_ne_true (h.plain.symm.trans htrue)
      · exact h.pending _ hr (.inl rfl)
    · rcases (pending_serve (a.take r) r).2 x hx with hx | rfl | ⟨n, id, was, rfl, hfollows⟩
      · exact h.pending x (mem_of_take hx) hcreate
      · rcases hcreate with heq | ⟨n, was, heq⟩
        · exact Nat.ne_of_gt (h.drawn.lt_nextId h.sane) (Request.createApprovalTemplate.inj heq)
        · cases heq
      · rcases hfollows with rfl | rfl
        · rcases hcreate with heq | ⟨_, _, heq⟩ <;> cases heq
        · rcases hcreate with heq | ⟨n', was', heq⟩
          · exact h.pending _ hr (.inr ⟨n, was, Request.createApprovalTemplate.inj heq ▸ rfl⟩)
          · cases heq
  | proceed hnil hdone hfailed =>
    refine ⟨hsane, (bare_proceed a).symm ▸ h.drawn, (server_proceed a).symm ▸ h.plain, ?_⟩
    intro x hx happroves
    rcases pending_proceed hx with hx | ⟨t, y, z, rfl | rfl⟩
    · exact h.pending x hx happroves
    · rcases happroves with heq | ⟨_, _, heq⟩ <;> cases heq
    · rcases happroves with heq | ⟨_, _, heq⟩ <;> cases heq
  | @lose r hr => exact ⟨hsane, h.drawn, h.plain, fun x hx => h.pending x (mem_of_take hx)⟩
  | loseOther _ => exact ⟨hsane, h.drawn, h.plain, h.pending⟩

/-- A save comes to its end, in whatever order its requests are served, exactly where nothing is in
the way. -/
theorem Saveable.inevitable_iff (h : Saveable server nodes links) :
    ((saving server nodes links).restrict Delivered).Inevitable (Saved nodes links)
      (saveVisualizer server nodes) ↔ Clear server nodes := by
  refine ⟨fun hsaved => ⟨fun i hi => ?_, fun i hi => ?_, fun hstray => ?_⟩,
    fun hclear => (h.good hclear).inevitable rfl⟩
  · refine of_not_not fun hgone => ?_
    refine System.not_inevitable (S := (saving server nodes links).restrict Delivered)
      (J := Missing links i) (fun a e a' hm hstep => hm.step hstep.1)
      (fun a hm hsaved => ?_) ⟨h.sane, hi, hgone, ?_⟩ hsaved
    · rcases hm.asked with hphase | ⟨hphase, -⟩
      · cases hphase.symm.trans hsaved.1
      · cases hphase.symm.trans hsaved.1
    · rw [saveVisualizer]
      dsimp only
      cases hraises : (nodeRequests nodes).2 with
      | true => exact .inl rfl
      | false =>
        obtain ⟨node, hmem, hdel, o, ho, rfl⟩ := hi
        have h1 : node.id ≠ 1 := fun h1 => h.drawn.start o.id (h1 ▸ hasId_of_mem hmem ho)
        have hreq : nodeRequest node = some [.destroy o.id] := by
          rw [nodeRequest, if_neg h1, hdel, ho]
        exact .inr ⟨rfl, sent_of_not_raises hraises hmem hreq _ List.mem_cons_self⟩
  · refine of_not_not fun hplain => ?_
    obtain ⟨node, hmem, ⟨hdel, hedit, happr⟩, o, ho, rfl⟩ := hi
    refine System.not_inevitable (S := (saving server nodes links).restrict Delivered)
      (J := Forgotten links o.id) (fun a e a' hf hstep => hf.step hstep.1)
      (fun a hf hsaved => ?_)
      ⟨h.sane, ⟨node, hmem, ⟨hdel, happr⟩, o, ho, rfl⟩, Bool.eq_false_iff.mpr hplain, ?_⟩ hsaved
    · obtain ⟨shown, hshown, ⟨hdel, happr⟩, o', ho', hid⟩ := hf.drawn
      have hright := hsaved.2.2.templates shown hshown o' ho' hdel
      rw [hid, hf.plain, happr] at hright
      cases hright
    · intro r hr happroves
      obtain ⟨node', hmem', requests, hreq, hr⟩ := mem_nodeRequests hr
      rcases (nodeRequest_cases hreq hr).2 with ⟨-, o', -, rfl⟩ | ⟨-, -, rfl⟩ |
        ⟨-, hedit', o', ho', rfl⟩
      · rcases happroves with heq | ⟨_, _, heq⟩ <;> cases heq
      · rcases happroves with heq | ⟨_, _, heq⟩ <;> cases heq
      · rcases happroves with heq | ⟨n, was, heq⟩
        · cases heq
        · have hid : o'.id = o.id := (Request.updateNode.inj heq).2.1
          have hnode : node' = node := h.drawn.node_inj hmem' hmem ho' ho hid
          rw [hnode, hedit] at hedit'
          cases hedit'
  · have hstart : (saveVisualizer server nodes).phase = .failed := if_pos (raises_iff.mpr hstray)
    refine System.not_inevitable (S := (saving server nodes links).restrict Delivered)
      (J := fun a => a.phase = .failed) (fun a e a' hphase hstep => failed_step hphase hstep.1)
      (fun a hphase hsaved => ?_) hstart hsaved
    have hdone := hsaved.1
    rw [hphase] at hdone
    cases hdone

/-! ### Edited charts -/

/-- The save of an edited chart comes to its end, in whatever order the requests of a batch are
served, unless a node was added, edited and deleted since it was loaded. -/
theorem save_completes_iff (hserver : WellStored server) (h : (editing server).Reachable s) :
    ((saving server s.nodes s.links).restrict Delivered).Inevitable (Saved s.nodes s.links)
      (saveVisualizer server s.nodes) ↔ ¬ ∃ node ∈ s.nodes, node.Stray := by
  have hloaded := (sound_of_reachable hserver h).2
  rw [(saveable_of_reachable hserver h).inevitable_iff]
  refine ⟨Clear.stray, fun hstray => ⟨fun i => ?_, fun i => ?_, hstray⟩⟩
  · rintro ⟨node, hmem, -, o, ho, rfl⟩
    exact (hloaded.original_eq hmem ho).1
  · rintro ⟨node, hmem, ⟨-, hedit, happr⟩, o, ho, rfl⟩
    have hsame := hloaded.unedited node hmem o ho hedit
    rw [(hloaded.original_eq hmem ho).2] at hsame
    exact hsame.symm.trans happr

/-- Two nodes, one after the other. -/
def chain : Server where
  template :=
    { nodes := [10, 20]
      edges := fun l => if l = .successNodes then [(10, 20)] else []
      nodes_nodup := by decide
      edges_nodes := by
        intro l
        cases l <;> decide }
  isApproval := fun _ => false
  nextId := 30
  issued := by decide

theorem wellStored_chain : WellStored chain := by
  have hedge : ∀ {l : EdgeLabel} {a b : ℕ}, chain.template.Edge l a b →
      l = .successNodes ∧ a = 10 ∧ b = 20 := by
    intro l a b hab
    cases l with
    | successNodes =>
      obtain ⟨rfl, rfl⟩ := Prod.mk.inj (List.mem_singleton.mp hab)
      exact ⟨rfl, rfl, rfl⟩
    | failureNodes => exact absurd hab List.not_mem_nil
    | alwaysNodes => exact absurd hab List.not_mem_nil
  refine ⟨acyclic_of_rank id ?_, fun t t' a b h h' => ?_⟩
  · rintro a b ⟨l, hab⟩
    obtain ⟨-, rfl, rfl⟩ := hedge hab
    decide
  · exact relationship_inj ((hedge h).1.trans (hedge h').1.symm)

/-- The two nodes change places. -/
theorem save_completes_reversed : ∃ s, (editing chain).Reachable s ∧
    s.links.map (fun l => (l.source, l.target)) = [(1, 3), (3, 2)] ∧
    (((saving chain s.nodes s.links).restrict Delivered).Inevitable (Saved s.nodes s.links)
      (saveVisualizer chain s.nodes) ↔ ¬ ∃ node ∈ s.nodes, node.Stray) := by
  obtain ⟨s, hs, hlinks⟩ : ∃ s, System.runAll (System.guarded Edit.reduce fun s e => e.Offered s)
      (generateNodesAndLinks initReducer (fetchWorkflowNodes chain))
      [.action (.startDeleteLink ⟨2, 3, .success, false⟩), .action .deleteLink,
        .action (.selectSourceForLinking 3), .action (.setAddLinkTargetNode 2),
        .action (.createLink .failure)] = some s ∧
      s.links.map (fun l => (l.source, l.target)) = [(1, 3), (3, 2)] :=
    System.exists_of_runAll (by decide)
  have hreachable := reachable_edits hs
  exact ⟨s, hreachable, hlinks, save_completes_iff wellStored_chain hreachable⟩

/-- A node that was added, edited and deleted again: the save stops before its first request. -/
theorem stray_node_stops_save : ¬ ∀ (server : Server) (s : State), WellStored server →
    (editing server).Reachable s →
      ((saving server s.nodes s.links).restrict Delivered).Inevitable (Saved s.nodes s.links)
        (saveVisualizer server s.nodes) := by
  intro h
  obtain ⟨s, hs, hstray⟩ : ∃ s, System.runAll (System.guarded Edit.reduce fun s e => e.Offered s)
      (generateNodesAndLinks initReducer (fetchWorkflowNodes chain))
      [.action (.startAddNode 3 none), .action (.createNode ⟨false, .success⟩), .updateNode 4 false,
        .action (.setNodeToDelete (some 4)), .action .deleteNode] = some s ∧
      s.nodes.getLast? = some ⟨4, none, false, false, true, true⟩ :=
    System.exists_of_runAll (by decide)
  have hreachable := reachable_edits hs
  have hclear := (saveable_of_reachable wellStored_chain hreachable).inevitable_iff.mp
    (h chain s wellStored_chain hreachable)
  exact hclear.stray ⟨_, List.mem_of_getLast? hstray, by decide, rfl, rfl, rfl⟩

/-! ### Once more -/

/-- Whatever has been served of an attempt: the next one comes to its end exactly where nothing is in
the way of what the first has left. -/
theorem save_repeats_iff (hserver : WellStored server) (h : (editing server).Reachable s)
    (ha : (saving server s.nodes s.links).Reachable a) :
    ((saving a.server a.nodes s.links).restrict Delivered).Inevitable (Saved a.nodes s.links)
      (saveVisualizer a.server a.nodes) ↔ Clear a.server a.nodes :=
  (Sane.of_reachable (saveable_of_reachable hserver h) ha).core.saveable.inevitable_iff

/-- A node becomes an approval, and the request for its template fails. -/
theorem save_repeats_approval : ∃ s a, (editing chain).Reachable s ∧
    (saving chain s.nodes s.links).Reachable a ∧ a.phase = .failed ∧
    (((saving a.server a.nodes s.links).restrict Delivered).Inevitable (Saved a.nodes s.links)
      (saveVisualizer a.server a.nodes) ↔ Clear a.server a.nodes) := by
  obtain ⟨s, hs, hnodes⟩ : ∃ s, System.runAll (System.guarded Edit.reduce fun s e => e.Offered s)
      (generateNodesAndLinks initReducer (fetchWorkflowNodes chain)) [.updateNode 2 true] = some s ∧
      s.nodes = [⟨1, none, false, false, false, false⟩,
        ⟨2, some ⟨10, [20], [], [], false⟩, true, false, false, true⟩,
        ⟨3, some ⟨20, [], [], [], false⟩, false, false, false, false⟩] :=
    System.exists_of_runAll (by decide)
  have hreachable := reachable_edits hs
  obtain ⟨a, ha, hphase⟩ : ∃ a, (saving chain s.nodes s.links).Reachable a ∧
      a.phase = .failed := by
    rw [hnodes]
    refine ⟨_, .step (e := .lose (.createApprovalTemplate 10))
      (.step (e := .serve (.updateNode 2 10 true false)) (.init rfl) (.serve ?_)) (.lose ?_), rfl⟩
    · decide
    · decide
  exact ⟨s, a, hreachable, ha, hphase, save_repeats_iff wellStored_chain hreachable ha⟩

/-- Two nodes are deleted, and the request for one of them fails: the next attempt asks for the
other one once more. -/
theorem destroyed_node_stops_save : ¬ ∀ (server : Server) (s : State) (a : Attempt),
    WellStored server → (editing server).Reachable s →
      (saving server s.nodes s.links).Reachable a → a.phase = .failed →
        ((saving a.server a.nodes s.links).restrict Delivered).Inevitable (Saved a.nodes s.links)
          (saveVisualizer a.server a.nodes) := by
  intro h
  obtain ⟨s, hs, hnodes⟩ : ∃ s, System.runAll (System.guarded Edit.reduce fun s e => e.Offered s)
      (generateNodesAndLinks initReducer (fetchWorkflowNodes chain))
      [.action (.setShowDeleteAllNodesModal true), .action .deleteAllNodes] = some s ∧
      s.nodes = [⟨1, none, false, false, false, false⟩,
        ⟨2, some ⟨10, [20], [], [], false⟩, false, false, true, false⟩,
        ⟨3, some ⟨20, [], [], [], false⟩, false, false, true, false⟩] :=
    System.exists_of_runAll (by decide)
  have hreachable := reachable_edits hs
  obtain ⟨a, ha, hphase, hanodes, hserver⟩ : ∃ a, (saving chain s.nodes s.links).Reachable a ∧
      a.phase = .failed ∧ a.nodes = s.nodes ∧ 10 ∉ a.server.template.nodes := by
    rw [hnodes]
    refine ⟨_, .step (e := .lose (.destroy 20)) (.step (e := .serve (.destroy 10)) (.init rfl)
      (.serve ?_)) (.lose ?_), rfl, ?_, ?_⟩
    · decide
    · decide
    · rfl
    · decide
  have hclear := (Sane.of_reachable (saveable_of_reachable wellStored_chain hreachable)
    ha).core.saveable.inevitable_iff.mp (h chain s a wellStored_chain hreachable ha hphase)
  refine hserver (hclear.there 10 ?_)
  rw [hanodes, hnodes]
  exact ⟨_, List.mem_cons_of_mem _ List.mem_cons_self, rfl, _, rfl, rfl⟩

end Forail.Visualizer
