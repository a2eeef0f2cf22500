import Forail.Ui.SaveBatches

/-! An attempt to save, from the first request on: whatever is served and whatever is lost, the
graph stays saveable. -/

namespace Forail.Visualizer

open Relation Acyclicity Api Scheduler

variable {server : Server} {nodes : List Node} {links : List Link} {a a' : Attempt} {r : Request}

/-! ### The first batch -/

/-- The node that no branch of the loop is meant for. -/
def Node.Stray (node : Node) : Prop :=
  node.id ≠ 1 ∧ node.isDeleted = true ∧ node.originalNodeObject = none ∧ node.isEdited = true

theorem nodeRequest_eq_none {node : Node} : nodeRequest node = none ↔ node.Stray := by
  unfold nodeRequest Node.Stray
  by_cases h1 : node.id = 1
  · simp [h1]
  · cases hdel : node.isDeleted <;> cases ho : node.originalNodeObject <;>
      cases hedit : node.isEdited <;> simp [h1]

theorem raises_iff : (nodeRequests nodes).2 = true ↔ ∃ node ∈ nodes, node.Stray := by
  induction nodes with
  | nil => simp [nodeRequests]
  | cons node nodes ih =>
    rw [nodeRequests]
    cases hreq : nodeRequest node with
    | none => exact iff_of_true rfl ⟨node, List.mem_cons_self, nodeRequest_eq_none.mp hreq⟩
    | some requests =>
      have hnot : ¬ node.Stray := fun hs => nomatch hreq.symm.trans (nodeRequest_eq_none.mpr hs)
      dsimp only
      rw [ih]
      constructor
      · rintro ⟨node', hmem, hs⟩
        exact ⟨node', List.mem_cons_of_mem _ hmem, hs⟩
      · rintro ⟨node', hmem, hs⟩
        rcases List.mem_cons.mp hmem with rfl | hmem
        · exact absurd hs hnot
        · exact ⟨node', hmem, hs⟩

theorem mem_nodeRequests (hr : r ∈ (nodeRequests nodes).1) :
    ∃ node ∈ nodes, ∃ requests, nodeRequest node = some requests ∧ r ∈ requests := by
  induction nodes with
  | nil => exact absurd hr List.not_mem_nil
  | cons node nodes ih =>
    rw [nodeRequests] at hr
    cases hreq : nodeRequest node with
    | none =>
      rw [hreq] at hr
      exact absurd hr List.not_mem_nil
    | some requests =>
      rw [hreq] at hr
      rcases List.mem_append.mp hr with hr | hr
      · exact ⟨node, List.mem_cons_self, requests, hreq, hr⟩
      · obtain ⟨node', hmem, rest⟩ := ih hr
        exact ⟨node', List.mem_cons_of_mem _ hmem, rest⟩

/-- Where nothing is raised, every node has sent its requests. -/
theorem sent_of_not_raises (h : (nodeRequests nodes).2 = false) {node : Node} (hmem : node ∈ nodes)
    {requests : List Request} (hreq : nodeRequest node = some requests) :
    ∀ r ∈ requests, r ∈ (nodeRequests nodes).1 := by
  induction nodes with
  | nil => exact absurd hmem List.not_mem_nil
  | cons first nodes ih =>
    rw [nodeRequests] at h ⊢
    cases hfirst : nodeRequest first with
    | none =>
      rw [hfirst] at h
      exact nomatch h
    | some sent =>
      rw [hfirst] at h
      intro r hr
      rcases List.mem_cons.mp hmem with rfl | hmem
      · rw [hfirst] at hreq
        cases hreq
        exact List.mem_append_left _ hr
      · exact List.mem_append_right _ (ih h hmem r hr)

/-- What one node sends. -/
theorem nodeRequest_cases {node : Node} {requests : List Request}
    (hreq : nodeRequest node = some requests) (hr : r ∈ requests) : node.id ≠ 1 ∧
      ((node.isDeleted = true ∧ ∃ o, node.originalNodeObject = some o ∧ r = .destroy o.id) ∨
        (node.isDeleted = false ∧ node.originalNodeObject = none ∧
          r = .createNode node.id node.isApprovalTemplate) ∨
        (node.isDeleted = false ∧ node.isEdited = true ∧ ∃ o, node.originalNodeObject = some o ∧
          r = .updateNode node.id o.id node.isApprovalTemplate o.isApproval)) := by
  unfold nodeRequest at hreq
  by_cases h1 : node.id = 1
  · rw [if_pos h1] at hreq
    cases hreq
    exact absurd hr List.not_mem_nil
  · rw [if_neg h1] at hreq
    refine ⟨h1, ?_⟩
    cases hdel : node.isDeleted with
    | true =>
      cases ho : node.originalNodeObject with
      | some o =>
        rw [hdel, ho] at hreq
        cases hreq
        exact .inl ⟨rfl, o, rfl, List.mem_singleton.mp hr⟩
      | none =>
        rw [hdel, ho] at hreq
        dsimp only at hreq
        split_ifs at hreq
        cases hreq
        exact absurd hr List.not_mem_nil
    | false =>
      cases ho : node.originalNodeObject with
      | some o =>
        rw [hdel, ho] at hreq
        dsimp only at hreq
        split_ifs at hreq with hedit
        · cases hreq
          exact .inr (.inr ⟨rfl, hedit, o, rfl, List.mem_singleton.mp hr⟩)
        · cases hreq
          exact absurd hr List.not_mem_nil
      | none =>
        rw [hdel, ho] at hreq
        cases hreq
        exact .inr (.inl ⟨rfl, rfl, List.mem_singleton.mp hr⟩)

theorem nodeRequest_le_one {node : Node} {requests : List Request}
    (hreq : nodeRequest node = some requests) : requests = [] ∨ ∃ r, requests = [r] := by
  unfold nodeRequest at hreq
  split at hreq
  · exact .inl (Option.some.inj hreq).symm
  · split at hreq
    · exact .inr ⟨_, (Option.some.inj hreq).symm⟩
    · exact .inr ⟨_, (Option.some.inj hreq).symm⟩
    · split at hreq
      · exact .inr ⟨_, (Option.some.inj hreq).symm⟩
      · exact .inl (Option.some.inj hreq).symm
    · split at hreq
      · exact nomatch hreq
      · exact .inl (Option.some.inj hreq).symm

/-- Whose key it is. -/
def Node.Owns (node : Node) (key : Bool × ℕ) : Prop :=
  if key.1 then ∃ o, node.originalNodeObject = some o ∧ o.id = key.2 else node.id = key.2

theorem owns_of_nodeRequest {node : Node} {requests : List Request}
    (hreq : nodeRequest node = some requests) {key : Bool × ℕ} (hr : r ∈ requests)
    (hkey : r.key = some key) : node.Owns key := by
  rcases (nodeRequest_cases hreq hr).2 with ⟨-, o, ho, rfl⟩ | ⟨-, -, rfl⟩ | ⟨-, -, o, -, rfl⟩
  · cases hkey
    exact ⟨o, ho, rfl⟩
  · cases hkey
    exact (if_neg Bool.false_ne_true).mpr rfl
  · cases hkey

theorem once_nodeRequests (hids : (nodes.map Node.id).Nodup)
    (hinj : ∀ k k' i, HasId nodes k i → HasId nodes k' i → k = k') :
    ((nodeRequests nodes).1.filterMap Request.key).Nodup := by
  induction nodes with
  | nil => exact List.nodup_nil
  | cons node nodes ih =>
    rw [List.map_cons, List.nodup_cons] at hids
    have hmono : ∀ {k i}, HasId nodes k i → HasId (node :: nodes) k i := by
      rintro k i ⟨node', hmem, rest⟩
      exact ⟨node', List.mem_cons_of_mem _ hmem, rest⟩
    rw [nodeRequests]
    cases hreq : nodeRequest node with
    | none => exact List.nodup_nil
    | some requests =>
      dsimp only
      rw [List.filterMap_append]
      refine List.nodup_append.mpr ⟨?_, ih hids.2 fun k k' i hk hk' =>
        hinj k k' i (hmono hk) (hmono hk'), fun key hk key' hk' heq => ?_⟩
      · rcases nodeRequest_le_one hreq with rfl | ⟨r, rfl⟩
        · exact List.nodup_nil
        · cases hkey : r.key with
          | none =>
            rw [List.filterMap_cons_none hkey]
            exact List.nodup_nil
          | some key =>
            rw [List.filterMap_cons_some hkey]
            exact List.nodup_singleton key
      · subst heq
        obtain ⟨r, hr, hkey⟩ := List.mem_filterMap.mp hk
        obtain ⟨r', hr', hkey'⟩ := List.mem_filterMap.mp hk'
        obtain ⟨node', hmem', requests', hreq', hr'⟩ := mem_nodeRequests hr'
        have howns := owns_of_nodeRequest hreq hr hkey
        have howns' := owns_of_nodeRequest hreq' hr' hkey'
        have hid : node.id = node'.id := by
          unfold Node.Owns at howns howns'
          split_ifs at howns howns'
          · obtain ⟨o, ho, hoi⟩ := howns
            obtain ⟨o', ho', hoi'⟩ := howns'
            exact hinj _ _ key.2 ⟨node, List.mem_cons_self, rfl, o, ho, hoi⟩
              ⟨node', List.mem_cons_of_mem _ hmem', rfl, o', ho', hoi'⟩
          · exact howns.trans howns'.symm
        exact hids.1 (hid ▸ List.mem_map_of_mem hmem')

/-! ### The whole attempt -/

theorem Saveable.valid_first (h : Saveable server nodes links) (hr : r ∈ (nodeRequests nodes).1) :
    Valid server nodes links r := by
  obtain ⟨node, hmem, requests, hreq, hr⟩ := mem_nodeRequests hr
  obtain ⟨h1, ⟨hdel, o, ho, rfl⟩ | ⟨hdel, hnone, rfl⟩ | ⟨hdel, -, o, ho, rfl⟩⟩ :=
    nodeRequest_cases hreq hr
  · exact ⟨node, hmem, hdel, o, ho, rfl⟩
  · exact ⟨node, hmem, rfl, h1, hdel, hnone, rfl⟩
  · exact ⟨⟨node, hmem, ⟨rfl, hdel, rfl⟩, o, ho, rfl⟩, h.approved node hmem o ho hdel⟩

theorem mem_deletedNodeIds (h : WellDrawn nodes links) {i : ℕ} :
    i ∈ deletedNodeIds nodes ↔ Shows nodes i fun node => node.isDeleted = true := by
  simp only [deletedNodeIds, List.mem_filterMap]
  constructor
  · rintro ⟨node, hmem, heq⟩
    split_ifs at heq with hcond
    obtain ⟨o, ho, rfl⟩ := Option.map_eq_some_iff.mp heq
    exact ⟨node, hmem, hcond.2, o, ho, rfl⟩
  · rintro ⟨node, hmem, hdel, o, ho, rfl⟩
    have h1 : node.id ≠ 1 := fun h1 => h.start o.id (h1 ▸ hasId_of_mem hmem ho)
    exact ⟨node, hmem, by rw [if_pos ⟨h1, hdel⟩, ho]; rfl⟩

theorem mem_originalLinkMap {e : ℕ × OriginalLinks} : e ∈ originalLinkMap nodes ↔
    ∃ node ∈ nodes, node.id ≠ 1 ∧ node.isDeleted = false ∧ ∃ o, node.originalNodeObject = some o ∧
      e = (node.id, o.originalLinks) := by
  simp only [originalLinkMap, List.mem_filterMap]
  constructor
  · rintro ⟨node, hmem, heq⟩
    split_ifs at heq with hcond
    obtain ⟨h1, hdel⟩ := not_or.mp hcond
    obtain ⟨o, ho, rfl⟩ := Option.map_eq_some_iff.mp heq
    exact ⟨node, hmem, h1, Bool.eq_false_iff.mpr hdel, o, ho, rfl⟩
  · rintro ⟨node, hmem, h1, hdel, o, ho, rfl⟩
    have hcond : ¬(node.id = 1 ∨ node.isDeleted = true) := by
      rw [hdel]
      exact not_or.mpr ⟨h1, Bool.false_ne_true⟩
    exact ⟨node, hmem, by rw [if_neg hcond, ho]; rfl⟩

/-- Every attempt starts from a saveable graph, and nothing has been lost yet. -/
theorem Saveable.sane (h : Saveable server nodes links) :
    Sane links (saveVisualizer server nodes) where
  core := by
    refine ⟨h, h.covers, fun e he => ?_, fun i => mem_deletedNodeIds h.drawn⟩
    obtain ⟨node, hmem, h1, hdel, o, ho, rfl⟩ := mem_originalLinkMap.mp he
    exact ⟨⟨node, hmem, rfl, hdel, h1⟩, hasId_of_mem hmem ho⟩
  valid r hr := h.valid_first hr
  once := once_nodeRequests h.drawn.ids h.drawn.inj
  settled t x y hr := by
    obtain ⟨node, hmem, requests, hreq, hr⟩ := mem_nodeRequests hr
    rcases (nodeRequest_cases hreq hr).2 with ⟨-, o, -, heq⟩ | ⟨-, -, heq⟩ | ⟨-, -, o, -, heq⟩ <;>
      cases heq
  progress := by
    unfold Progress
    rw [saveVisualizer]
    dsimp only
    cases hraises : (nodeRequests nodes).2 with
    | true => exact trivial
    | false =>
      have hsent : ∀ node ∈ nodes, ∀ requests, nodeRequest node = some requests →
          ∀ r ∈ requests, r ∈ (nodeRequests nodes).1 := fun node hmem requests hreq =>
        sent_of_not_raises hraises hmem hreq
      refine ⟨fun i hi => ?_, fun k hk => ?_, fun k i hk hi => ?_⟩
      · obtain ⟨node, hmem, hdel, o, ho, rfl⟩ := hi
        have h1 : node.id ≠ 1 := fun h1 => h.drawn.start o.id (h1 ▸ hasId_of_mem hmem ho)
        have hreq : nodeRequest node = some [.destroy o.id] := by
          rw [nodeRequest, if_neg h1, hdel, ho]
        exact .inl (hsent node hmem _ hreq _ List.mem_cons_self)
      · obtain ⟨node, hmem, rfl, hdel, h1⟩ := hk
        cases ho : node.originalNodeObject with
        | some o => exact .inl ⟨o.id, hasId_of_mem hmem ho⟩
        | none =>
          have hreq : nodeRequest node = some [.createNode node.id node.isApprovalTemplate] := by
            rw [nodeRequest, if_neg h1, hdel, ho]
          exact .inr ⟨_, hsent node hmem _ hreq _ List.mem_cons_self⟩
      · obtain ⟨node, hmem, rfl, o, ho, rfl⟩ := hi
        obtain ⟨hdel, h1⟩ := hk.not_deleted h.drawn.ids hmem rfl
        exact ⟨_, mem_originalLinkMap.mpr ⟨node, hmem, h1, hdel, o, ho, rfl⟩, rfl⟩

theorem Sane.fail (h : Sane links a) : Sane links a.fail :=
  ⟨h.core, h.valid, h.once, h.settled, trivial⟩

theorem Sane.step (h : Sane links a) {e : Event} (hstep : Attempt.Step links a e a') :
    Sane links a' := by
  cases hstep with
  | serve hr => exact h.serve hr
  | proceed hnil hdone hfailed => exact (h.proceed hnil hdone hfailed).1
  | lose hr => exact h.failed
  | loseOther _ => exact h.fail

theorem Sane.of_reachable (h : Saveable server nodes links)
    (hr : (saving server nodes links).Reachable a) : Sane links a :=
  hr.invariant (fun _ hinit => hinit ▸ h.sane) fun _ _ _ _ hs hstep => hs.step hstep

end Forail.Visualizer
