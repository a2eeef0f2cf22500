import Forail.Base.MapM
import Forail.Models.WorkflowNodes

/-! The graph of a new workflow job is that of the nodes that it was copied from. The first pass makes one
node for each; the second, node by node, gives each its children. -/

namespace Forail.WorkflowNodes

/-! ### The nodes -/

/-- Where the first pass puts the copy of an old node. -/
def place (first : ℕ) (oldNodes : List Node) (pk : ℕ) : ℕ :=
  first + (oldNodes.map fun n => n.pk).idxOf pk

/-- A copy without children. -/
def bare (f : ℕ → ℕ) (workflowJob : ℕ) (n : Node) : WorkflowJobNode :=
  { newNode n workflowJob with pk := f n.pk }

theorem place_inj (first : ℕ) (oldNodes : List Node) : ∀ m ∈ oldNodes, ∀ n ∈ oldNodes,
    place first oldNodes m.pk = place first oldNodes n.pk → m.pk = n.pk :=
  fun _ hm _ _ h => (List.idxOf_inj (List.mem_map_of_mem hm)).mp (Nat.add_left_cancel h)

theorem createWorkflowNodes_spec (workflowJob : ℕ) {oldNodes : List Node}
    (hnodup : (oldNodes.map fun n => n.pk).Nodup) (links : Dict ℕ ℕ) (t : JobNodes) :
    (∀ pk, (createWorkflowNodes workflowJob oldNodes (links, t)).1.get? pk =
      if pk ∈ oldNodes.map (fun n => n.pk) then some (place t.next oldNodes pk) else links.get? pk) ∧
    (createWorkflowNodes workflowJob oldNodes (links, t)).2.rows =
      t.rows ++ oldNodes.map (bare (place t.next oldNodes) workflowJob) ∧
    (createWorkflowNodes workflowJob oldNodes (links, t)).2.next = t.next + oldNodes.length := by
  induction oldNodes generalizing links t with
  | nil => exact ⟨fun _ => rfl, (List.append_nil _).symm, rfl⟩
  | cons n oldNodes ih =>
    rw [List.map_cons, List.nodup_cons] at hnodup
    obtain ⟨hn, hnodup⟩ := hnodup
    have hlater : ∀ pk, pk ≠ n.pk → place (t.next + 1) oldNodes pk = place t.next (n :: oldNodes) pk := by
      intro pk hpk
      rw [place, place, List.map_cons, List.idxOf_cons_ne _ (Ne.symm hpk)]
      omega
    have hhead : place t.next (n :: oldNodes) n.pk = t.next := by
      simp [place]
    obtain ⟨hlinks, hrows, hnext⟩ := ih hnodup (links.set n.pk t.next) (t.insert (newNode n workflowJob))
    refine ⟨fun pk => ?_, ?_, ?_⟩
    · rw [createWorkflowNodes, List.foldl_cons]
      refine (hlinks pk).trans ?_
      by_cases hpk : pk = n.pk
      · subst hpk
        rw [if_neg hn, Dict.get?_set, if_pos rfl, if_pos (by simp), hhead]
      · have hmem : pk ∈ (n :: oldNodes).map (fun n => n.pk) ↔ pk ∈ oldNodes.map fun n => n.pk := by
          simp [hpk]
        rw [Dict.get?_set, if_neg hpk, if_congr hmem rfl rfl]
        split_ifs
        · exact congrArg some (hlater pk hpk)
        · rfl
    · rw [createWorkflowNodes, List.foldl_cons]
      refine hrows.trans ?_
      have hmap : oldNodes.map (bare (place (t.next + 1) oldNodes) workflowJob) =
          oldNodes.map (bare (place t.next (n :: oldNodes)) workflowJob) := by
        refine List.map_congr_left fun m hm => ?_
        rw [bare, bare, hlater m.pk fun heq => hn (heq ▸ List.mem_map_of_mem hm)]
      rw [List.map_cons, ← hmap, bare, hhead]
      simp [JobNodes.insert]
    · rw [createWorkflowNodes, List.foldl_cons]
      refine hnext.trans ?_
      rw [List.length_cons]
      change t.next + 1 + oldNodes.length = t.next + (oldNodes.length + 1)
      omega

/-! ### The edges -/

theorem withChildren_withChildren (rel : Relationship) (ids ids' : List ℕ) (r : WorkflowJobNode) :
    (r.withChildren rel ids).withChildren rel ids' = r.withChildren rel (ids ++ ids') := by
  simp [WorkflowJobNode.withChildren, Related.addAll, List.foldl_append]

theorem modify_withChildren (f : WorkflowJobNode → WorkflowJobNode) (hf : ∀ r, (f r).pk = r.pk)
    (l : List WorkflowJobNode) (new : ℕ) (rel : Relationship) (ids : List ℕ) :
    Keyed.modify (fun r => r.pk) (Keyed.modify (fun r => r.pk) l new f) new
        (WorkflowJobNode.withChildren rel ids) =
      Keyed.modify (fun r => r.pk) l new fun r => (f r).withChildren rel ids :=
  Keyed.modify_modify hf

theorem inheritChildren_spec {links : Dict ℕ ℕ} {f : ℕ → ℕ} (new : ℕ) (rel : Relationship)
    {children : List ℕ} (hknown : ∀ c ∈ children, links.get? c = some (f c)) (t : JobNodes) :
    ∃ t', inheritChildren links new rel children t = some t' ∧ t'.next = t.next ∧
      t'.rows = Keyed.modify (fun r : WorkflowJobNode => r.pk) t.rows new
        (WorkflowJobNode.withChildren rel (children.map f)) := by
  induction children generalizing t with
  | nil =>
    refine ⟨t, rfl, rfl, ?_⟩
    have hid : ∀ r : WorkflowJobNode, r.withChildren rel [] = r := by
      intro r
      simp [WorkflowJobNode.withChildren, Related.addAll]
    simp [Keyed.modify, hid]
  | cons c children ih =>
    obtain ⟨t', hrun, hnext, hrows⟩ := ih (fun c' hc' => hknown c' (List.mem_cons_of_mem c hc'))
      (addChild t new rel (f c))
    refine ⟨t', ?_, hnext, ?_⟩
    · rw [inheritChildren, List.foldlM_cons, hknown c List.mem_cons_self]
      exact hrun
    · rw [hrows]
      refine (modify_withChildren (WorkflowJobNode.withChildren rel [f c]) (fun _ => rfl) t.rows new rel
        (children.map f)).trans ?_
      simp only [withChildren_withChildren, List.map_cons, List.singleton_append]

/-- All children of a copy. -/
def withAllChildren (f : ℕ → ℕ) (n : Node) (r : WorkflowJobNode) : WorkflowJobNode :=
  ((r.withChildren .always ((n.children .always).ids.map f)).withChildren .success
    ((n.children .success).ids.map f)).withChildren .failure ((n.children .failure).ids.map f)

theorem children_withAllChildren (f : ℕ → ℕ) (n : Node) (r : WorkflowJobNode) (rel : Relationship) :
    (withAllChildren f n r).children rel = (r.children rel).addAll ((n.children rel).ids.map f) := by
  cases rel <;> simp [withAllChildren, WorkflowJobNode.withChildren, Function.update]

theorem inheritNodeRelationships_spec {links : Dict ℕ ℕ} {f : ℕ → ℕ} {oldNodes : List Node}
    (hknown : ∀ n ∈ oldNodes, links.get? n.pk = some (f n.pk))
    (hchildren : ∀ n ∈ oldNodes, ∀ rel, ∀ c ∈ (n.children rel).ids, links.get? c = some (f c))
    (t : JobNodes) :
    ∃ t', inheritNodeRelationships links oldNodes t = some t' ∧ t'.next = t.next ∧
      t'.rows = oldNodes.foldl (fun l n => Keyed.modify (fun r : WorkflowJobNode => r.pk) l (f n.pk)
        (withAllChildren f n)) t.rows := by
  induction oldNodes generalizing t with
  | nil => exact ⟨t, rfl, rfl, rfl⟩
  | cons n oldNodes ih =>
    have hn := hchildren n List.mem_cons_self
    obtain ⟨t₁, hrun₁, hnext₁, hrows₁⟩ := inheritChildren_spec (f n.pk) .always (hn .always) t
    obtain ⟨t₂, hrun₂, hnext₂, hrows₂⟩ := inheritChildren_spec (f n.pk) .success (hn .success) t₁
    obtain ⟨t₃, hrun₃, hnext₃, hrows₃⟩ := inheritChildren_spec (f n.pk) .failure (hn .failure) t₂
    obtain ⟨t', hrun, hnext, hrows⟩ := ih (fun m hm => hknown m (List.mem_cons_of_mem n hm))
      (fun m hm => hchildren m (List.mem_cons_of_mem n hm)) t₃
    refine ⟨t', ?_, by rw [hnext, hnext₃, hnext₂, hnext₁], ?_⟩
    · rw [inheritNodeRelationships, List.foldlM_cons, hknown n List.mem_cons_self]
      simp only [Option.bind_eq_bind, Option.bind_some, List.foldlM_cons, List.foldlM_nil, hrun₁, hrun₂,
        hrun₃]
      exact hrun
    · have hsuccess := modify_withChildren
        (WorkflowJobNode.withChildren .always ((n.children .always).ids.map f)) (fun _ => rfl) t.rows (f n.pk)
        .success ((n.children .success).ids.map f)
      have hfailure := modify_withChildren
        (fun r => (r.withChildren .always ((n.children .always).ids.map f)).withChildren .success
          ((n.children .success).ids.map f)) (fun _ => rfl) t.rows (f n.pk) .failure
        ((n.children .failure).ids.map f)
      rw [hrows, hrows₃, hrows₂, hrows₁, List.foldl_cons, hsuccess, hfailure]
      rfl

/-- A copy with its children. -/
def copied (f : ℕ → ℕ) (workflowJob : ℕ) (n : Node) : WorkflowJobNode :=
  withAllChildren f n (bare f workflowJob n)

/-- Every child is one of the nodes. -/
def Closed (oldNodes : List Node) : Prop :=
  ∀ n ∈ oldNodes, ∀ rel, ∀ c ∈ (n.children rel).ids, c ∈ oldNodes.map fun n => n.pk

theorem copyNodesFromOriginal_spec {oldNodes : List Node} (hnodup : (oldNodes.map fun n => n.pk).Nodup)
    (hclosed : Closed oldNodes) (workflowJob : ℕ) (t : JobNodes) :
    ∃ t', copyNodesFromOriginal workflowJob oldNodes t = some t' ∧
      t'.rows = t.rows ++ oldNodes.map (copied (place t.next oldNodes) workflowJob) := by
  obtain ⟨hlinks, hrows, -⟩ := createWorkflowNodes_spec workflowJob hnodup .empty t
  have hknown : ∀ pk ∈ oldNodes.map (fun n => n.pk),
      (createWorkflowNodes workflowJob oldNodes (.empty, t)).1.get? pk = some (place t.next oldNodes pk) := by
    intro pk hpk
    rw [hlinks, if_pos hpk]
  obtain ⟨t', hrun, -, hrows'⟩ := inheritNodeRelationships_spec
    (fun n hn => hknown n.pk (List.mem_map_of_mem hn)) (fun n hn rel c hc => hknown c (hclosed n hn rel c hc))
    (createWorkflowNodes workflowJob oldNodes (.empty, t)).2
  refine ⟨t', hrun, ?_⟩
  rw [hrows', hrows]
  refine Keyed.foldl_modify (k := fun n : Node => place t.next oldNodes n.pk) ?_ (fun _ _ => rfl)
    (fun _ _ => rfl) ?_
  · have hmap : oldNodes.map (fun n => place t.next oldNodes n.pk) =
        (oldNodes.map fun n => n.pk).map (place t.next oldNodes) := by
      rw [List.map_map]
      rfl
    rw [hmap]
    refine hnodup.map_on fun pk hpk pk' _ heq => ?_
    obtain ⟨n, hn, rfl⟩ := List.mem_map.mp hpk
    exact (List.idxOf_inj (List.mem_map_of_mem hn)).mp (Nat.add_left_cancel heq)
  · intro r hr hmem
    obtain ⟨n, -, heq⟩ := List.mem_map.mp hmem
    have hlt := t.fresh r hr
    rw [← heq, place] at hlt
    omega

/-! ### The new graph -/

/-- What a new node has of the old one, under the links. -/
structure CopyOf (f : ℕ → ℕ) (workflowJob : ℕ) (extraData : Dict String Value) (n : Node)
    (r : WorkflowJobNode) : Prop where
  pk : r.pk = f n.pk
  workflowJob : r.workflowJob = some workflowJob
  identifier : r.identifier = n.identifier
  unifiedJobTemplate : r.unifiedJobTemplate = n.unifiedJobTemplate
  allParentsMustConverge : r.allParentsMustConverge = n.allParentsMustConverge
  extraData : r.extraData = extraData
  surveyPasswords : r.surveyPasswords = n.surveyPasswords
  inventory : r.inventory = n.inventory
  charPrompts : r.charPrompts = n.charPrompts
  executionEnvironment : r.executionEnvironment = n.executionEnvironment
  credentials : r.credentials = n.credentials
  labels : r.labels = n.labels
  instanceGroups : r.instanceGroups = n.instanceGroups
  job : r.job = none
  ancestorArtifacts : r.ancestorArtifacts = .dict []
  doNotRun : r.doNotRun = false
  children : ∀ rel, (r.children rel).ids = (n.children rel).ids.map f

/-- The nodes of a new job are those of the old graph, by links that are one to one; the other nodes are as
they were. -/
structure Instantiates (f : ℕ → ℕ) (oldNodes : List Node) (workflowJob : ℕ)
    (extraData : Node → Dict String Value) (before after : List WorkflowJobNode) : Prop where
  injective : ∀ m ∈ oldNodes, ∀ n ∈ oldNodes, f m.pk = f n.pk → m.pk = n.pk
  nodes : ∃ new, after = before ++ new ∧
    List.Forall₂ (fun n r => CopyOf f workflowJob (extraData n) n r) oldNodes new
  own : ∀ r ∈ after, r.workflowJob = some workflowJob ↔ ∃ n ∈ oldNodes, r.pk = f n.pk
  edge_iff : ∀ m ∈ oldNodes, ∀ n ∈ oldNodes, ∀ r ∈ after, r.pk = f m.pk →
    ∀ rel, f n.pk ∈ r.children rel ↔ n.pk ∈ m.children rel
  /-- An edge leads to a new node if and only if it leads from one. -/
  inside : ∀ r ∈ after, ∀ rel, ∀ c ∈ r.children rel,
    r.workflowJob = some workflowJob ↔ ∃ n ∈ oldNodes, c = f n.pk

theorem copyOf_copied {f : ℕ → ℕ} {oldNodes : List Node} {n : Node} (hn : n ∈ oldNodes)
    (hclosed : Closed oldNodes)
    (hinj : ∀ m ∈ oldNodes, ∀ n ∈ oldNodes, f m.pk = f n.pk → m.pk = n.pk) (workflowJob : ℕ) :
    CopyOf f workflowJob n.extraData n (copied f workflowJob n) where
  pk := rfl
  workflowJob := rfl
  identifier := rfl
  unifiedJobTemplate := rfl
  allParentsMustConverge := rfl
  extraData := rfl
  surveyPasswords := rfl
  inventory := rfl
  charPrompts := rfl
  executionEnvironment := rfl
  credentials := Related.addAll_empty n.credentials
  labels := Related.addAll_empty n.labels
  instanceGroups := Related.addAll_empty n.instanceGroups
  job := rfl
  ancestorArtifacts := rfl
  doNotRun := rfl
  children := by
    intro rel
    rw [copied, children_withAllChildren]
    refine Related.ids_addAll_map fun a ha b hb heq => ?_
    obtain ⟨m, hm, rfl⟩ := List.mem_map.mp (hclosed n hn rel a ha)
    obtain ⟨m', hm', rfl⟩ := List.mem_map.mp (hclosed n hn rel b hb)
    exact hinj m hm m' hm' heq

theorem instantiates_of_copies {f : ℕ → ℕ} {oldNodes : List Node} {workflowJob : ℕ}
    {extraData : Node → Dict String Value} {before new : List WorkflowJobNode}
    (hnodup : (oldNodes.map fun n => n.pk).Nodup) (hclosed : Closed oldNodes)
    (hcopies : List.Forall₂ (fun n r => CopyOf f workflowJob (extraData n) n r) oldNodes new)
    (hinj : ∀ m ∈ oldNodes, ∀ n ∈ oldNodes, f m.pk = f n.pk → m.pk = n.pk)
    (hfresh : ∀ n ∈ oldNodes, ∀ r ∈ before, r.pk ≠ f n.pk ∧ ∀ rel, f n.pk ∉ r.children rel)
    (hjob : ∀ r ∈ before, r.workflowJob ≠ some workflowJob) :
    Instantiates f oldNodes workflowJob extraData before (before ++ new) where
  injective := hinj
  nodes := ⟨new, rfl, hcopies⟩
  own := by
    intro r hr
    rcases List.mem_append.mp hr with hr | hr
    · exact iff_of_false (hjob r hr) fun ⟨n, hn, hpk⟩ => (hfresh n hn r hr).1 hpk
    · obtain ⟨n, hn, hcopy⟩ := exists_of_mem_right hcopies hr
      exact iff_of_true hcopy.workflowJob ⟨n, hn, hcopy.pk⟩
  edge_iff := by
    intro m hm n hn r hr hpk rel
    rcases List.mem_append.mp hr with hr | hr
    · exact absurd hpk (hfresh m hm r hr).1
    · obtain ⟨m', hm', hcopy⟩ := exists_of_mem_right hcopies hr
      obtain rfl : m' = m := Keyed.eq_of_key hnodup hm' hm (hinj m' hm' m hm (hcopy.pk.symm.trans hpk))
      rw [Related.mem_def, Related.mem_def, hcopy.children, List.mem_map]
      constructor
      · rintro ⟨c, hc, heq⟩
        obtain ⟨n', hn', rfl⟩ := List.mem_map.mp (hclosed m' hm rel c hc)
        exact hinj n' hn' n hn heq ▸ hc
      · exact fun hc => ⟨n.pk, hc, rfl⟩
  inside := by
    intro r hr rel c hc
    rcases List.mem_append.mp hr with hr | hr
    · exact iff_of_false (hjob r hr) fun ⟨n, hn, heq⟩ => (hfresh n hn r hr).2 rel (heq ▸ hc)
    · obtain ⟨n, hn, hcopy⟩ := exists_of_mem_right hcopies hr
      rw [Related.mem_def, hcopy.children] at hc
      obtain ⟨c', hc', rfl⟩ := List.mem_map.mp hc
      obtain ⟨n', hn', rfl⟩ := List.mem_map.mp (hclosed n hn rel c' hc')
      exact iff_of_true hcopy.workflowJob ⟨n', hn', rfl⟩

/-! ### Launches and relaunches -/

namespace Db

/-- Nodes are children of nodes of the same workflow, and the next job has none yet. -/
structure Valid (db : Db) : Prop where
  template_nodup : (db.templateNodes.map fun n => n.pk).Nodup
  template_closed : ∀ n ∈ db.templateNodes, ∀ rel, ∀ c ∈ n.children rel,
    ∃ m ∈ db.templateNodes, m.pk = c ∧ m.workflowJobTemplate = n.workflowJobTemplate
  job_closed : ∀ r ∈ db.jobNodes.rows, ∀ rel, ∀ c ∈ r.children rel,
    ∃ m ∈ db.jobNodes.rows, m.pk = c ∧ m.workflowJob = r.workflowJob
  job_lt : ∀ r ∈ db.jobNodes.rows, ∀ j ∈ r.workflowJob, j < db.nextJob

/-- The variables of a node with the answers to its survey. -/
def answered (nodeSurveyData : Dict String Value) (n : Node) : Dict String Value :=
  match nodeSurveyData.get? n.identifier with
  | some (.dict answers) => n.extraData.update answers
  | _ => n.extraData

variable {db : Db}

theorem Valid.nodup_templateNodesOf (h : db.Valid) (template : ℕ) :
    ((db.templateNodesOf template).map fun n => n.pk).Nodup := by
  rw [templateNodesOf, List.map_map]
  exact h.template_nodup.sublist (List.filter_sublist.map _)

theorem Valid.closed_templateNodesOf (h : db.Valid) (template : ℕ) : Closed (db.templateNodesOf template) := by
  intro n hn rel c hc
  obtain ⟨n, hmem, rfl⟩ := List.mem_map.mp hn
  obtain ⟨hmem, hown⟩ := List.mem_filter.mp hmem
  obtain ⟨m, hm, rfl, hsame⟩ := h.template_closed n hmem rel c hc
  rw [templateNodesOf, List.map_map]
  refine List.mem_map.mpr ⟨m, List.mem_filter.mpr ⟨hm, ?_⟩, rfl⟩
  rw [hsame]
  exact hown

variable (db) in
theorem nodup_jobNodesOf (job : ℕ) : ((db.jobNodesOf job).map fun n => n.pk).Nodup := by
  rw [jobNodesOf, List.map_map]
  exact db.jobNodes.nodup.sublist (List.filter_sublist.map _)

theorem Valid.closed_jobNodesOf (h : db.Valid) (job : ℕ) : Closed (db.jobNodesOf job) := by
  intro n hn rel c hc
  obtain ⟨r, hmem, rfl⟩ := List.mem_map.mp hn
  obtain ⟨hmem, hown⟩ := List.mem_filter.mp hmem
  obtain ⟨m, hm, rfl, hsame⟩ := h.job_closed r hmem rel c hc
  rw [jobNodesOf, List.map_map]
  refine List.mem_map.mpr ⟨m, List.mem_filter.mpr ⟨hm, ?_⟩, rfl⟩
  rw [hsame]
  exact hown

/-- What there was knows nothing of the new nodes. -/
theorem Valid.fresh (h : db.Valid) {oldNodes : List Node} {n : Node} {r : WorkflowJobNode}
    (hr : r ∈ db.jobNodes.rows) :
    r.pk ≠ place db.jobNodes.next oldNodes n.pk ∧
      ∀ rel, place db.jobNodes.next oldNodes n.pk ∉ r.children rel := by
  have hlt : ∀ m ∈ db.jobNodes.rows, m.pk ≠ place db.jobNodes.next oldNodes n.pk := by
    intro m hm heq
    have hm' := db.jobNodes.fresh m hm
    rw [heq, place] at hm'
    omega
  refine ⟨hlt r hr, fun rel hmem => ?_⟩
  obtain ⟨m, hm, heq, -⟩ := h.job_closed r hr rel _ hmem
  exact hlt m hm heq

theorem Valid.new_job (h : db.Valid) : ∀ r ∈ db.jobNodes.rows, r.workflowJob ≠ some db.nextJob :=
  fun r hr heq => absurd (h.job_lt r hr db.nextJob heq) (Nat.lt_irrefl _)

/-- The database after nodes of a new job. -/
theorem Valid.of_instantiates (h : db.Valid) {f : ℕ → ℕ} {oldNodes : List Node}
    {extraData : Node → Dict String Value} {t : JobNodes} (hclosed : Closed oldNodes)
    (hinst : Instantiates f oldNodes db.nextJob extraData db.jobNodes.rows t.rows) :
    (⟨db.templateNodes, t, db.nextJob + 1⟩ : Db).Valid where
  template_nodup := h.template_nodup
  template_closed := h.template_closed
  job_closed := by
    intro r hr rel c hc
    obtain ⟨new, hrows, hcopies⟩ := hinst.nodes
    dsimp only at hr ⊢
    rw [hrows] at hr ⊢
    rcases List.mem_append.mp hr with hr | hr
    · obtain ⟨m, hm, hpk, hjob⟩ := h.job_closed r hr rel c hc
      exact ⟨m, List.mem_append_left new hm, hpk, hjob⟩
    · obtain ⟨n, hn, hcopy⟩ := exists_of_mem_right hcopies hr
      rw [Related.mem_def, hcopy.children] at hc
      obtain ⟨c', hc', rfl⟩ := List.mem_map.mp hc
      obtain ⟨n', hn', rfl⟩ := List.mem_map.mp (hclosed n hn rel c' hc')
      obtain ⟨m, hm, hcopy'⟩ := exists_of_mem_left hcopies hn'
      exact ⟨m, List.mem_append_right _ hm, hcopy'.pk, hcopy'.workflowJob.trans hcopy.workflowJob.symm⟩
  job_lt := by
    intro r hr j hj
    obtain ⟨new, hrows, hcopies⟩ := hinst.nodes
    dsimp only at hr ⊢
    rw [hrows] at hr
    rcases List.mem_append.mp hr with hr | hr
    · exact Nat.lt_succ_of_lt (h.job_lt r hr j hj)
    · obtain ⟨n, -, hcopy⟩ := exists_of_mem_right hcopies hr
      rw [hcopy.workflowJob] at hj
      rw [← Option.some.inj hj]
      exact Nat.lt_succ_self _

theorem CopyOf.applyAnswers {f : ℕ → ℕ} {job : ℕ} {n : Node} {r : WorkflowJobNode}
    (h : CopyOf f job n.extraData n r) (nodeSurveyData : Dict String Value) :
    CopyOf f job (answered nodeSurveyData n) n (applyAnswers nodeSurveyData r) := by
  have hr : Db.applyAnswers nodeSurveyData r = { r with extraData := answered nodeSurveyData n } := by
    unfold Db.applyAnswers answered
    rw [← h.identifier, ← h.extraData]
    cases nodeSurveyData.get? r.identifier with
    | none => rfl
    | some v => cases v <;> rfl
  rw [hr]
  exact { h with extraData := rfl }

theorem rows_applyNodeSurveyData {before new : List WorkflowJobNode} {job : ℕ} {t : JobNodes}
    (nodeSurveyData : Dict String Value) (hrows : t.rows = before ++ new)
    (hbefore : ∀ r ∈ before, r.workflowJob ≠ some job) (hnew : ∀ r ∈ new, r.workflowJob = some job) :
    (applyNodeSurveyData job nodeSurveyData t).rows =
      before ++ new.map (applyAnswers nodeSurveyData) := by
  have hleft : ∀ r ∈ before,
      (if r.workflowJob = some job then applyAnswers nodeSurveyData r else r) = id r :=
    fun r hr => if_neg (hbefore r hr)
  have hright : ∀ r ∈ new, (if r.workflowJob = some job then applyAnswers nodeSurveyData r else r) =
      applyAnswers nodeSurveyData r := fun r hr => if_pos (hnew r hr)
  change t.rows.map (fun r => if r.workflowJob = some job then applyAnswers nodeSurveyData r else r) = _
  rw [hrows, List.map_append, List.map_congr_left hleft, List.map_congr_left hright, List.map_id]

def exampleNode (pk : ℕ) (identifier : String) (children : Relationship → Related ℕ) : Node where
  pk := pk
  identifier := identifier
  unifiedJobTemplate := some 4
  allParentsMustConverge := true
  extraData := ⟨[("version", .int 1)], by decide⟩
  surveyPasswords := .dict []
  inventory := some 5
  charPrompts := .dict [("limit", .str "web")]
  executionEnvironment := none
  credentials := ⟨[8, 6], by decide⟩
  labels := .empty
  instanceGroups := ⟨[3, 1], by decide⟩
  children := children

/-- A template with a node that leads to another on success, and no job yet. -/
def exampleDb : Db where
  templateNodes :=
    [⟨exampleNode 1 "deploy" fun rel => if rel = .success then Related.empty.add 2 else .empty, 7⟩,
      ⟨exampleNode 2 "test" fun _ => .empty, 7⟩]
  jobNodes := ⟨[], 1, List.nodup_nil, by nofun⟩
  nextJob := 9

end Db

end Forail.WorkflowNodes
