import Forail.Scheduler.NestedWorkflows

/-! Runs of nested workflows: every workflow job keeps its list of ancestors, a started one
with pairwise distinct templates. A sliced job has no template and would end the walk of
its descendants early, but its nodes make no workflow jobs. -/

namespace Forail.Scheduler.NestedWorkflows

/-! ### The invariant -/

section Invariant
variable (templates : Dict ℕ (List (Option UnifiedJobTemplate)))

/-- A workflow job has ancestors, with different templates if it was not refused. A spawned
one without a template is sliced: its nodes only make plain jobs. -/
structure Row (jobs : Dict ℕ UnifiedJob) (id : ℕ) (j : UnifiedJob) : Prop where
  ancestry : j.isWorkflowJob = true → ∃ l, Ancestry jobs id l ∧ (id :: l).Nodup ∧
    (j.refused = false → ((id :: l).filterMap (template jobs)).Nodup)
  sliced : j.isWorkflowJob = true → j.workflowJobTemplate = none → j.getWorkflowJob ≠ none →
    ∀ n ∈ j.nodes, (∃ t, n.unifiedJobTemplate = some (.jobTemplate t)) ∧ n.jobSlice ≠ none
  children : ∀ n ∈ j.nodes, ∀ c, n.job = some c →
    ∃ jc, jobs.get? c = some jc ∧ jc.getWorkflowJob = some id
  refused : j.refused = true → j.status = .failed
  known : ∀ t, j.workflowJobTemplate = some t → t ∈ templates.keys

structure Inv (s : State) : Prop where
  rows : ∀ id j, s.jobs.get? id = some j → Row templates s.jobs id j
  tasks : ∀ id ∈ s.allTasks, ∃ j, s.jobs.get? id = some j ∧ j.isWorkflowJob = true ∧
    j.refused = false

end Invariant

section Steps
variable {templates : Dict ℕ (List (Option UnifiedJobTemplate))}

theorem Row.extends {jobs jobs' : Dict ℕ UnifiedJob} (he : Extends jobs jobs') {id : ℕ}
    {j : UnifiedJob} (h : Row templates jobs id j) : Row templates jobs' id j where
  ancestry hw := by
    obtain ⟨l, hl, hn, ht⟩ := h.ancestry hw
    exact ⟨l, hl.extends he, hn, fun hr => (hl.templates_extends he).symm ▸ ht hr⟩
  sliced := h.sliced
  children n hn c hc := by
    obtain ⟨jc, hjc, hg⟩ := h.children n hn c hc
    obtain ⟨jc', hjc', hk⟩ := he c jc hjc
    exact ⟨jc', hjc', hk.workflowJob.trans hg⟩
  refused := h.refused
  known := h.known

theorem extends_set {jobs : Dict ℕ UnifiedJob} {id : ℕ} {job : UnifiedJob}
    (h : ∀ j, jobs.get? id = some j → Kept j job) : Extends jobs (jobs.set id job) := by
  intro a j hj
  rw [Dict.get?_set]
  split_ifs with ha
  · subst ha
    exact ⟨job, rfl, h j hj⟩
  · exact ⟨j, hj, rfl, rfl, rfl, rfl⟩

theorem tasks_extends {s : State} (h : Inv templates s) {jobs : Dict ℕ UnifiedJob}
    (he : Extends s.jobs jobs) : ∀ id ∈ s.allTasks, ∃ j, jobs.get? id = some j ∧
      j.isWorkflowJob = true ∧ j.refused = false := by
  intro id hid
  obtain ⟨j, hj, hwf, hr⟩ := h.tasks id hid
  obtain ⟨j', hj', hk⟩ := he id j hj
  exact ⟨j', hj', hk.isWorkflowJob.trans hwf, hk.refused.trans hr⟩

/-- One row is written. -/
theorem Inv.set {s : State} (h : Inv templates s) {id : ℕ} {job : UnifiedJob}
    (hk : ∀ j, s.jobs.get? id = some j → Kept j job)
    (hrow : Row templates (s.jobs.set id job) id job) :
    Inv templates { s with jobs := s.jobs.set id job } where
  rows a j hj := by
    rcases Dict.of_get?_set hj with ⟨rfl, rfl⟩ | ⟨-, hj⟩
    · exact hrow
    · exact (h.rows a j hj).extends (extends_set hk)
  tasks := tasks_extends h (extends_set hk)

theorem row_launched {jobs : Dict ℕ UnifiedJob} {id : ℕ} {t : Option ℕ} {launchType : LaunchType}
    (hl : launchType ≠ .workflow) {nodes : List (Option UnifiedJobTemplate)}
    (ht : ∀ t' ∈ t, t' ∈ templates.keys) :
    Row templates (jobs.set id (launched t launchType nodes)) id (launched t launchType nodes) where
  ancestry _ := by
    have hg : (launched t launchType nodes).getWorkflowJob = none := if_neg hl
    refine ⟨[], .root (by rw [Dict.get?_set, if_pos rfl]) hg, by simp, fun _ => ?_⟩
    cases t <;> simp [template, Dict.get?_set, launched]
  sliced _ _ hg := absurd (if_neg hl) hg
  children n hn c hc := by
    obtain ⟨template, -, rfl⟩ := List.mem_map.mp hn
    cases hc
  refused h := by cases h
  known t' h := ht t' h

theorem Row.setStatus {jobs : Dict ℕ UnifiedJob} {id : ℕ} {j : UnifiedJob}
    (h : Row templates jobs id j) (hterm : j.status.terminal = false) (status : Status) :
    Row templates jobs id { j with status := status } where
  ancestry := h.ancestry
  sliced := h.sliced
  children := h.children
  refused hr := by
    rw [h.refused hr] at hterm
    cases hterm
  known := h.known

/-- A member of the nodes after one of them was given its job. -/
theorem mem_setNodeJob {w : UnifiedJob} {node id : ℕ} {n : WorkflowJobNode}
    (h : n ∈ (w.setNodeJob node id).nodes) :
    n ∈ w.nodes ∨ ∃ n₀ ∈ w.nodes, n = { n₀ with job := some id } := by
  obtain ⟨i, hi⟩ := List.mem_iff_getElem?.mp h
  rw [UnifiedJob.setNodeJob, List.getElem?_modify] at hi
  obtain ⟨n₀, hn₀, rfl⟩ := Option.map_eq_some_iff.mp hi
  have hmem := List.mem_iff_getElem?.mpr ⟨i, hn₀⟩
  by_cases he : node = i
  · exact .inr ⟨n₀, hmem, by simp [he]⟩
  · exact .inl (by simpa [he] using hmem)

/-- What `create_unified_job` makes, by the kind of the template. -/
theorem createUnifiedJob_spec {n : WorkflowJobNode} {t : UnifiedJobTemplate} {sliceCt : ℕ}
    {job : UnifiedJob} (h : createUnifiedJob templates n t sliceCt = some job) :
    job.launchType = .workflow ∧ job.refused = false ∧ (∀ n ∈ job.nodes, n.job = none) ∧
      ((∃ t', t = .workflowJobTemplate t' ∧ t' ∈ templates.keys ∧
          job.workflowJobTemplate = some t') ∨
        job.workflowJobTemplate = none ∧ (job.isWorkflowJob = true →
          (∃ t', t = .jobTemplate t') ∧ n.jobSlice = none ∧
          ∀ n ∈ job.nodes, (∃ t, n.unifiedJobTemplate = some (.jobTemplate t)) ∧
            n.jobSlice ≠ none)) := by
  unfold createUnifiedJob at h
  cases t with
  | workflowJobTemplate t =>
    obtain ⟨nodes, hnodes, rfl⟩ := Option.map_eq_some_iff.mp h
    refine ⟨rfl, rfl, fun n hn => ?_, .inl ⟨t, rfl, ?_, rfl⟩⟩
    · obtain ⟨template, -, rfl⟩ := List.mem_map.mp hn
      rfl
    · by_contra hk
      rw [templates.get?_eq_none_of_not_mem hk] at hnodes
      cases hnodes
  | jobTemplate t =>
    dsimp only at h
    split_ifs at h with hs
    · obtain rfl := Option.some.inj h
      refine ⟨rfl, rfl, fun n hn => ?_, .inr ⟨rfl, fun _ => ⟨⟨t, rfl⟩, hs.2, fun n hn => ?_⟩⟩⟩
      · obtain ⟨idx, -, rfl⟩ := List.mem_map.mp hn
        rfl
      · obtain ⟨idx, -, rfl⟩ := List.mem_map.mp hn
        exact ⟨⟨t, rfl⟩, by simp⟩
    · obtain rfl := Option.some.inj h
      exact ⟨rfl, rfl, by simp, .inr ⟨rfl, fun h => by cases h⟩⟩
  | other =>
    obtain rfl := Option.some.inj h
    exact ⟨rfl, rfl, by simp, .inr ⟨rfl, fun h => by cases h⟩⟩

def UnifiedJob.leave (j : UnifiedJob) (status : Status) (explanation : String) (refused : Bool) :
    UnifiedJob :=
  { j with status := status, jobExplanation := explanation, refused := refused }

/-- The started or refused job: it is started only with a template that no ancestor has. -/
theorem startSpawned_spec (display : ℕ → String) (jobs : Dict ℕ UnifiedJob) (id : ℕ)
    {job : UnifiedJob} (hj : job.refused = false) (t : UnifiedJobTemplate)
    (resourcesSufficient signalStart : Bool) :
    ∃ status explanation refused,
      startSpawned display jobs id job t resourcesSufficient signalStart =
        job.leave status explanation refused ∧
      (refused = true → status = .failed) ∧
      (refused = false →
        ∀ t', t = .workflowJobTemplate t' → t' ∉ getAncestorWorkflows jobs id) := by
  unfold startSpawned
  dsimp only
  split
  · exact ⟨_, _, true, rfl, fun _ => rfl, fun h => by cases h⟩
  · split
    next => exact ⟨_, _, true, rfl, fun _ => rfl, fun h => by cases h⟩
    next hrec =>
      have hfree : ∀ t', t = .workflowJobTemplate t' → t' ∉ getAncestorWorkflows jobs id := by
        rintro t' rfl hm
        simp [hm] at hrec
      split
      · exact ⟨.pending, job.jobExplanation, false, by rw [UnifiedJob.leave, ← hj], nofun,
          fun _ => hfree⟩
      · exact ⟨_, _, true, rfl, fun _ => rfl, fun h => by cases h⟩

/-- The ancestors of a job that a node of a started workflow job is given. A workflow job
without a template that was itself spawned has slices only, and they spawn none. -/
theorem ancestry_spawned {jobs jobs' : Dict ℕ UnifiedJob} {wj id : ℕ} {w job : UnifiedJob}
    {n : WorkflowJobNode} {t : UnifiedJobTemplate} {sliceCt : ℕ} {l : List ℕ}
    (hrow : Row templates jobs wj w) (hw : jobs.get? wj = some w) (hwf : w.isWorkflowJob = true)
    (hwr : w.refused = false) (hn : n ∈ w.nodes) (ht : n.unifiedJobTemplate = some t)
    (hcreate : createUnifiedJob templates n t sliceCt = some job)
    (hwfj : job.isWorkflowJob = true) (hl : Ancestry jobs wj l) (he : Extends jobs jobs')
    {j : UnifiedJob} (hj : jobs'.get? id = some j) (hg : j.getWorkflowJob = some wj) :
    Ancestry jobs' id (wj :: l) := by
  obtain ⟨w', hw', hk⟩ := he wj w hw
  refine .spawned hj hg hw' (hk.refused.trans hwr) (fun hnone => ?_) (hl.extends he)
  by_contra hspawned
  obtain ⟨⟨t', ht'⟩, hslice⟩ :=
    hrow.sliced hwf (hk.template ▸ hnone) (hk.workflowJob ▸ hspawned) n hn
  obtain ⟨-, -, -, ⟨t'', rfl, -⟩ | ⟨-, hkind⟩⟩ := createUnifiedJob_spec hcreate
  · cases ht.symm.trans ht'
  · exact hslice (hkind hwfj).2.1

/-- A node of a started workflow job is given a new job. -/
theorem Inv.spawn {s : State} (h : Inv templates s) {wj id : ℕ} {w job : UnifiedJob}
    {n : WorkflowJobNode} {node sliceCt : ℕ} {t : UnifiedJobTemplate} (display : ℕ → String)
    (resourcesSufficient signalStart : Bool) (hw : s.jobs.get? wj = some w)
    (hn : n ∈ w.nodes) (ht : n.unifiedJobTemplate = some t)
    (hcreate : createUnifiedJob templates n t sliceCt = some job) (htask : wj ∈ s.allTasks)
    (hid : s.jobs.get? id = none) :
    let job : UnifiedJob := { job with unifiedJobNode := some wj }
    let jobs := (s.jobs.set wj (w.setNodeJob node id)).set id job
    let new := startSpawned display jobs id job t resourcesSufficient signalStart
    Inv templates { s with jobs := jobs.set id new } := by
  intro job' jobs new
  obtain ⟨hlaunch, href, hnodes, hkind⟩ := createUnifiedJob_spec hcreate
  obtain ⟨status, explanation, refused, hstart, hfailed, hfree⟩ :=
    startSpawned_spec display jobs id (show job'.refused = false from href) t resourcesSufficient
      signalStart
  rw [show new = job'.leave status explanation refused from hstart]
  have hg (x : Status) (y : String) (z : Bool) : (job'.leave x y z).getWorkflowJob = some wj :=
    if_pos hlaunch
  have hne : wj ≠ id := fun he => by rw [he, hid] at hw; cases hw
  obtain ⟨w', hw', hwf, hwr⟩ := h.tasks wj htask
  obtain rfl := Option.some.inj (hw.symm.trans hw')
  have hget {jobs' : Dict ℕ UnifiedJob} {x : UnifiedJob} (hx : ∀ a, jobs'.get? a =
      if a = id then some x else if a = wj then some (w.setNodeJob node id) else s.jobs.get? a) :
      Extends s.jobs jobs' ∧ jobs'.get? id = some x := by
    refine ⟨fun a j hj => ?_, by rw [hx, if_pos rfl]⟩
    have ha : a ≠ id := fun he => by rw [he, hid] at hj; cases hj
    rw [hx, if_neg ha]
    split_ifs with hawj
    · subst hawj
      obtain rfl := Option.some.inj (hw.symm.trans hj)
      exact ⟨_, rfl, rfl, rfl, rfl, rfl⟩
    · exact ⟨j, hj, rfl, rfl, rfl, rfl⟩
  have hjobs (a : ℕ) : jobs.get? a = if a = id then some job' else
      if a = wj then some (w.setNodeJob node id) else s.jobs.get? a := by
    simp only [jobs, Dict.get?_set]
  have hfinal (a : ℕ) : (jobs.set id (job'.leave status explanation refused)).get? a =
      if a = id then some (job'.leave status explanation refused) else
        if a = wj then some (w.setNodeJob node id) else s.jobs.get? a := by
    simp only [jobs, Dict.get?_set]
    split_ifs <;> rfl
  obtain ⟨hext, hnew⟩ := hget hfinal
  obtain ⟨hext', hnew'⟩ := hget hjobs
  have hrow := h.rows wj w hw
  obtain ⟨l, hl, hnodup, hdistinct⟩ := hrow.ancestry hwf
  have hnodup' : (id :: wj :: l).Nodup := by
    refine List.nodup_cons.mpr ⟨fun hm => ?_, hnodup⟩
    obtain ⟨j, hj⟩ := hl.rows id hm
    rw [hid] at hj
    cases hj
  refine ⟨fun a j hj => ?_, tasks_extends h hext⟩
  change (jobs.set id (job'.leave status explanation refused)).get? a = some j at hj
  rw [hfinal] at hj
  split_ifs at hj with ha hawj
  · subst ha
    obtain rfl := Option.some.inj hj
    refine ⟨fun hwfj => ⟨wj :: l, ?_, hnodup', fun hr => ?_⟩, fun hwfj hnone _ n' hn' => ?_,
      fun n' hn' c hc => ?_, hfailed, fun t' ht' => ?_⟩
    · exact ancestry_spawned hrow hw hwf hwr hn ht hcreate hwfj hl hext hnew (hg _ _ _)
    · rw [List.filterMap_cons, hl.templates_extends hext, template, hnew, Option.bind_some]
      rcases hkind with ⟨t', rfl, -, hwt⟩ | ⟨hwt, -⟩
      · have hanc := ancestry_spawned hrow hw hwf hwr hn ht hcreate hwfj hl hext' hnew'
          (hg _ _ _)
        have hfree' := hfree hr t' rfl
        rw [getAncestorWorkflows_eq hanc hnodup', hl.templates_extends hext'] at hfree'
        simp only [UnifiedJob.leave, job', hwt]
        exact List.nodup_cons.mpr ⟨hfree', hdistinct hwr⟩
      · simp only [UnifiedJob.leave, job', hwt]
        exact hdistinct hwr
    · rcases hkind with ⟨t', -, -, hwt⟩ | ⟨-, hs⟩
      · cases hwt.symm.trans hnone
      · exact (hs hwfj).2.2 n' hn'
    · rw [hnodes n' hn'] at hc
      cases hc
    · rcases hkind with ⟨t'', -, hk, hwt⟩ | ⟨hwt, -⟩
      · exact Option.some.inj (hwt.symm.trans ht') ▸ hk
      · cases hwt.symm.trans ht'
  · subst hawj
    obtain rfl := Option.some.inj hj
    have hold := hrow.extends hext
    refine ⟨hold.ancestry, fun hwf hnone hspawned n' hn' => ?_, fun n' hn' c hc => ?_,
      hold.refused, hold.known⟩
    · rcases mem_setNodeJob hn' with hn' | ⟨n₀, hn₀, rfl⟩
      · exact hold.sliced hwf hnone hspawned n' hn'
      · exact hold.sliced hwf hnone hspawned n₀ hn₀
    · rcases mem_setNodeJob hn' with hn' | ⟨n₀, hn₀, rfl⟩
      · exact hold.children n' hn' c hc
      · obtain rfl := Option.some.inj hc
        exact ⟨_, hnew, hg _ _ _⟩
  · exact (h.rows a j hj).extends hext

theorem inv_step {display : ℕ → String} {s s' : State} {e : Event} (h : Inv templates s)
    (hs : exec templates display s e = some s') : Inv templates s' := by
  cases e with
  | launch id t =>
    simp only [exec] at hs
    split_ifs at hs with hid
    obtain ⟨nodes, hnodes, rfl⟩ := Option.map_eq_some_iff.mp hs
    refine h.set (fun j hj => ?_) (row_launched (by decide) fun t' ht' => ?_)
    · rw [hj] at hid
      cases hid
    · obtain rfl := Option.mem_some_iff.mp ht'
      by_contra hk
      rw [templates.get?_eq_none_of_not_mem hk] at hnodes
      cases hnodes
  | relaunch id nodes =>
    simp only [exec] at hs
    split_ifs at hs with hid
    obtain rfl := Option.some.inj hs
    refine h.set (fun j hj => ?_) (row_launched (by decide) (by simp))
    rw [hj] at hid
    cases hid
  | setStatus id status =>
    obtain ⟨j, hj, hs⟩ := Option.bind_eq_some_iff.mp hs
    split_ifs at hs with hterm
    obtain rfl := Option.some.inj hs
    have hkept : ∀ j', s.jobs.get? id = some j' → Kept j' { j with status := status } := by
      intro j' hj'
      obtain rfl := Option.some.inj (hj.symm.trans hj')
      exact ⟨rfl, rfl, rfl, rfl⟩
    have hrow := (h.rows id j hj).setStatus (by simpa using hterm) status
    exact h.set hkept (hrow.extends (extends_set hkept))
  | getTasks =>
    obtain rfl := Option.some.inj hs
    refine ⟨h.rows, fun id hid => ?_⟩
    obtain ⟨j, hj, hrun⟩ := (Option.any_eq_true _ _).mp (List.mem_filter.mp hid).2
    simp only [Bool.and_eq_true, decide_eq_true_eq] at hrun
    refine ⟨j, hj, hrun.1, ?_⟩
    -- a refused job has failed and does not run
    by_contra hr
    have hf := (h.rows id j hj).refused (by simpa using hr)
    rw [hrun.2] at hf
    cases hf
  | spawn wj node id sliceCt resourcesSufficient signalStart =>
    obtain ⟨w, hw, hs⟩ := Option.bind_eq_some_iff.mp hs
    obtain ⟨n, hn, hs⟩ := Option.bind_eq_some_iff.mp hs
    obtain ⟨t, ht, hs⟩ := Option.bind_eq_some_iff.mp hs
    obtain ⟨job, hjob, hs⟩ := Option.bind_eq_some_iff.mp hs
    split_ifs at hs with hc
    obtain rfl := Option.some.inj hs
    exact h.spawn display resourcesSufficient signalStart hw (List.mem_of_getElem? hn) ht hjob hc.1
      (Option.isNone_iff_eq_none.mp hc.2.2)

theorem inv {display : ℕ → String} {s : State} (h : (spawning templates display).Reachable s) :
    Inv templates s := by
  apply h.invariant
  · rintro s rfl
    exact ⟨by simp, by simp⟩
  · intro s e s' _ hi hs
    exact inv_step hi hs

end Steps

/-! ### Chains -/

/-- A node of the first job has the second as its job. -/
def Spawned (jobs : Dict ℕ UnifiedJob) (p c : ℕ) : Prop :=
  ∃ j n, jobs.get? p = some j ∧ n ∈ j.nodes ∧ n.job = some c

/-- Started workflow jobs, the newest first, each spawned by a node of the next. -/
structure Chain (jobs : Dict ℕ UnifiedJob) (l : List ℕ) : Prop where
  started : ∀ id ∈ l, ∃ j, jobs.get? id = some j ∧ j.isWorkflowJob = true ∧ j.refused = false
  spawned : l.IsChain fun c p => Spawned jobs p c

section Main
variable {templates : Dict ℕ (List (Option UnifiedJobTemplate))} {display : ℕ → String} {s : State}

/-- A chain goes up along the ancestors. -/
theorem Inv.chain_ancestors (h : Inv templates s) {rest : List ℕ} : ∀ {id : ℕ} {l : List ℕ},
    Ancestry s.jobs id l → (id :: rest).IsChain (fun c p => Spawned s.jobs p c) → rest <+: l := by
  induction rest with
  | nil => exact fun _ _ => List.nil_prefix
  | cons p rest ih =>
    intro id l hl hc
    obtain ⟨⟨jp, n, hjp, hn, hjob⟩, hc⟩ := List.isChain_cons_cons.mp hc
    obtain ⟨j, hj, hg⟩ := (h.rows p jp hjp).children n hn id hjob
    cases hl with
    | root hj' hr =>
      obtain rfl := Option.some.inj (hj.symm.trans hj')
      rw [hg] at hr
      cases hr
    | spawned hj' hp _ _ _ hl =>
      obtain rfl := Option.some.inj (hj.symm.trans hj')
      obtain rfl := Option.some.inj (hg.symm.trans hp)
      exact List.cons_prefix_cons.mpr ⟨rfl, ih hl hc⟩

theorem Ancestry.root_of_template {jobs : Dict ℕ UnifiedJob} {id : ℕ} {l : List ℕ}
    (h : Ancestry jobs id l) : ∀ a ∈ l, template jobs a = none →
      (jobs.get? a).bind UnifiedJob.getWorkflowJob = none := by
  induction h with
  | root => simp
  | spawned hj hp hjp _ hroot _ ih =>
    intro a ha hnone
    rcases List.mem_cons.mp ha with rfl | ha
    · rw [template, hjp] at hnone
      rw [hjp]
      exact hroot hnone
    · exact ih a ha hnone

/-- Along every chain of started workflow jobs the templates are pairwise distinct, so no
more are nested than there are; above the newest only the launched one may be without a
template. Every refused job has failed. -/
theorem no_recursion (h : (spawning templates display).Reachable s) :
    (∀ l, Chain s.jobs l → (l.filterMap (template s.jobs)).Nodup ∧
      (l.filterMap (template s.jobs)).length ≤ templates.keys.length ∧
      ∀ a ∈ l.tail, template s.jobs a = none →
        (s.jobs.get? a).bind UnifiedJob.getWorkflowJob = none) ∧
    ∀ id j, s.jobs.get? id = some j → j.refused = true → j.status = .failed := by
  have hinv := inv h
  refine ⟨fun l hc => ?_, fun id j hj => (hinv.rows id j hj).refused⟩
  cases l with
  | nil => simp
  | cons id rest =>
    obtain ⟨j, hj, hwf, hr⟩ := hc.started id List.mem_cons_self
    obtain ⟨l, hl, -, hdistinct⟩ := (hinv.rows id j hj).ancestry hwf
    have hpre := hinv.chain_ancestors hl hc.spawned
    have hnodup : ((id :: rest).filterMap (template s.jobs)).Nodup :=
      (hdistinct hr).sublist ((hpre.sublist.cons_cons id).filterMap _)
    refine ⟨hnodup, hnodup.length_le_of_subset fun t ht => ?_, fun a ha =>
      hl.root_of_template a (hpre.subset ha)⟩
    obtain ⟨a, -, ha⟩ := List.mem_filterMap.mp ht
    obtain ⟨ja, hja, hta⟩ := Option.bind_eq_some_iff.mp ha
    exact (hinv.rows a ja hja).known t hta

end Main

/-! ### Two templates that refer to each other -/

def twoTemplates : Dict ℕ (List (Option UnifiedJobTemplate)) :=
  (Dict.empty.set 1 [some (.workflowJobTemplate 2)]).set 2 [some (.workflowJobTemplate 1)]

/-- Job 10 of the one template spawns job 11 of the other, which spawns a job of the first. -/
def backAndForth : List Event :=
  [.launch 10 1, .setStatus 10 .running, .getTasks, .spawn 10 0 11 1 true true,
    .setStatus 11 .running, .getTasks, .spawn 11 0 12 1 true true]

theorem no_recursion_twoTemplates : ∃ s, (spawning twoTemplates toString).Reachable s ∧
    ([11, 10].filterMap (template s.jobs)).Nodup ∧
    (s.jobs.get? 12).map UnifiedJob.status = some .failed := by
  have hrun : System.runAll (exec twoTemplates toString) ⟨.empty, []⟩ backAndForth = some _ := rfl
  have hr : (spawning twoTemplates toString).Reachable _ :=
    System.Reachable.runAll (fun _ _ _ _ h => h) (.init rfl) hrun
  refine ⟨_, hr, ((no_recursion hr).1 [11, 10] ⟨?_, ?_⟩).1, rfl⟩
  · intro id hid
    rcases List.mem_cons.mp hid with rfl | hid
    · exact ⟨_, rfl, rfl, rfl⟩
    · obtain rfl := List.mem_singleton.mp hid
      exact ⟨_, rfl, rfl, rfl⟩
  · refine List.isChain_cons_cons.mpr ⟨⟨_, _, rfl, List.mem_cons_self, rfl⟩, ?_⟩
    exact .singleton 10

end Forail.Scheduler.NestedWorkflows
