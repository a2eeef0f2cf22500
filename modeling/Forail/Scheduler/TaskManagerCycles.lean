import Forail.Base.Runs
import Forail.Scheduler.TaskManager
import Mathlib.Data.List.Perm.Basic

/-! Runs of the task manager: cycles that fetch the tasks, add the active ones to a fresh
graph and go through the pending ones, while other processes create jobs, let them proceed
and end, and add their dependencies. The invariant of a cycle says what its copies of the
rows still know about the database, and that every active task either waits to be added
to the graph or has all its keys taken there. -/

namespace Forail.Scheduler

/-- `get_tasks` leaves out syncs, approvals and jobs whose dependencies were not generated. -/
def UnifiedJob.visible (j : UnifiedJob) : Bool :=
  j.launchType ≠ .sync && j.kind ≠ .workflowApproval && j.dependenciesProcessed

/-- The task is one of the running tasks of `get_tasks`. -/
def UnifiedJob.isActive (j : UnifiedJob) : Bool := j.visible && j.status.started

namespace Cycles

structure Cycle where
  tm : TaskManager
  runningTasks : List Task
  pendingTasks : List Task

/-- The rows of the jobs, and the cycle that holds the lock of the task manager. -/
structure State where
  jobs : Dict ℕ UnifiedJob
  cycle : Option Cycle

inductive Event
  | create (job : UnifiedJob)
  | setStatus (id : ℕ) (status : Status)
  | addDependencies (id : ℕ) (dependencies : List ℕ)
  | dependenciesProcessed (id : ℕ)
  | beginCycle (models : TaskManagerModels) (startTaskLimit : ℕ) (running pending : List ℕ)
  | processRunning
  | processPending (c : Circumstances)
  | endCycle

section Definitions
variable (jobs : Dict ℕ UnifiedJob)

/-- The ids of the tasks that `get_tasks` returns in some of the statuses. -/
def getTasks (statuses : Status → Bool) : List ℕ :=
  jobs.keys.filter fun id => (jobs.get? id).any fun j => j.visible && statuses j.status

/-- A row with the rows that it depends on. -/
def fetch (id : ℕ) : Option Task :=
  (jobs.get? id).map fun job => ⟨job, job.dependentJobs.filterMap jobs.get?⟩

/-- The `bulk_update` of the explanations. -/
def saveExplanations (tasks : List UnifiedJob) : Dict ℕ UnifiedJob :=
  tasks.foldl (fun jobs t => jobs.modify t.id fun j => { j with jobExplanation := t.jobExplanation })
    jobs

def save : Option UnifiedJob → Dict ℕ UnifiedJob
  | some j => jobs.set j.id j
  | none => jobs

end Definitions

/-- One event; it has no result where it is not possible. Only the task manager makes a
visible job active, a job that has ended keeps its status, and dependencies are added
until they are marked as generated. The fetched tasks come in any order. -/
def exec (s : State) : Event → Option State
  | .create job =>
    if (s.jobs.get? job.id).isNone ∧ job.dependentJobs = [] ∧ job.isActive = false then
      some { s with jobs := s.jobs.set job.id job }
    else none
  | .setStatus id status => do
    let job ← s.jobs.get? id
    let job' : UnifiedJob := { job with status := status }
    if job.status.terminal = false ∧ (job'.isActive → job.isActive) then
      some { s with jobs := s.jobs.set id job' }
    else none
  | .addDependencies id dependencies => do
    let job ← s.jobs.get? id
    if job.dependenciesProcessed = false ∧ ∀ d ∈ dependencies, (s.jobs.get? d).isSome then
      let job' : UnifiedJob := { job with dependentJobs := job.dependentJobs ++ dependencies }
      some { s with jobs := s.jobs.set id job' }
    else none
  | .dependenciesProcessed id => do
    let job ← s.jobs.get? id
    if job.status.started = false then
      some { s with jobs := s.jobs.set id { job with dependenciesProcessed := true } }
    else none
  | .beginCycle models startTaskLimit running pending =>
    if s.cycle.isNone ∧ running.Perm (getTasks s.jobs Status.started) ∧
        pending.Perm (getTasks s.jobs fun st => st = .pending) then
      some ⟨s.jobs, some ⟨⟨.new, models, startTaskLimit, [], []⟩,
        running.filterMap (fetch s.jobs), pending.filterMap (fetch s.jobs)⟩⟩
    else none
  | .processRunning =>
    match s.cycle with
    | some ⟨tm, t :: running, pending⟩ =>
      some { s with cycle := some ⟨tm.processRunningTask t, running, pending⟩ }
    | _ => none
  | .processPending c =>
    match s.cycle with
    | some ⟨tm, [], t :: pending⟩ =>
      if tm.startTaskLimit = 0 ∨ c.timedOut then some { s with cycle := some ⟨tm, [], []⟩ }
      else
        let (tm', saved) := tm.processPendingTask t c
        some ⟨save s.jobs saved, some ⟨tm', [], pending⟩⟩
    | _ => none
  | .endCycle =>
    match s.cycle with
    | some ⟨tm, [], []⟩ => some ⟨saveExplanations s.jobs tm.tasksToUpdateJobExplanation, none⟩
    | _ => none

def cycles : System State Event where
  init s := s = ⟨.empty, none⟩
  step s e s' := exec s e = some s'

/-- The event starts the task. -/
def Starts (s : State) (e : Event) (t : Task) : Prop :=
  ∃ c tm pending, e = .processPending c ∧ s.cycle = some ⟨tm, [], t :: pending⟩ ∧
    tm.startTaskLimit ≠ 0 ∧ c.timedOut = false ∧ ∃ st, TaskManager.decision tm t = .start st

/-! ### What the other processes can do to the rows -/

/-- Who a job is stays; a job keeps its dependencies once they are generated, and its
status once it has ended. -/
structure Kept (j j' : UnifiedJob) : Prop where
  id : j'.id = j.id
  kind : j'.kind = j.kind
  dependencies : j.dependenciesProcessed = true →
    j'.dependenciesProcessed = true ∧ j'.dependentJobs = j.dependentJobs
  terminal : j.status.terminal = true → j'.status = j.status

theorem Kept.refl (j : UnifiedJob) : Kept j j := ⟨rfl, rfl, fun h => ⟨h, rfl⟩, fun _ => rfl⟩

/-- Rows are kept, and no job becomes active. -/
structure Evolves (jobs jobs' : Dict ℕ UnifiedJob) : Prop where
  kept : ∀ id j, jobs.get? id = some j → ∃ j', jobs'.get? id = some j' ∧ Kept j j'
  active : ∀ id j', jobs'.get? id = some j' → j'.isActive = true →
    ∃ j, jobs.get? id = some j ∧ j.isActive = true ∧ j'.kind = j.kind

theorem Evolves.refl (jobs : Dict ℕ UnifiedJob) : Evolves jobs jobs :=
  ⟨fun _ j hj => ⟨j, hj, .refl j⟩, fun _ j hj ha => ⟨j, hj, ha, rfl⟩⟩

/-- A row is replaced by one that keeps it and is active only if it was. -/
theorem Evolves.set {jobs : Dict ℕ UnifiedJob} {id : ℕ} {j j' : UnifiedJob}
    (hj : jobs.get? id = some j) (hk : Kept j j') (ha : j'.isActive = true → j.isActive = true) :
    Evolves jobs (jobs.set id j') where
  kept i k hi := by
    rw [Dict.get?_set]
    split_ifs with he
    · subst he
      obtain rfl := Option.some.inj (hj.symm.trans hi)
      exact ⟨j', rfl, hk⟩
    · exact ⟨k, hi, .refl k⟩
  active i k hi hk' := by
    rcases Dict.of_get?_set hi with ⟨rfl, rfl⟩ | ⟨-, hi⟩
    · exact ⟨j, hj, ha hk', hk.kind⟩
    · exact ⟨k, hi, hk', rfl⟩

theorem Evolves.create {jobs : Dict ℕ UnifiedJob} {job : UnifiedJob}
    (hn : jobs.get? job.id = none) (ha : job.isActive = false) :
    Evolves jobs (jobs.set job.id job) where
  kept i k hi := by
    have hne : i ≠ job.id := fun he => by rw [he, hn] at hi; cases hi
    exact ⟨k, by rw [Dict.get?_set, if_neg hne]; exact hi, .refl k⟩
  active i k hi hk := by
    rcases Dict.of_get?_set hi with ⟨-, rfl⟩ | ⟨-, hi⟩
    · rw [ha] at hk
      cases hk
    · exact ⟨k, hi, hk, rfl⟩

theorem Evolves.trans {jobs₁ jobs₂ jobs₃ : Dict ℕ UnifiedJob} (h : Evolves jobs₁ jobs₂)
    (h' : Evolves jobs₂ jobs₃) : Evolves jobs₁ jobs₃ where
  kept i j hj := by
    obtain ⟨j', hj', hk⟩ := h.kept i j hj
    obtain ⟨j'', hj'', hk'⟩ := h'.kept i j' hj'
    refine ⟨j'', hj'', hk'.id.trans hk.id, hk'.kind.trans hk.kind, fun hp => ?_, fun ht => ?_⟩
    · obtain ⟨hp', hd⟩ := hk.dependencies hp
      obtain ⟨hp'', hd'⟩ := hk'.dependencies hp'
      exact ⟨hp'', hd'.trans hd⟩
    · have hs := hk.terminal ht
      exact (hk'.terminal (hs ▸ ht)).trans hs
  active i j hj ha := by
    obtain ⟨j', hj', ha', hk⟩ := h'.active i j hj ha
    obtain ⟨j'', hj'', ha'', hk'⟩ := h.active i j' hj' ha'
    exact ⟨j'', hj'', ha'', hk.trans hk'⟩

theorem Evolves.modify (jobs : Dict ℕ UnifiedJob) (id : ℕ) {f : UnifiedJob → UnifiedJob}
    (hk : ∀ j, Kept j (f j)) (ha : ∀ j, (f j).isActive = true → j.isActive = true) :
    Evolves jobs (jobs.modify id f) := by
  unfold Dict.modify
  cases hj : jobs.get? id with
  | none => exact .refl jobs
  | some j => exact .set hj (hk j) (ha j)

theorem Evolves.saveExplanations (jobs : Dict ℕ UnifiedJob) (tasks : List UnifiedJob) :
    Evolves jobs (saveExplanations jobs tasks) := by
  induction tasks generalizing jobs with
  | nil => exact .refl jobs
  | cons t tasks ih =>
    have he : Evolves jobs (jobs.modify t.id fun j => { j with jobExplanation := t.jobExplanation }) :=
      .modify jobs t.id (fun _ => ⟨rfl, rfl, fun h => ⟨h, rfl⟩, fun _ => rfl⟩) fun _ h => h
    exact he.trans (ih _)

/-- Every row stands under its id, and what it depends on exists. -/
structure WellFormed (jobs : Dict ℕ UnifiedJob) : Prop where
  id : ∀ id j, jobs.get? id = some j → j.id = id
  dependencies : ∀ id j, jobs.get? id = some j → ∀ d ∈ j.dependentJobs, (jobs.get? d).isSome = true

theorem WellFormed.set {jobs : Dict ℕ UnifiedJob} {id : ℕ} {j : UnifiedJob}
    (h : WellFormed jobs) (hid : j.id = id)
    (hd : ∀ d ∈ j.dependentJobs, (jobs.get? d).isSome = true) : WellFormed (jobs.set id j) where
  id i k hk := by
    rcases Dict.of_get?_set hk with ⟨rfl, rfl⟩ | ⟨-, hk⟩
    · exact hid
    · exact h.id i k hk
  dependencies i k hk d hd' := by
    rw [Dict.get?_set]
    split_ifs with he
    · rfl
    · rcases Dict.of_get?_set hk with ⟨-, rfl⟩ | ⟨-, hk⟩
      · exact hd d hd'
      · exact h.dependencies i k hk d hd'

theorem WellFormed.saveExplanations {jobs : Dict ℕ UnifiedJob} (h : WellFormed jobs)
    (tasks : List UnifiedJob) : WellFormed (saveExplanations jobs tasks) := by
  induction tasks generalizing jobs with
  | nil => exact h
  | cons t tasks ih =>
    have hm : WellFormed
        (jobs.modify t.id fun j => { j with jobExplanation := t.jobExplanation }) := by
      unfold Dict.modify
      cases hj : jobs.get? t.id with
      | none => exact h
      | some j => exact h.set (h.id _ j hj) (h.dependencies _ j hj)
    exact ih hm

/-! ### The invariant of a cycle -/

/-- What the cycle knows about a pending task that it has fetched. -/
structure Fetched (jobs : Dict ℕ UnifiedJob) (pending : List Task) (t : Task) : Prop where
  row : ∃ j, jobs.get? t.id = some j ∧ j.kind = t.kind ∧ j.dependenciesProcessed = true ∧
    j.dependentJobs = t.dependentJobs
  visible : t.visible = true
  prefetched : ∀ id ∈ t.dependentJobs, ∃ d ∈ t.prefetched, d.id = id
  ended : ∀ d ∈ t.prefetched, d.status.terminal = true →
    (∃ j, jobs.get? d.id = some j ∧ j.status = d.status) ∧ ∀ t' ∈ pending, t'.id ≠ d.id

structure Cycle.Inv (jobs : Dict ℕ UnifiedJob) (c : Cycle) : Prop where
  active : ∀ id j, jobs.get? id = some j → j.isActive = true →
    (∃ t ∈ c.runningTasks, t.id = id) ∨
      ∀ k ∈ j.kind.marks, c.tm.dependencyGraph.taken k = true
  running : ∀ t ∈ c.runningTasks, ∃ j, jobs.get? t.id = some j ∧ j.kind = t.kind
  pending : ∀ t ∈ c.pendingTasks, Fetched jobs c.pendingTasks t

structure Inv (s : State) : Prop where
  wellFormed : WellFormed s.jobs
  cycle : ∀ c ∈ s.cycle, c.Inv s.jobs

theorem mem_getTasks {jobs : Dict ℕ UnifiedJob} {statuses : Status → Bool} {id : ℕ} :
    id ∈ getTasks jobs statuses ↔
      ∃ j, jobs.get? id = some j ∧ j.visible = true ∧ statuses j.status = true := by
  rw [getTasks, List.mem_filter, Option.any_eq_true]
  simp only [Bool.and_eq_true]
  refine and_iff_right_of_imp fun ⟨j, hj, _⟩ => ?_
  by_contra hk
  rw [jobs.get?_eq_none_of_not_mem hk] at hj
  cases hj

/-- What other processes do leaves the invariant of a cycle intact. -/
theorem Cycle.Inv.evolves {jobs jobs' : Dict ℕ UnifiedJob} {c : Cycle} (h : c.Inv jobs)
    (he : Evolves jobs jobs') : c.Inv jobs' where
  active id j hj ha := by
    obtain ⟨j₀, hj₀, ha₀, hk⟩ := he.active id j hj ha
    rw [hk]
    exact h.active id j₀ hj₀ ha₀
  running t ht := by
    obtain ⟨j, hj, hk⟩ := h.running t ht
    obtain ⟨j', hj', hkept⟩ := he.kept _ j hj
    exact ⟨j', hj', hkept.kind.trans hk⟩
  pending t ht := by
    have hf := h.pending t ht
    obtain ⟨j, hj, hk, hp, hd⟩ := hf.row
    obtain ⟨j', hj', hkept⟩ := he.kept _ j hj
    obtain ⟨hp', hd'⟩ := hkept.dependencies hp
    refine ⟨⟨j', hj', hkept.kind.trans hk, hp', hd'.trans hd⟩, hf.visible, hf.prefetched, ?_⟩
    intro d hd ht
    obtain ⟨⟨k, hk, hst⟩, hne⟩ := hf.ended d hd ht
    obtain ⟨k', hk', hkept'⟩ := he.kept _ k hk
    exact ⟨⟨k', hk', (hkept'.terminal (hst ▸ ht)).trans hst⟩, hne⟩

theorem Inv.evolves {s : State} (h : Inv s) {jobs : Dict ℕ UnifiedJob} (he : Evolves s.jobs jobs)
    (hw : WellFormed jobs) : Evolves s.jobs jobs ∧ Inv ⟨jobs, s.cycle⟩ :=
  ⟨he, hw, fun c hc => (h.cycle c hc).evolves he⟩

theorem fetch_spec {jobs : Dict ℕ UnifiedJob} {ids : List ℕ} {t : Task}
    (hw : WellFormed jobs) (ht : t ∈ ids.filterMap (fetch jobs)) :
    t.id ∈ ids ∧ jobs.get? t.id = some t.toUnifiedJob ∧
      t.prefetched = t.dependentJobs.filterMap jobs.get? := by
  obtain ⟨id, hid, hf⟩ := List.mem_filterMap.mp ht
  obtain ⟨j, hj, rfl⟩ := Option.map_eq_some_iff.mp hf
  have he := hw.id id j hj
  exact ⟨he ▸ hid, he ▸ hj, rfl⟩

/-- A new cycle has fetched all active and all pending tasks. -/
theorem Cycle.Inv.begin {jobs : Dict ℕ UnifiedJob} (hw : WellFormed jobs)
    (models : TaskManagerModels) (startTaskLimit : ℕ) {running pending : List ℕ}
    (hr : running.Perm (getTasks jobs Status.started))
    (hp : pending.Perm (getTasks jobs fun st => st = .pending)) :
    Cycle.Inv jobs ⟨⟨.new, models, startTaskLimit, [], []⟩,
      running.filterMap (fetch jobs), pending.filterMap (fetch jobs)⟩ where
  active id j hj ha := by
    obtain ⟨hv, hs⟩ := Bool.and_eq_true_iff.mp ha
    have hid : id ∈ running := hr.mem_iff.mpr (mem_getTasks.mpr ⟨j, hj, hv, hs⟩)
    have hf : fetch jobs id = some ⟨j, j.dependentJobs.filterMap jobs.get?⟩ := by simp [fetch, hj]
    exact .inl ⟨_, List.mem_filterMap.mpr ⟨id, hid, hf⟩, hw.id id j hj⟩
  running t ht := ⟨_, (fetch_spec hw ht).2.1, rfl⟩
  pending t ht := by
    obtain ⟨hid, hj, hpre⟩ := fetch_spec hw ht
    obtain ⟨j, hj', hv, -⟩ := mem_getTasks.mp (hp.mem_iff.mp hid)
    obtain rfl := Option.some.inj (hj'.symm.trans hj)
    have hproc : t.dependenciesProcessed = true := (Bool.and_eq_true_iff.mp hv).2
    refine ⟨⟨_, hj, rfl, hproc, rfl⟩, hv, fun id hid => ?_, fun d hd hterm => ?_⟩
    · obtain ⟨d, hd⟩ := Option.isSome_iff_exists.mp (hw.dependencies _ _ hj id hid)
      exact ⟨d, hpre ▸ List.mem_filterMap.mpr ⟨id, hid, hd⟩, hw.id id d hd⟩
    · obtain ⟨id, hid, hd⟩ := List.mem_filterMap.mp (hpre ▸ hd)
      have he := hw.id id d hd
      refine ⟨⟨d, he ▸ hd, rfl⟩, fun t' ht' hne => ?_⟩
      -- a pending task has not ended
      obtain ⟨hid', hj', -⟩ := fetch_spec hw ht'
      obtain ⟨j, hj'', -, hst⟩ := mem_getTasks.mp (hp.mem_iff.mp hid')
      obtain rfl := Option.some.inj ((hne ▸ hj'').symm.trans (he ▸ hd))
      simp only [decide_eq_true_eq] at hst
      rw [hst] at hterm
      cases hterm

theorem Cycle.Inv.processRunning {jobs : Dict ℕ UnifiedJob} {tm : TaskManager} {t : Task}
    {running pending : List Task} (h : Cycle.Inv jobs ⟨tm, t :: running, pending⟩) :
    Cycle.Inv jobs ⟨tm.processRunningTask t, running, pending⟩ where
  active id j hj ha := by
    rcases h.active id j hj ha with ⟨t', ht', rfl⟩ | hm
    · rcases List.mem_cons.mp ht' with rfl | ht'
      · obtain ⟨j', hj', hk⟩ := h.running t' List.mem_cons_self
        obtain rfl := Option.some.inj (hj'.symm.trans hj)
        exact .inr fun k hmem => (DependencyGraph.taken_addJob _ _ k).mpr (.inr (hk ▸ hmem))
      · exact .inl ⟨t', ht', rfl⟩
    · exact .inr fun k hmem => (DependencyGraph.taken_addJob _ _ k).mpr (.inl (hm k hmem))
  running t' ht' := h.running t' (List.mem_cons_of_mem _ ht')
  pending := h.pending

/-- The job is the task with other nodes, status or explanation. -/
structure Same (t j : UnifiedJob) : Prop where
  id : j.id = t.id
  kind : j.kind = t.kind
  dependenciesProcessed : j.dependenciesProcessed = t.dependenciesProcessed
  dependentJobs : j.dependentJobs = t.dependentJobs

theorem same_of_startCases {m : TaskManagerModels} {job : UnifiedJob} {st : Start}
    (h : TaskManager.StartCases m job st) : Same job st.job := by
  cases h <;> exact ⟨rfl, rfl, rfl, rfl⟩

theorem same_saved (st : Start) (preStart : Option String) : Same st.job (st.saved preStart) := by
  cases preStart <;> exact ⟨rfl, rfl, rfl, rfl⟩

theorem Same.trans {j₁ j₂ j₃ : UnifiedJob} (h : Same j₁ j₂) (h' : Same j₂ j₃) : Same j₁ j₃ :=
  ⟨h'.id.trans h.id, h'.kind.trans h.kind, h'.dependenciesProcessed.trans h.dependenciesProcessed,
    h'.dependentJobs.trans h.dependentJobs⟩

/-- What a turn does: it starts the task, which takes its keys, or it leaves the graph as
it is and saves at most a failed task. -/
theorem processPendingTask_cases (tm : TaskManager) (t : Task) (c : Circumstances) :
    (∃ st, TaskManager.decision tm t = .start st ∧ Same t.toUnifiedJob (st.saved c.preStart) ∧
      (tm.processPendingTask t c).2 = some (st.saved c.preStart) ∧
      ∀ k, (tm.processPendingTask t c).1.dependencyGraph.taken k = true ↔
        tm.dependencyGraph.taken k = true ∨ k ∈ t.kind.marks) ∨
    (∀ st, TaskManager.decision tm t ≠ .start st) ∧
      (tm.processPendingTask t c).1.dependencyGraph = tm.dependencyGraph ∧
      ∀ j ∈ (tm.processPendingTask t c).2, Same t.toUnifiedJob j ∧ j.status = .failed := by
  have hexplain (explanation : String) :
      (TaskManager.explain tm t c.now explanation).dependencyGraph = tm.dependencyGraph := by
    unfold TaskManager.explain
    split_ifs <;> rfl
  unfold TaskManager.processPendingTask
  cases hd : TaskManager.decision tm t with
  | start st =>
    have hsame := same_of_startCases (TaskManager.decision_start hd).2.2
    refine .inl ⟨st, rfl, hsame.trans (same_saved st c.preStart), rfl, fun k => ?_⟩
    rw [← hsame.kind]
    exact DependencyGraph.taken_addJob _ _ k
  | dependencyFailed dep =>
    refine .inr ⟨fun _ => Decision.noConfusion, rfl, fun j hj => ?_⟩
    obtain rfl := Option.mem_some_iff.mp hj
    exact ⟨⟨rfl, rfl, rfl, rfl⟩, rfl⟩
  | blocked blockedBy => exact .inr ⟨fun _ => Decision.noConfusion, hexplain _, by simp⟩
  | needsCapacity => exact .inr ⟨fun _ => Decision.noConfusion, hexplain _, by simp⟩
  | limited => exact .inr ⟨fun _ => Decision.noConfusion, rfl, by simp⟩

/-- A turn that saves nothing. -/
theorem Cycle.Inv.skip {jobs : Dict ℕ UnifiedJob} {tm tm' : TaskManager} {t : Task}
    {pending : List Task} (h : Cycle.Inv jobs ⟨tm, [], t :: pending⟩)
    (hg : ∀ k, tm.dependencyGraph.taken k = true → tm'.dependencyGraph.taken k = true) :
    Cycle.Inv jobs ⟨tm', [], pending⟩ where
  active id j hj ha := by
    rcases h.active id j hj ha with ⟨t', ht', -⟩ | hm
    · cases ht'
    · exact .inr fun k hk => hg k (hm k hk)
  running t' ht' := by cases ht'
  pending t' ht' := by
    have hf := h.pending t' (List.mem_cons_of_mem _ ht')
    exact ⟨hf.row, hf.visible, hf.prefetched, fun d hd hterm =>
      ⟨(hf.ended d hd hterm).1, fun t'' h'' =>
        (hf.ended d hd hterm).2 t'' (List.mem_cons_of_mem _ h'')⟩⟩

/-- A turn that saves the task: its keys are taken if it is active now. -/
theorem Cycle.Inv.save {jobs : Dict ℕ UnifiedJob} {tm tm' : TaskManager} {t : Task}
    {pending : List Task} {j : UnifiedJob} (h : Cycle.Inv jobs ⟨tm, [], t :: pending⟩)
    (hg : ∀ k, tm.dependencyGraph.taken k = true → tm'.dependencyGraph.taken k = true)
    (hs : Same t.toUnifiedJob j)
    (ha : j.isActive = true → ∀ k ∈ j.kind.marks, tm'.dependencyGraph.taken k = true) :
    Cycle.Inv (jobs.set j.id j) ⟨tm', [], pending⟩ where
  active id k hk hact := by
    rcases Dict.of_get?_set hk with ⟨-, rfl⟩ | ⟨-, hk⟩
    · exact .inr (ha hact)
    · exact (h.skip hg).active id k hk hact
  running t' ht' := by cases ht'
  pending t' ht' := by
    have hf := (h.skip hg).pending t' ht'
    obtain ⟨r, hr, hk, hp, hd⟩ := hf.row
    refine ⟨?_, hf.visible, hf.prefetched, fun d hd hterm => ⟨?_, (hf.ended d hd hterm).2⟩⟩
    · rw [Dict.get?_set]
      split_ifs with he
      · obtain ⟨r', hr', hk', hp', hd'⟩ := (h.pending t List.mem_cons_self).row
        obtain rfl := Option.some.inj ((he.trans hs.id ▸ hr).symm.trans hr')
        have hvis := (h.pending t List.mem_cons_self).visible
        have hproc : t.dependenciesProcessed = true := (Bool.and_eq_true_iff.mp hvis).2
        exact ⟨j, rfl, (hs.kind.trans hk'.symm).trans hk, hs.dependenciesProcessed.trans hproc,
          (hs.dependentJobs.trans hd'.symm).trans hd⟩
      · exact ⟨r, hr, hk, hp, hd⟩
    · have hf' := h.pending t' (List.mem_cons_of_mem _ ht')
      rw [Dict.get?_set, if_neg fun he => (hf'.ended d hd hterm).2 t List.mem_cons_self
        (hs.id.symm.trans he.symm)]
      exact (hf'.ended d hd hterm).1

theorem Inv.turn {s : State} {tm : TaskManager} {t : Task} {pending : List Task}
    {c : Circumstances} (h : Inv s) (hcyc : s.cycle = some ⟨tm, [], t :: pending⟩) :
    Inv ⟨save s.jobs (tm.processPendingTask t c).2,
      some ⟨(tm.processPendingTask t c).1, [], pending⟩⟩ := by
  have hc := h.cycle _ hcyc
  obtain ⟨r, hr, -, -, hd⟩ := (hc.pending t List.mem_cons_self).row
  have hw {j : UnifiedJob} (hs : Same t.toUnifiedJob j) : WellFormed (s.jobs.set j.id j) :=
    h.wellFormed.set rfl fun d hd' => h.wellFormed.dependencies _ r hr d
      (hd ▸ hs.dependentJobs ▸ hd')
  rcases processPendingTask_cases tm t c with ⟨st, -, hs, he, hg⟩ | ⟨-, hg, hs⟩
  · rw [he]
    refine ⟨hw hs, fun c' hc' => ?_⟩
    obtain rfl := Option.mem_some_iff.mp hc'
    exact hc.save (fun k hk => (hg k).mpr (.inl hk)) hs
      fun _ k hk => (hg k).mpr (.inr (hs.kind ▸ hk))
  · cases hj : (tm.processPendingTask t c).2 with
    | none =>
      refine ⟨h.wellFormed, fun c' hc' => ?_⟩
      obtain rfl := Option.mem_some_iff.mp hc'
      exact hc.skip fun k hk => hg ▸ hk
    | some j =>
      obtain ⟨hs, hf⟩ := hs j hj
      refine ⟨hw hs, fun c' hc' => ?_⟩
      obtain rfl := Option.mem_some_iff.mp hc'
      refine hc.save (fun k hk => hg ▸ hk) hs fun ha => ?_
      rw [UnifiedJob.isActive, hf, Status.started, Bool.and_false] at ha
      cases ha

/-- Every step keeps the invariant; a turn apart, it makes no job active. -/
theorem exec_cases {s s' : State} {e : Event} (h : Inv s) (hs : exec s e = some s') :
    (Evolves s.jobs s'.jobs ∧ Inv s') ∨
      ∃ c tm t pending, e = .processPending c ∧ s.cycle = some ⟨tm, [], t :: pending⟩ ∧
        tm.startTaskLimit ≠ 0 ∧ c.timedOut = false ∧
        s' = ⟨save s.jobs (tm.processPendingTask t c).2,
          some ⟨(tm.processPendingTask t c).1, [], pending⟩⟩ := by
  cases e with
  | create job =>
    simp only [exec] at hs
    split_ifs at hs with hc
    obtain rfl := Option.some.inj hs
    obtain ⟨hn, hd, ha⟩ := hc
    exact .inl (h.evolves (.create (Option.isNone_iff_eq_none.mp hn) ha)
      (h.wellFormed.set rfl (by simp [hd])))
  | setStatus id status =>
    obtain ⟨job, hj, hs⟩ := Option.bind_eq_some_iff.mp hs
    dsimp only at hs
    split_ifs at hs with hc
    obtain rfl := Option.some.inj hs
    refine .inl (h.evolves (.set hj ⟨rfl, rfl, fun h => ⟨h, rfl⟩, fun ht => ?_⟩ hc.2)
      (h.wellFormed.set (h.wellFormed.id id job hj) (h.wellFormed.dependencies id job hj)))
    rw [hc.1] at ht
    cases ht
  | addDependencies id dependencies =>
    obtain ⟨job, hj, hs⟩ := Option.bind_eq_some_iff.mp hs
    dsimp only at hs
    split_ifs at hs with hc
    obtain rfl := Option.some.inj hs
    refine .inl (h.evolves (.set hj ⟨rfl, rfl, fun hp => ?_, fun _ => rfl⟩ fun h => h)
      (h.wellFormed.set (h.wellFormed.id id job hj) fun d hd => ?_))
    · rw [hc.1] at hp
      cases hp
    · rcases List.mem_append.mp hd with hd | hd
      · exact h.wellFormed.dependencies id job hj d hd
      · exact hc.2 d hd
  | dependenciesProcessed id =>
    obtain ⟨job, hj, hs⟩ := Option.bind_eq_some_iff.mp hs
    split_ifs at hs with hc
    obtain rfl := Option.some.inj hs
    refine .inl (h.evolves (.set hj ⟨rfl, rfl, fun _ => ⟨rfl, rfl⟩, fun _ => rfl⟩ fun ha => ?_)
      (h.wellFormed.set (h.wellFormed.id id job hj) (h.wellFormed.dependencies id job hj)))
    rw [UnifiedJob.isActive, hc, Bool.and_false] at ha
    cases ha
  | beginCycle models startTaskLimit running pending =>
    simp only [exec] at hs
    split_ifs at hs with hc
    obtain rfl := Option.some.inj hs
    refine .inl ⟨.refl _, h.wellFormed, fun c hcyc => ?_⟩
    obtain rfl := Option.mem_some_iff.mp hcyc
    exact .begin h.wellFormed models startTaskLimit hc.2.1 hc.2.2
  | processRunning =>
    simp only [exec] at hs
    split at hs
    next tm t running pending hcyc =>
      obtain rfl := Option.some.inj hs
      refine .inl ⟨.refl _, h.wellFormed, fun c hc => ?_⟩
      obtain rfl := Option.mem_some_iff.mp hc
      exact (h.cycle _ hcyc).processRunning
    next => cases hs
  | processPending c =>
    simp only [exec] at hs
    split at hs
    next tm t pending hcyc =>
      have hc := h.cycle _ hcyc
      split_ifs at hs with hstop
      · obtain rfl := Option.some.inj hs
        refine .inl ⟨.refl _, h.wellFormed, fun c' hc' => ?_⟩
        obtain rfl := Option.mem_some_iff.mp hc'
        exact ⟨hc.active, by simp, by simp⟩
      · obtain rfl := Option.some.inj hs
        obtain ⟨hlimit, htime⟩ := not_or.mp hstop
        exact .inr ⟨c, tm, t, pending, rfl, hcyc, hlimit, by simpa using htime, rfl⟩
    next => cases hs
  | endCycle =>
    simp only [exec] at hs
    split at hs
    next tm hcyc =>
      obtain rfl := Option.some.inj hs
      exact .inl ⟨.saveExplanations _ _, h.wellFormed.saveExplanations _, fun c hc => by cases hc⟩
    next => cases hs

theorem inv {s : State} (h : cycles.Reachable s) : Inv s := by
  apply h.invariant
  · rintro s rfl
    exact ⟨⟨by simp, by simp⟩, by simp⟩
  · intro s e s' _ hi hs
    rcases exec_cases hi hs with ⟨-, hi'⟩ | ⟨c, tm, t, pending, -, hcyc, -, -, rfl⟩
    · exact hi'
    · exact hi.turn hcyc

/-- A job that is active after a step was so before, or the step has started it. -/
theorem active_step {s s' : State} {e : Event} (h : Inv s) (hs : exec s e = some s') {id : ℕ}
    {j : UnifiedJob} (hj : s'.jobs.get? id = some j) (ha : j.isActive = true) :
    (∃ j₀, s.jobs.get? id = some j₀ ∧ j₀.isActive = true ∧ j.kind = j₀.kind) ∨
      ∃ t, Starts s e t ∧ t.id = id ∧ j.kind = t.kind := by
  rcases exec_cases h hs with ⟨he, -⟩ | ⟨c, tm, t, pending, rfl, hcyc, hlimit, htime, rfl⟩
  · exact .inl (he.active id j hj ha)
  · rcases processPendingTask_cases tm t c with ⟨st, hd, hsame, hsaved, -⟩ | ⟨-, -, hfailed⟩
    · simp only [hsaved, save] at hj
      rcases Dict.of_get?_set hj with ⟨he, rfl⟩ | ⟨-, hj⟩
      · exact .inr ⟨t, ⟨c, tm, pending, rfl, hcyc, hlimit, htime, st, hd⟩,
          hsame.id.symm.trans he.symm, hsame.kind⟩
      · exact .inl ⟨j, hj, ha, rfl⟩
    · cases hsaved : (tm.processPendingTask t c).2 with
      | none =>
        simp only [hsaved, save] at hj
        exact .inl ⟨j, hj, ha, rfl⟩
      | some k =>
        simp only [hsaved, save] at hj
        rcases Dict.of_get?_set hj with ⟨-, rfl⟩ | ⟨-, hj⟩
        · rw [UnifiedJob.isActive, (hfailed _ hsaved).2, Status.started, Bool.and_false] at ha
          cases ha
        · exact .inl ⟨j, hj, ha, rfl⟩

/-- When a task is started, no key that it reads is one of those of an active job. -/
theorem starts_free {s : State} {e : Event} {t : Task} (h : Inv s) (hst : Starts s e t) {id : ℕ}
    {j : UnifiedJob} (hj : s.jobs.get? id = some j) (ha : j.isActive = true) :
    ∀ k ∈ t.kind.reads, k ∉ j.kind.marks := by
  obtain ⟨c, tm, pending, -, hcyc, -, -, st, hd⟩ := hst
  intro k hk hm
  have hmarks := ((h.cycle _ hcyc).active id j hj ha).resolve_left (by simp)
  have hblocked : (tm.dependencyGraph.taskBlockedBy t.toUnifiedJob).isSome = true :=
    (DependencyGraph.isSome_taskBlockedBy _ _).mpr ⟨k, hk, hmarks k hm⟩
  have hnone := (Option.or_eq_none_iff.mp (TaskManager.decision_start hd).2.1).1
  rw [hnone] at hblocked
  cases hblocked

end Cycles

end Forail.Scheduler
