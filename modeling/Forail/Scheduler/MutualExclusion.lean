import Forail.Scheduler.TaskManagerCycles

/-! Mutual exclusion. The six tables of the graph are written and read asymmetrically, but
whenever one kind of task must wait for another, the one reads a key that the other is
stored under. So a task that is started excludes no active one, and the kinds that exclude
themselves are never active twice under one key. -/

namespace Forail.Scheduler

open DependencyGraph TaskManager

/-- A task of the first kind must not be started while one of the second is active. -/
def JobKind.excludes : JobKind → JobKind → Bool
  | .projectUpdate project, .projectUpdate project' => project = project'
  | .inventoryUpdate source _, .inventoryUpdate source' _ => source = source'
  | .systemJob, .systemJob => true
  | .job _ project _ _, .projectUpdate project' => project = some project'
  | .job _ _ inventory _, .inventoryUpdate _ (some inventory') => inventory = some inventory'
  | .job _ _ inventory _, .adHocCommand (some inventory') => inventory = some inventory'
  | .adHocCommand inventory, .inventoryUpdate _ (some inventory') => inventory = some inventory'
  | .adHocCommand inventory, .adHocCommand (some inventory') => inventory = some inventory'
  | _, _ => false

/-- What at most one task may be active for: a project, an inventory source, an inventory
with an ad hoc command, or the system jobs. -/
def JobKind.solo : JobKind → Option Key
  | .projectUpdate project => some (.project project)
  | .inventoryUpdate source _ => some (.inventorySource source)
  | .systemJob => some .system
  | .adHocCommand (some inventory) => some (.inventory inventory)
  | _ => none

theorem JobKind.shared_of_excludes {k other : JobKind} (h : k.excludes other = true) :
    ∃ key ∈ k.reads, key ∈ other.marks := by
  unfold excludes at h
  split at h <;> simp_all [reads, marks]
  -- an inventory update is stored under its inventory too
  exact ⟨_, .inr (.inl rfl), .inr rfl⟩

theorem JobKind.solo_mem {k : JobKind} {key : Key} (h : k.solo = some key) :
    key ∈ k.reads ∧ key ∈ k.marks := by
  unfold solo at h
  split at h <;> simp_all [reads, marks]

namespace Cycles

/-- No active task excludes the task, and all its dependencies have ended well. -/
structure Free (jobs : Dict ℕ UnifiedJob) (t : UnifiedJob) : Prop where
  active : ∀ id j, jobs.get? id = some j → j.isActive = true → t.kind.excludes j.kind = false
  dependencies : ∀ j, jobs.get? t.id = some j → ∀ id ∈ j.dependentJobs, ∀ d, jobs.get? id = some d →
    d.status.active = false ∧ d.status ≠ .failed ∧ d.status ≠ .error

/-- At most one task is active for each project, inventory source and so on. -/
def Single (jobs : Dict ℕ UnifiedJob) : Prop :=
  ∀ id id' j j', jobs.get? id = some j → jobs.get? id' = some j' →
    j.isActive = true → j'.isActive = true → ∀ key, j.kind.solo = some key →
      j'.kind.solo = some key → id = id'

theorem free_of_starts {s : State} {e : Event} {t : Task} (h : Inv s) (hst : Starts s e t) :
    Free s.jobs t.toUnifiedJob where
  active id j hj ha := by
    by_contra hex
    obtain ⟨key, hread, hmark⟩ := JobKind.shared_of_excludes (Bool.not_eq_false _ ▸ hex)
    exact starts_free h hst hj ha key hread hmark
  dependencies j hj id hid d hd := by
    obtain ⟨c, tm, pending, -, hcyc, -, -, st, hdec⟩ := hst
    obtain ⟨hfailed, hblocked, -⟩ := TaskManager.decision_start hdec
    have hf := (h.cycle _ hcyc).pending t List.mem_cons_self
    obtain ⟨j', hj', -, -, hdeps⟩ := hf.row
    obtain rfl := Option.some.inj (hj'.symm.trans hj)
    -- the copy that was fetched had ended, and what has ended stays as it is
    obtain ⟨d', hd', rfl⟩ := hf.prefetched id (hdeps ▸ hid)
    have hgood := List.find?_eq_none.mp hfailed d' hd'
    have hover := List.find?_eq_none.mp (Option.or_eq_none_iff.mp hblocked).2 d' hd'
    have hterm : d'.status.terminal = true := by
      cases hs : d'.status <;> simp_all [Status.active, Status.terminal]
    obtain ⟨⟨k, hk, hst⟩, -⟩ := hf.ended d' hd' hterm
    obtain rfl := Option.some.inj (hd.symm.trans hk)
    rw [hst]
    simp only [Bool.or_eq_true, decide_eq_true_eq, not_or, Bool.not_eq_true] at hgood hover
    exact ⟨hover, hgood.2, hgood.1⟩

theorem single_step {s s' : State} {e : Event} (h : Inv s) (hsingle : Single s.jobs)
    (hs : exec s e = some s') : Single s'.jobs := by
  intro id id' j j' hj hj' ha ha' key hk hk'
  rcases active_step h hs hj ha with ⟨j₀, hj₀, ha₀, hk₀⟩ | ⟨t, hst, rfl, hkt⟩
  · rcases active_step h hs hj' ha' with ⟨j₀', hj₀', ha₀', hk₀'⟩ | ⟨t, hst, rfl, hkt⟩
    · exact hsingle id id' j₀ j₀' hj₀ hj₀' ha₀ ha₀' key (hk₀ ▸ hk) (hk₀' ▸ hk')
    · have hfree := starts_free h hst hj₀ ha₀ key (JobKind.solo_mem (hkt ▸ hk')).1
      exact absurd (JobKind.solo_mem (hk₀ ▸ hk)).2 hfree
  · rcases active_step h hs hj' ha' with ⟨j₀', hj₀', ha₀', hk₀'⟩ | ⟨t', hst', rfl, -⟩
    · have hfree := starts_free h hst hj₀' ha₀' key (JobKind.solo_mem (hkt ▸ hk)).1
      exact absurd (JobKind.solo_mem (hk₀' ▸ hk')).2 hfree
    · obtain ⟨c, tm, pending, rfl, hcyc, -⟩ := hst
      obtain ⟨c', tm', pending', -, hcyc', -⟩ := hst'
      obtain ⟨-, ht, -⟩ := Option.some.inj (hcyc.symm.trans hcyc')
      rfl

/-- In every run of the task manager a task is started only if it is free then, and at most
one task is active for each project, inventory source and so on. -/
theorem mutual_exclusion {s : State} (h : cycles.Reachable s) :
    (∀ e t, Starts s e t → Free s.jobs t.toUnifiedJob) ∧ Single s.jobs := by
  constructor
  · intro e t hst
    exact free_of_starts (inv h) hst
  · apply h.invariant
    · rintro s rfl id id' j j' hj
      cases hj
    · intro s e s' hr hsingle hs
      exact single_step (inv hr) hsingle hs

/-- Two updates of one project: the first is started, and the second is left pending. -/
def twoUpdates : List Event :=
  [.create (pendingTask (.projectUpdate 5) 1).toUnifiedJob,
    .create { (pendingTask (.projectUpdate 5) 1).toUnifiedJob with id := 2 },
    .beginCycle (oneNode .hybrid 0) 100 [] [2, 1],
    .processPending ⟨false, 0, none⟩, .processPending ⟨false, 0, none⟩]

theorem mutual_exclusion_twoUpdates : ∃ s, cycles.Reachable s ∧
    (s.jobs.get? 2).map UnifiedJob.status = some .waiting ∧
    (s.jobs.get? 1).map UnifiedJob.status = some .pending ∧ Single s.jobs := by
  have hrun : System.runAll exec ⟨.empty, none⟩ twoUpdates = some _ := rfl
  have hr : cycles.Reachable _ := System.Reachable.runAll (fun _ _ _ _ h => h) (.init rfl) hrun
  exact ⟨_, hr, rfl, rfl, (mutual_exclusion hr).2⟩

end Cycles

end Forail.Scheduler

/-! Templates that do not allow simultaneous jobs. A sliced workflow job of a job template
is looked for among the workflow jobs and among the jobs, a job only among the jobs. So the
exclusion fails in one case only: a job is started next to an active sliced workflow job. -/

namespace Forail.Scheduler

open DependencyGraph TaskManager

/-- The first job does not allow the second one, which is of the same template. A sliced
workflow job has a job template in the place of its workflow job template. -/
def JobKind.rivals : JobKind → JobKind → Bool
  | .job (some template) _ _ false, .job (some template') _ _ _ => template = template'
  | .job (some template) _ _ false, .workflowJob none (some template') _ => template = template'
  | .workflowJob none (some template) false, .job (some template') _ _ _ => template = template'
  | .workflowJob none (some template) false, .workflowJob none (some template') _ =>
    template = template'
  | .workflowJob (some template) _ false, .workflowJob (some template') _ _ => template = template'
  | _, _ => false

/-- The pair that the graph does not notice. -/
def JobKind.besideSlices : JobKind → JobKind → Bool
  | .job (some template) _ _ false, .workflowJob none (some template') _ => template = template'
  | _, _ => false

theorem JobKind.rivals_of_besideSlices {k other : JobKind} (h : k.besideSlices other = true) :
    k.rivals other = true := by
  unfold besideSlices at h
  split at h <;> simp_all [rivals]

/-- Any other pair shares a key. -/
theorem JobKind.shared_of_rivals {k other : JobKind} (h : k.rivals other = true)
    (hb : k.besideSlices other = false) : ∃ key ∈ k.reads, key ∈ other.marks := by
  unfold rivals at h
  split at h <;> simp_all [reads, marks, besideSlices]

namespace Cycles

/-- In every run a started task has no active rival exactly if it is not a job that is
started beside its template's slices. -/
theorem exclusive_iff {s : State} {e : Event} {t : Task} (h : cycles.Reachable s)
    (hst : Starts s e t) :
    (∀ id j, s.jobs.get? id = some j → j.isActive = true → t.kind.rivals j.kind = false) ↔
      ∀ id j, s.jobs.get? id = some j → j.isActive = true → t.kind.besideSlices j.kind = false := by
  constructor
  · intro hr id j hj ha
    by_contra hb
    have hrival := JobKind.rivals_of_besideSlices (Bool.not_eq_false _ ▸ hb)
    rw [hr id j hj ha] at hrival
    cases hrival
  · intro hb id j hj ha
    by_contra hr
    obtain ⟨key, hread, hmark⟩ :=
      JobKind.shared_of_rivals (Bool.not_eq_false _ ▸ hr) (hb id j hj ha)
    exact starts_free (inv h) hst hj ha key hread hmark

/-! ### A job beside the slices of its template -/

/-- A sliced workflow job of a job template and a job of it, both pending. -/
def sliced : Task := pendingTask (.workflowJob none (some 7) false) 1

def unsliced : Task := { pendingTask (.job (some 7) none none false) 1 with id := 2 }

/-- The manager has come to the first of two pending tasks. -/
def bothPending : List Event :=
  [.create sliced.toUnifiedJob, .create unsliced.toUnifiedJob,
    .beginCycle (oneNode .hybrid 0) 100 [] [1, 2]]

theorem exclusive_besideSlices : ¬ ∀ s e t, cycles.Reachable s → Starts s e t →
    ∀ id j, s.jobs.get? id = some j → j.isActive = true → t.kind.rivals j.kind = false := by
  intro h
  have hrun : System.runAll exec ⟨.empty, none⟩
      (bothPending ++ [.processPending ⟨false, 0, none⟩]) = some _ := rfl
  have hr : cycles.Reachable _ := System.Reachable.runAll (fun _ _ _ _ h => h) (.init rfl) hrun
  have hrivals := h _ (.processPending ⟨false, 0, none⟩) unsliced hr
  refine absurd (hrivals ?_ 1 _ rfl rfl) (by decide)
  exact ⟨_, _, _, rfl, rfl, Nat.succ_ne_zero 98, rfl, _, rfl⟩

/-- The sliced workflow job itself is started without a rival. -/
theorem exclusive_sliced : ∃ s, cycles.Reachable s ∧
    Starts s (.processPending ⟨false, 0, none⟩) sliced ∧
    ∀ id j, s.jobs.get? id = some j → j.isActive = true → sliced.kind.rivals j.kind = false := by
  have hrun : System.runAll exec ⟨.empty, none⟩ bothPending = some _ := rfl
  have hr : cycles.Reachable _ := System.Reachable.runAll (fun _ _ _ _ h => h) (.init rfl) hrun
  refine ⟨_, hr, ?_, (exclusive_iff (e := .processPending ⟨false, 0, none⟩) hr ?_).mpr ?_⟩
  · exact ⟨_, _, _, rfl, rfl, Nat.succ_ne_zero 99, rfl, _, rfl⟩
  · exact ⟨_, _, _, rfl, rfl, Nat.succ_ne_zero 99, rfl, _, rfl⟩
  · exact fun _ _ _ _ => rfl

end Cycles

end Forail.Scheduler
