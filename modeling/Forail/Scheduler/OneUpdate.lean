import Forail.Scheduler.UpdateFreshness

/-! The checks of the second call of a pass. They follow from the rows of the start: each of its
tasks is an update of those rows, or one created by the first call, of which source and class
are known. -/

namespace Forail.Scheduler.DependencyPass

open DependencyManager

/-! ### The tasks of the second call -/

/-- The class of the update as a task, if its own dependencies are not processed. -/
def pendingKind (sources : List InventorySource) (u : Row) : Option TaskKind :=
  if u.dependenciesProcessed then none else some (taskKind sources u.origin u.source)

/-- The class of a new update. -/
def createdKind (db : Db) (o : Origin) : TaskKind :=
  taskKind db.inventorySources o
    (match o with
    | .project _ => ""
    | .inventorySource s => db.source s)

def Db.pendingOf (db : Db) (o : Origin) : Option TaskKind :=
  (db.latest o).bind (pendingKind db.inventorySources)

/-- The class of what a check of the project or source yields after the checks `done`. -/
def yielded (site : Site) (db : Db) (done : List (Origin × ℕ)) (o : Origin) : Option TaskKind :=
  if expired site db done o then some (createdKind db o) else db.pendingOf o

/-- The unprocessed dependencies that the checks yield, one after the other. -/
def undepedKinds (site : Site) (db : Db) :
    List (Origin × ℕ) → List (Origin × ℕ) → List TaskKind
  | _, [] => []
  | done, c :: cs =>
    (yielded site db (done ++ [c]) c.1).toList ++ undepedKinds site db (done ++ [c]) cs

/-- The rows after the checks `done` of a first call. -/
structure FirstCall (site : Site) (db₀ : Db) (done : List (Origin × ℕ)) (db : Db) : Prop
    extends After site db₀ done db where
  kinds : ∀ o, db.pendingOf o = yielded site db₀ done o

section First
variable {site : Site} {db₀ db : Db} {done : List (Origin × ℕ)}

theorem FirstCall.start (site : Site) (db : Db) : FirstCall site db [] db where
  toAfter := .start site db
  kinds := fun o => by simp [yielded]

theorem pendingOf_createUpdate (db : Db) (started : Bool) (o o' : Origin) :
    (db.createUpdate started o).2.pendingOf o' =
      if o' = o then some (createdKind db o) else db.pendingOf o' := by
  rw [Db.pendingOf, Db.latest_createUpdate]
  by_cases h : o' = o
  · rw [if_pos h, if_pos h]
    rfl
  · rw [if_neg h, if_neg h]
    rfl

theorem pendingOf_tick (db : Db) (o : Origin) : db.tick.pendingOf o = db.pendingOf o := by
  rw [Db.pendingOf, Db.latest_tick]
  rfl

theorem After.createdKind_eq (h : After site db₀ done db) (o : Origin) :
    createdKind db o = createdKind db₀ o := by
  obtain ⟨-, hsources, htext⟩ := h.tables
  unfold createdKind
  rw [hsources, htext]

theorem FirstCall.step {c : Origin × ℕ} {u : Row} {db' : Db} (h : FirstCall site db₀ done db)
    (hc : getOrCreateUpdate site db c.1 c.2 = some (u, db')) :
    FirstCall site db₀ (done ++ [c]) db' := by
  have hafter := h.toAfter.step hc
  refine ⟨hafter, fun o => ?_⟩
  -- the new state tells which of the two a check did
  rcases getOrCreateUpdate_cases hc with ⟨hagain, -, rfl⟩ | ⟨hagain, -, rfl⟩
  · rw [h.decision] at hagain
    split_ifs at hagain
    rw [Option.some.injEq, Bool.and_eq_true] at hagain
    rw [pendingOf_createUpdate, pendingOf_tick, h.kinds o, yielded, yielded, expired_concat]
    by_cases hoc : o = c.1
    · subst hoc
      simp only [↓reduceIte, hagain.2, decide_true, Bool.and_true, Bool.or_true]
      exact congrArg some (h.createdKind_eq c.1)
    · have hco : ¬ c.1 = o := fun he => hoc he.symm
      simp [hoc, hco]
  · rw [h.decision] at hagain
    split_ifs at hagain
    rw [Option.some.injEq] at hagain
    rw [pendingOf_tick, h.kinds o, yielded, yielded, expired_concat]
    by_cases hoc : o = c.1
    · subst hoc
      cases he : expired site db₀ done c.1 with
      | true => rfl
      | false =>
        rw [he, Bool.not_false, Bool.true_and] at hagain
        rw [hagain]
        simp
    · have hco : ¬ c.1 = o := fun he => hoc he.symm
      simp [hco]

/-- The classes of the updates that the checks yield. -/
theorem FirstCall.collect {cs : List (Origin × ℕ)} {us : List Row} {db' : Db}
    (h : FirstCall site db₀ done db) (hc : collect site cs db = some (us, db')) :
    us.filterMap (pendingKind db₀.inventorySources) = undepedKinds site db₀ done cs := by
  induction cs generalizing done db us with
  | nil =>
    cases hc
    rfl
  | cons c cs ih =>
    obtain ⟨u, d, vs, hu, hvs, rfl⟩ := collect_cons hc
    have hstep := h.step hu
    have hkind : pendingKind db₀.inventorySources u = yielded site db₀ (done ++ [c]) c.1 := by
      rw [← hstep.kinds, Db.pendingOf, getOrCreateUpdate_latest hu, hstep.tables.2.1]
      rfl
    rw [undepedKinds, ← ih hstep hvs, ← hkind]
    cases hp : pendingKind db₀.inventorySources u <;> simp [hp]

theorem undepedDeps_kinds (sources : List InventorySource) (us : List Row) :
    (undepedDeps sources us).map PendingTask.kind = us.filterMap (pendingKind sources) := by
  induction us with
  | nil => rfl
  | cons u us ih =>
    simp only [undepedDeps] at ih
    cases hp : u.dependenciesProcessed <;>
      simp [undepedDeps, pendingKind, hp, ih, Row.task]

end First

/-! ### The checks of a pass -/

/-- Tasks of these classes; neither caches nor checks read the id. -/
def ofKinds (kinds : List TaskKind) : List PendingTask := kinds.map (PendingTask.mk 0)

def firstChecks (db : Db) (tasks : List PendingTask) : List (Origin × ℕ) :=
  checksOf (cacheFor .empty db tasks) tasks

def undepedTasks (site : Site) (db : Db) (tasks : List PendingTask) : List PendingTask :=
  ofKinds (undepedKinds site db [] (firstChecks db tasks))

def secondChecks (site : Site) (db : Db) (tasks : List PendingTask) : List (Origin × ℕ) :=
  let undeped := undepedTasks site db tasks
  checksOf (cacheFor (cacheFor .empty db tasks) db undeped) undeped

/-- The checks of both calls, each a project or source with its cache timeout. -/
def checks (site : Site) (db : Db) (tasks : List PendingTask) : List (Origin × ℕ) :=
  firstChecks db tasks ++ secondChecks site db tasks

theorem cacheFor_kinds {db db' : Db} (hp : db'.projects = db.projects)
    (hs : db'.inventorySources = db.inventorySources) (cache : Cache) (tasks : List PendingTask) :
    cacheFor cache db' tasks = cacheFor cache db (ofKinds (tasks.map PendingTask.kind)) := by
  have hids : projectIds (ofKinds (tasks.map PendingTask.kind)) = projectIds tasks := by
    simp [projectIds, ofKinds, List.filterMap_map, Function.comp_def]
  have hinvs : inventoryIds (ofKinds (tasks.map PendingTask.kind)) = inventoryIds tasks := by
    simp [inventoryIds, ofKinds, List.filterMap_map, Function.comp_def]
  simp [cacheFor, cacheProjectsAndSources, launchProjects, launchSources, Db.forget, hids, hinvs,
    hp, hs]

theorem checksOf_kinds (cache : Cache) (tasks : List PendingTask) :
    checksOf cache tasks = checksOf cache (ofKinds (tasks.map PendingTask.kind)) := by
  simp only [checksOf, ofKinds, List.map_map, List.flatMap_map]
  rfl

end Forail.Scheduler.DependencyPass

/-! One update per project and inventory source in a pass of the dependency manager, up to the
updates that `signal_start` refuses: such an update has no end time, which a later check of the
same project or source reads. -/

namespace Forail.Scheduler.DependencyPass

open DependencyManager

/-- The projects and sources that update on launch and that the task needs; for a job without
those in `inventory_sources_already_updated`. -/
def needs (db : Db) (t : PendingTask) : List Origin := origins ⟨.empty, db.forget⟩ t

/-- Right after the turn of each task, it is linked to the latest update of everything that it
needs. -/
def LinkedInTurn (site : Site) (cache : Cache) (db start : Db) (tasks : List PendingTask)
    (links : List (PendingTask × Row)) : Prop :=
  ∀ before t after, tasks = before ++ t :: after → ∃ turn : Run,
    (before ++ [t]).foldlM (generateStep cache site) ⟨start, [], []⟩ = some turn ∧
      ∀ o ∈ needs db t, ∃ u, turn.db.latest o = some u ∧ (t, u) ∈ links

/-- The pass checks what its tasks need, creates one update for each project and source that a
check finds outdated, and no other, and links its tasks. -/
structure OneUpdateEach (site : Site) (db : Db) (tasks : List PendingTask) (p : Pass) : Prop where
  checked : ∀ o, o ∈ (checks site db tasks).map Prod.fst ↔ ∃ t ∈ tasks ++ p.undeped, o ∈ needs db t
  created : ∃ new, p.second.db.updates = new ++ db.updates ∧ (new.map Update.origin).Nodup ∧
    ∀ o, o ∈ new.map Update.origin ↔ expired site db (checks site db tasks) o = true
  first_linked : LinkedInTurn site p.firstCache db db tasks p.first.links
  second_linked : LinkedInTurn site p.secondCache db p.first.db p.undeped p.second.links

/-! ### One call -/

section Call
variable {site : Site} {db₀ db : Db} {done : List (Origin × ℕ)} {cache : Cache}
  {tasks : List PendingTask}

theorem After.mark (h : After site db₀ done db) (ids : List ℕ) :
    After site db₀ done (db.markProcessed ids) := by
  have hupdates : (db.markProcessed ids).updates = db.updates := by
    simp only [Db.updates, Db.markProcessed, List.map_map]
    refine List.map_congr_left fun u _ => ?_
    rw [Function.comp_apply]
    split_ifs <;> rfl
  have hlatest (o : Origin) : (db.markProcessed ids).forget.latest o = db.forget.latest o := by
    cases o <;> exact congrArg (List.find? _) hupdates
  refine ⟨h.ticks, h.tables, fun o ho => ?_, fun o ho => ?_, ?_⟩
  · rw [hlatest]
    exact h.kept o ho
  · rw [hlatest]
    exact h.renewed o ho
  · rw [hupdates]
    exact h.created

/-- What one call does: its checks, the marks and the links. -/
theorem generateDependencies_some {r : Run} {c : Cache}
    (h : generateDependencies site cache db tasks = some (r, c)) :
    c = cacheFor cache db tasks ∧
      (∃ d, collect site (checksOf c tasks) db = some (r.dependencies, d) ∧
        r.db = d.markProcessed (tasks.map PendingTask.id)) ∧
      ∀ needed, (∀ t ∈ tasks, ∀ o ∈ needs needed t, o ∈ (wanted c t).map Prod.fst) →
        LinkedInTurn site c needed db tasks r.links := by
  obtain ⟨loop, hloop, he⟩ := Option.bind_eq_some_iff.mp h
  cases he
  obtain ⟨us, hus, hdeps⟩ := generate_collect hloop
  rw [List.nil_append] at hdeps
  refine ⟨rfl, ⟨loop.db, by rw [hus, hdeps], rfl⟩, ?_⟩
  rintro needed hneeds before t after rfl
  obtain ⟨turn, hturn, hlinks⟩ := generate_linked hloop
  exact ⟨turn, hturn, fun o ho => hlinks o (hneeds t (by simp) o ho)⟩

theorem generateDependencies_of_collect {us : List Row} {db' : Db}
    (h : collect site (checksOf (cacheFor cache db tasks) tasks) db = some (us, db')) :
    ∃ r, generateDependencies site cache db tasks = some (r, cacheFor cache db tasks) := by
  obtain ⟨loop, hloop⟩ := generate_of_collect (r := ⟨db, [], []⟩) h
  exact ⟨_, by rw [generateDependencies, hloop]; rfl⟩

end Call

/-! ### What the tasks need -/

theorem cached_launching {db : Db} {tasks : List PendingTask} {p : ℕ}
    (h : ((cacheFor .empty db tasks).allProjects.get? p).isSome = true) :
    ∃ q ∈ db.projects, q.id = p ∧ q.scmUpdateOnLaunch = true := by
  rw [cacheFor, cacheProjectsAndSources, addInventorySource_projects, get?_addProject] at h
  rcases h with h | ⟨q, hq, hid⟩
  · simp [Cache.empty] at h
  · simp only [launchProjects, List.mem_filter, Bool.and_eq_true] at hq
    exact ⟨q, hq.1, hid, hq.2.2⟩

/-- The caches of the first call give a task of the second no other projects. -/
theorem origins_second {db db' : Db} (hp : db'.projects = db.projects) (tasks : List PendingTask)
    (sources : List InventorySource) (u : Row) :
    origins ⟨cacheFor .empty db tasks, db'.forget⟩ (u.task sources) = needs db (u.task sources) := by
  have hproject (projectId : Option ℕ) :
      projectOrigins ⟨cacheFor .empty db tasks, db'.forget⟩ projectId =
        projectOrigins ⟨.empty, db.forget⟩ projectId := by
    cases projectId with
    | none => rfl
    | some p =>
      have hp' : db'.forget.projects = db.forget.projects := hp
      simp only [projectOrigins, hp']
      refine if_congr ⟨?_, ?_⟩ rfl rfl
      · rintro (h | h)
        · exact .inr (cached_launching h)
        · exact .inr h
      · rintro (h | h)
        · simp [Cache.empty] at h
        · exact .inr h
  cases ho : u.origin with
  | project p => simp [needs, origins, Row.task, taskKind, ho]
  | inventorySource s => simp [needs, origins, Row.task, taskKind, ho, hproject]

theorem mem_checksOf {cache : Cache} {tasks : List PendingTask} {need : PendingTask → List Origin}
    (h : ∀ t ∈ tasks, ∀ o, o ∈ (wanted cache t).map Prod.fst ↔ o ∈ need t) (o : Origin) :
    o ∈ (checksOf cache tasks).map Prod.fst ↔ ∃ t ∈ tasks, o ∈ need t := by
  rw [checksOf, List.map_flatMap, List.mem_flatMap]
  exact exists_congr fun t => and_congr_right fun ht => h t ht o

/-! ### The pass -/

section Whole
variable {site : Site} {db : Db} {tasks : List PendingTask}

/-- The second call of a pass in terms of the rows of the start. -/
theorem second_checks {first : Run} {c : Cache}
    (h : generateDependencies site .empty db tasks = some (first, c)) :
    After site db (firstChecks db tasks) first.db ∧
      AllAnswered site db [] (firstChecks db tasks) ∧
      checksOf (cacheFor c first.db (undepedDeps first.db.inventorySources first.dependencies))
        (undepedDeps first.db.inventorySources first.dependencies) = secondChecks site db tasks := by
  obtain ⟨rfl, ⟨d, hd, hdb⟩, -⟩ := generateDependencies_some h
  obtain ⟨hafter, hall⟩ := (After.start site db).collect hd
  rw [hdb]
  have htables := (hafter.mark (tasks.map PendingTask.id)).tables
  refine ⟨hafter.mark _, hall, ?_⟩
  have hkinds : (undepedDeps (d.markProcessed (tasks.map PendingTask.id)).inventorySources
      first.dependencies).map PendingTask.kind =
        undepedKinds site db [] (firstChecks db tasks) := by
    rw [undepedDeps_kinds, htables.2.1]
    exact (FirstCall.start site db).collect hd
  rw [checksOf_kinds, cacheFor_kinds htables.1 htables.2.1, hkinds]
  rfl

theorem schedule_eq (h : tasks ≠ []) : schedule site db tasks = (do
    let (first, firstCache) ← generateDependencies site .empty db tasks
    let undeped := undepedDeps first.db.inventorySources first.dependencies
    let (second, secondCache) ← generateDependencies site firstCache first.db undeped
    some ⟨first, firstCache, undeped, second, secondCache⟩) := by
  rw [schedule, if_neg (by simpa using h)]

/-- A pass that ends has had every check answered, and did its work. -/
theorem schedule_some {p : Pass} (h : schedule site db tasks = some p) :
    AllAnswered site db [] (checks site db tasks) ∧ OneUpdateEach site db tasks p := by
  by_cases htasks : tasks = []
  · subst htasks
    cases h
    have hnone : checks site db [] = [] := rfl
    refine ⟨?_, ?_, ?_, ?_, ?_⟩
    · rw [hnone]
      exact fun before c after heq => absurd heq (by simp)
    · simp [hnone]
    · exact ⟨[], rfl, List.nodup_nil, fun o => by simp [hnone]⟩
    · exact fun before t after heq => absurd heq (by simp)
    · exact fun before t after heq => absurd heq (by simp)
  · rw [schedule_eq htasks] at h
    obtain ⟨⟨first, c⟩, hfirst, h⟩ := Option.bind_eq_some_iff.mp h
    obtain ⟨⟨second, c'⟩, hsecond, h⟩ := Option.bind_eq_some_iff.mp h
    cases h
    obtain ⟨hafter₁, hall₁, hchecks⟩ := second_checks hfirst
    obtain ⟨rfl, -, hlinked₁⟩ := generateDependencies_some hfirst
    obtain ⟨rfl, ⟨d, hd, hdb⟩, hlinked₂⟩ := generateDependencies_some hsecond
    obtain ⟨hafter₂, hall₂⟩ := hafter₁.collect hd
    rw [hchecks] at hafter₂ hall₂
    have hneeds₁ : ∀ t ∈ tasks, ∀ o,
        o ∈ (wanted (cacheFor .empty db tasks) t).map Prod.fst ↔ o ∈ needs db t :=
      fun t ht o => mem_wanted ⟨.empty, db.forget⟩ tasks ht o
    have hneeds₂ : ∀ t ∈ undepedDeps first.db.inventorySources first.dependencies, ∀ o,
        o ∈ (wanted (cacheFor (cacheFor .empty db tasks) first.db
          (undepedDeps first.db.inventorySources first.dependencies)) t).map Prod.fst ↔
            o ∈ needs db t := by
      intro t ht o
      refine (mem_wanted ⟨_, _⟩ _ ht o).trans ?_
      obtain ⟨u, -, rfl⟩ := List.mem_map.mp ht
      rw [origins_second hafter₁.tables.1]
    refine ⟨allAnswered_append.mpr ⟨hall₁, by simpa using hall₂⟩, ?_, ?_, ?_, ?_⟩
    · intro o
      rw [checks, List.map_append, List.mem_append, firstChecks, mem_checksOf hneeds₁, ← hchecks,
        mem_checksOf hneeds₂]
      simp only [List.mem_append, or_and_right, exists_or]
    · rw [hdb]
      exact (hafter₂.mark _).created
    · exact hlinked₁ db fun t ht o => (hneeds₁ t ht o).mpr
    · exact hlinked₂ db fun t ht o => (hneeds₂ t ht o).mpr

theorem schedule_of_answered (h : AllAnswered site db [] (checks site db tasks)) :
    ∃ p, schedule site db tasks = some p := by
  by_cases htasks : tasks = []
  · subst htasks
    exact ⟨_, rfl⟩
  · obtain ⟨hall₁, hall₂⟩ := allAnswered_append.mp h
    obtain ⟨us, db', hus⟩ := (After.start site db).collect_isSome hall₁
    obtain ⟨first, hfirst⟩ := generateDependencies_of_collect hus
    obtain ⟨hafter, -, hchecks⟩ := second_checks hfirst
    obtain ⟨vs, db'', hvs⟩ := hafter.collect_isSome (by simpa using hall₂)
    rw [← hchecks] at hvs
    obtain ⟨second, hsecond⟩ := generateDependencies_of_collect hvs
    exact ⟨_, by
      rw [schedule_eq htasks, hfirst, Option.bind_eq_bind, Option.bind_some]
      dsimp only
      rw [hsecond]
      rfl⟩

end Whole

/-- An inventory source that updates on launch, has never been updated and cannot start. -/
def startless : Db where
  projects := []
  inventorySources := [⟨3, some 1, true, 0, none⟩]
  source := fun _ => "gce"
  rows := []
  nextId := 10
  dependenciesProcessed := []
  ticks := 0

def jobOf (id inventory : ℕ) : PendingTask := ⟨id, .job none (some inventory) none⟩

end Forail.Scheduler.DependencyPass
