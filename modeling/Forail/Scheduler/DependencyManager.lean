import Forail.Base.Dict
import Forail.Models.UnifiedJob
import Mathlib.Data.Int.Notation

/-! The dependency manager: the caches of projects and inventory sources, the choice
between the latest update and a new one, and the loop that links pending tasks to the
updates they wait for. An exception ends the whole transaction, so that a function that
may raise has no result then. -/

namespace Forail.Scheduler.DependencyManager

inductive ProjectUpdateJobType
  | run | check
  deriving DecidableEq

/-- What an update updates. -/
inductive Origin
  | project (id : ℕ)
  | inventorySource (id : ℕ)
  deriving DecidableEq

/-- A project update or an inventory update. Only project updates have a job type; instants
are in microseconds. -/
structure Update where
  id : ℕ
  origin : Origin
  jobType : Option ProjectUpdateJobType
  status : Status
  finished : Option ℤ
  deriving DecidableEq

structure Project where
  id : ℕ
  scmUpdateOnLaunch : Bool
  scmUpdateCacheTimeout : ℕ
  deriving DecidableEq

structure InventorySource where
  id : ℕ
  inventoryId : Option ℕ
  updateOnLaunch : Bool
  updateCacheTimeout : ℕ
  sourceProjectId : Option ℕ
  deriving DecidableEq

/-- The concrete class of a pending task with the fields that the manager reads. The list
under `inventory_sources_already_updated` is missing where the start arguments are empty,
unreadable or without that key. -/
inductive TaskKind
  | job (projectId inventoryId : Option ℕ) (alreadyUpdated : Option (List ℕ))
  | inventoryUpdate (source : String) (inventorySource : Option InventorySource)
  | other
  deriving DecidableEq

structure PendingTask where
  id : ℕ
  kind : TaskKind
  deriving DecidableEq

/-- The rows, with the updates newest first, and the number of times that `tz_now` was read. -/
structure Db where
  projects : List Project
  inventorySources : List InventorySource
  updates : List Update
  nextId : ℕ
  dependenciesProcessed : List ℕ
  ticks : ℕ

/-- `all_projects` and `all_inventory_sources`: projects under their own ids, and under an
inventory the sources of it that update on launch. -/
structure Cache where
  allProjects : Dict ℕ Project
  allInventorySources : Dict ℕ (List InventorySource)
  projects_id : ∀ k p, allProjects.get? k = some p → p.id = k
  sources_own : ∀ k ss, allInventorySources.get? k = some ss →
    ∀ s ∈ ss, s.inventoryId = some k ∧ s.updateOnLaunch = true

structure Manager where
  cache : Cache
  db : Db

/-! ### The caches -/

namespace Cache

def empty : Cache := ⟨.empty, .empty, by simp, by simp⟩

/-- `all_projects[proj.id] = proj`. -/
def addProject (c : Cache) (proj : Project) : Cache where
  allProjects := c.allProjects.set proj.id proj
  allInventorySources := c.allInventorySources
  projects_id := fun k p h => by
    rw [Dict.get?_set] at h
    split_ifs at h with hk
    · cases h; exact hk.symm
    · exact c.projects_id k p h
  sources_own := c.sources_own

/-- The source is appended to the list of its inventory. The query yields only sources
that update on launch. -/
def addInventorySource (c : Cache) (invsrc : InventorySource) : Cache :=
  match hi : invsrc.inventoryId with
  | none => c
  | some inventory =>
    if hu : invsrc.updateOnLaunch = true then
      { c with
        allInventorySources :=
          c.allInventorySources.set inventory (c.allInventorySources.getD inventory [] ++ [invsrc])
        sources_own := fun k ss h s hs => by
          rw [Dict.get?_set] at h
          split_ifs at h with hk
          · cases h
            rcases List.mem_append.mp hs with hs | hs
            · rw [Dict.getD] at hs
              cases hg : c.allInventorySources.get? inventory with
              | none => rw [hg] at hs; exact absurd hs List.not_mem_nil
              | some ss => rw [hg] at hs; exact hk ▸ c.sources_own inventory ss hg s hs
            · rw [List.mem_singleton] at hs
              subst hs
              exact ⟨hk ▸ hi, hu⟩
          · exact c.sources_own k ss h s hs }
    else c

end Cache

def projectIds (tasks : List PendingTask) : List ℕ :=
  tasks.filterMap fun t =>
    match t.kind with
    | .job projectId _ _ => projectId
    | .inventoryUpdate _ inventorySource => inventorySource.bind InventorySource.sourceProjectId
    | .other => none

def inventoryIds (tasks : List PendingTask) : List ℕ :=
  tasks.filterMap fun t =>
    match t.kind with
    | .job _ inventoryId _ => inventoryId
    | .inventoryUpdate _ _ | .other => none

def launchProjects (db : Db) (projectIds : List ℕ) : List Project :=
  db.projects.filter fun p => p.id ∈ projectIds && p.scmUpdateOnLaunch

def launchSources (db : Db) (inventoryIds : List ℕ) : List InventorySource :=
  db.inventorySources.filter fun s => s.inventoryId.any (· ∈ inventoryIds) && s.updateOnLaunch

def cacheProjectsAndSources (m : Manager) (taskList : List PendingTask) : Cache :=
  let cache := (launchProjects m.db (projectIds taskList)).foldl Cache.addProject m.cache
  (launchSources m.db (inventoryIds taskList)).foldl Cache.addInventorySource cache

/-! ### One dependency -/

/-- Without a result where the source adds the timeout to a missing end time. -/
def shouldUpdateAgain (update : Option Update) (cacheTimeout : ℕ) (tzNow : ℤ) : Option Bool :=
  match update with
  | none => some true
  | some u =>
    if u.status ∈ [Status.failed, .canceled, .error] then some true
    else if u.status ∈ [Status.waiting, .pending, .running] then some false
    else u.finished.map fun finished => decide (finished + 1000000 * cacheTimeout < tzNow)

namespace Db

/-- The first of the updates, newest first; for a project only updates of type `check`. -/
def latest (db : Db) (o : Origin) : Option Update :=
  match o with
  | .project _ => db.updates.find? fun u => u.origin = o && u.jobType = some .check
  | .inventorySource _ => db.updates.find? fun u => u.origin = o

/-- `create_project_update` or `create_inventory_update`, and `signal_start`, which never
finds a password missing for these. -/
def createUpdate (db : Db) (o : Origin) : Update × Db :=
  let u : Update := {
    id := db.nextId
    origin := o
    jobType := match o with
      | .project _ => some .check
      | .inventorySource _ => none
    status := .pending
    finished := none }
  (u, { db with updates := u :: db.updates, nextId := db.nextId + 1 })

end Db

/-- The update to wait for: a new one or the latest. -/
def getOrCreateUpdate (tzNow : ℕ → ℤ) (db : Db) (o : Origin) (cacheTimeout : ℕ) :
    Option (Update × Db) := do
  let again ← shouldUpdateAgain (db.latest o) cacheTimeout (tzNow db.ticks)
  let read : Db := { db with ticks := db.ticks + 1 }
  if again then some (read.createUpdate o) else (db.latest o).map fun u => (u, read)

def getOrCreateProjectUpdate (cache : Cache) (tzNow : ℕ → ℤ) (db : Db) (projectId : Option ℕ) :
    Option (List Update × Db) :=
  match projectId.bind cache.allProjects.get? with
  | none => some ([], db)
  | some project => do
    let (u, db) ← getOrCreateUpdate tzNow db (.project project.id) project.scmUpdateCacheTimeout
    some ([u], db)

/-- The loop over the sources of the inventory; a source in the list is passed over. -/
def genDepForSources (tzNow : ℕ → ℤ) (alreadyUpdated : Option (List ℕ)) :
    List InventorySource → Db → Option (List Update × Db)
  | [], db => some ([], db)
  | s :: ss, db =>
    if alreadyUpdated.any (s.id ∈ ·) then genDepForSources tzNow alreadyUpdated ss db
    else do
      let (u, db) ← getOrCreateUpdate tzNow db (.inventorySource s.id) s.updateCacheTimeout
      let (us, db) ← genDepForSources tzNow alreadyUpdated ss db
      some (u :: us, db)

def cachedSources (cache : Cache) (inventoryId : Option ℕ) : List InventorySource :=
  inventoryId.elim [] fun inventory => cache.allInventorySources.getD inventory []

def genDepForJob (cache : Cache) (tzNow : ℕ → ℤ) (projectId inventoryId : Option ℕ)
    (alreadyUpdated : Option (List ℕ)) (db : Db) : Option (List Update × Db) := do
  let (dependencies, db) ← getOrCreateProjectUpdate cache tzNow db projectId
  let (us, db) ← genDepForSources tzNow alreadyUpdated (cachedSources cache inventoryId) db
  some (dependencies ++ us, db)

def genDepForInventoryUpdate (cache : Cache) (tzNow : ℕ → ℤ) (source : String)
    (inventorySource : Option InventorySource) (db : Db) : Option (List Update × Db) :=
  if source = "scm" then
    match inventorySource with
    | some invsrc => getOrCreateProjectUpdate cache tzNow db invsrc.sourceProjectId
    | none => some ([], db)
  else some ([], db)

/-! ### The loop over the tasks -/

/-- The state of the loop: `links` holds the pairs added to `dependent_jobs`. -/
structure Run where
  db : Db
  dependencies : List Update
  links : List (PendingTask × Update)

/-- The end of the loop's body. The task is linked to the accumulated list. -/
def Run.addDependencies (r : Run) (task : PendingTask) (jobDeps : List Update) (db : Db) : Run :=
  if jobDeps.isEmpty then { r with db := db }
  else
    let dependencies := r.dependencies ++ jobDeps
    ⟨db, dependencies, r.links ++ dependencies.map fun dep => (task, dep)⟩

def generateStep (cache : Cache) (tzNow : ℕ → ℤ) (r : Run) (task : PendingTask) : Option Run :=
  match task.kind with
  | .job projectId inventoryId alreadyUpdated => do
    let (jobDeps, db) ← genDepForJob cache tzNow projectId inventoryId alreadyUpdated r.db
    some (r.addDependencies task jobDeps db)
  | .inventoryUpdate source inventorySource => do
    let (jobDeps, db) ← genDepForInventoryUpdate cache tzNow source inventorySource r.db
    some (r.addDependencies task jobDeps db)
  | .other => some r

/-- The dependencies with the rows and links written, and the caches for the next call. -/
def generateDependencies (tzNow : ℕ → ℤ) (m : Manager) (undepedTasks : List PendingTask) :
    Option (Run × Cache) := do
  let cache := cacheProjectsAndSources m undepedTasks
  let r ← undepedTasks.foldlM (generateStep cache tzNow) ⟨m.db, [], []⟩
  let processed := r.db.dependenciesProcessed ++ undepedTasks.map PendingTask.id
  some ({ r with db := { r.db with dependenciesProcessed := processed } }, cache)

end Forail.Scheduler.DependencyManager
