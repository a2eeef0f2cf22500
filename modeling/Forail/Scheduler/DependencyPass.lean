import Forail.Scheduler.DependencyOrigins

/-! One pass of the dependency manager: the dependencies of the pending tasks and then those
of the updates that they wait for, where `signal_start` may refuse a new update. The caches,
tasks and the decision to update again are those of one call. -/

namespace Forail.Scheduler.DependencyPass

open DependencyManager

/-- An update with the columns that the second call reads: `source` of an inventory update
and `dependencies_processed`. -/
structure Row extends Update where
  source : String
  dependenciesProcessed : Bool
  deriving DecidableEq

/-- The rows, with the updates newest first. `source` holds that column of the inventory
sources, `dependenciesProcessed` the other tasks that have this flag. -/
structure Db where
  projects : List Project
  inventorySources : List InventorySource
  source : ℕ → String
  rows : List Row
  nextId : ℕ
  dependenciesProcessed : List ℕ
  ticks : ℕ

/-- The instants of the decisions of a pass, and the answer of `signal_start` for the update
that the pass creates for a project or source. -/
structure Site where
  tzNow : ℕ → ℤ
  signalStart : Origin → Bool

namespace Db

def updates (db : Db) : List Update := db.rows.map Row.toUpdate

/-- The rows as a single call sees them. -/
def forget (db : Db) : DependencyManager.Db :=
  ⟨db.projects, db.inventorySources, db.updates, db.nextId, db.dependenciesProcessed, db.ticks⟩

/-- The first of the updates, newest first; for a project only updates of type `check`. -/
def latest (db : Db) (o : Origin) : Option Row :=
  match o with
  | .project _ => db.rows.find? fun u => u.origin = o && u.jobType = some .check
  | .inventorySource _ => db.rows.find? fun u => u.origin = o

/-- `create_project_update` or `create_inventory_update`, and `signal_start`. -/
def createUpdate (db : Db) (started : Bool) (o : Origin) : Row × Db :=
  let u : Row := {
    id := db.nextId
    origin := o
    jobType := match o with
      | .project _ => some .check
      | .inventorySource _ => none
    status := if started then .pending else .new
    finished := none
    source := match o with
      | .project _ => ""
      | .inventorySource s => db.source s
    dependenciesProcessed := false }
  (u, { db with rows := u :: db.rows, nextId := db.nextId + 1 })

def tick (db : Db) : Db := { db with ticks := db.ticks + 1 }

/-- `dependencies_processed = True` for the tasks with these ids. -/
def markProcessed (db : Db) (ids : List ℕ) : Db :=
  { db with
    rows := db.rows.map fun u => if u.id ∈ ids then { u with dependenciesProcessed := true } else u
    dependenciesProcessed := db.dependenciesProcessed ++ ids }

end Db

/-! ### One dependency -/

/-- The update to wait for: a new one or the latest. -/
def getOrCreateUpdate (site : Site) (db : Db) (o : Origin) (cacheTimeout : ℕ) :
    Option (Row × Db) := do
  let again ←
    shouldUpdateAgain ((db.latest o).map Row.toUpdate) cacheTimeout (site.tzNow db.ticks)
  if again then some (db.tick.createUpdate (site.signalStart o) o)
  else (db.latest o).map fun u => (u, db.tick)

def getOrCreateProjectUpdate (cache : Cache) (site : Site) (db : Db) (projectId : Option ℕ) :
    Option (List Row × Db) :=
  match projectId.bind cache.allProjects.get? with
  | none => some ([], db)
  | some project => do
    let (u, db) ← getOrCreateUpdate site db (.project project.id) project.scmUpdateCacheTimeout
    some ([u], db)

/-- The loop over the sources of the inventory; a source in the list is passed over. -/
def genDepForSources (site : Site) (alreadyUpdated : Option (List ℕ)) :
    List InventorySource → Db → Option (List Row × Db)
  | [], db => some ([], db)
  | s :: ss, db =>
    if alreadyUpdated.any (s.id ∈ ·) then genDepForSources site alreadyUpdated ss db
    else do
      let (u, db) ← getOrCreateUpdate site db (.inventorySource s.id) s.updateCacheTimeout
      let (us, db) ← genDepForSources site alreadyUpdated ss db
      some (u :: us, db)

def genDepForJob (cache : Cache) (site : Site) (projectId inventoryId : Option ℕ)
    (alreadyUpdated : Option (List ℕ)) (db : Db) : Option (List Row × Db) := do
  let (dependencies, db) ← getOrCreateProjectUpdate cache site db projectId
  let (us, db) ← genDepForSources site alreadyUpdated (cachedSources cache inventoryId) db
  some (dependencies ++ us, db)

def genDepForInventoryUpdate (cache : Cache) (site : Site) (source : String)
    (inventorySource : Option InventorySource) (db : Db) : Option (List Row × Db) :=
  if source = "scm" then
    match inventorySource with
    | some invsrc => getOrCreateProjectUpdate cache site db invsrc.sourceProjectId
    | none => some ([], db)
  else some ([], db)

/-! ### The two calls -/

/-- The state of the loop: `links` holds the pairs added to `dependent_jobs`. -/
structure Run where
  db : Db
  dependencies : List Row
  links : List (PendingTask × Row)

/-- The end of the loop's body. The task is linked to the accumulated list. -/
def Run.addDependencies (r : Run) (task : PendingTask) (jobDeps : List Row) (db : Db) : Run :=
  if jobDeps.isEmpty then { r with db := db }
  else
    let dependencies := r.dependencies ++ jobDeps
    ⟨db, dependencies, r.links ++ dependencies.map fun dep => (task, dep)⟩

def generateStep (cache : Cache) (site : Site) (r : Run) (task : PendingTask) : Option Run :=
  match task.kind with
  | .job projectId inventoryId alreadyUpdated => do
    let (jobDeps, db) ← genDepForJob cache site projectId inventoryId alreadyUpdated r.db
    some (r.addDependencies task jobDeps db)
  | .inventoryUpdate source inventorySource => do
    let (jobDeps, db) ← genDepForInventoryUpdate cache site source inventorySource r.db
    some (r.addDependencies task jobDeps db)
  | .other => some r

def cacheFor (cache : Cache) (db : Db) (tasks : List PendingTask) : Cache :=
  cacheProjectsAndSources ⟨cache, db.forget⟩ tasks

/-- The dependencies with the rows and links written, and the caches for the next call. -/
def generateDependencies (site : Site) (cache : Cache) (db : Db) (undepedTasks : List PendingTask) :
    Option (Run × Cache) := do
  let cache := cacheFor cache db undepedTasks
  let r ← undepedTasks.foldlM (generateStep cache site) ⟨db, [], []⟩
  some ({ r with db := r.db.markProcessed (undepedTasks.map PendingTask.id) }, cache)

/-- The class of an update as a task, with its row of the inventory sources. -/
def taskKind (sources : List InventorySource) (o : Origin) (source : String) : TaskKind :=
  match o with
  | .project _ => .other
  | .inventorySource s => .inventoryUpdate source (sources.find? fun row => row.id = s)

def Row.task (sources : List InventorySource) (u : Row) : PendingTask :=
  ⟨u.id, taskKind sources u.origin u.source⟩

/-- The updates with unprocessed dependencies, as tasks for the second call. -/
def undepedDeps (sources : List InventorySource) (deps : List Row) : List PendingTask :=
  (deps.filter fun dep => !dep.dependenciesProcessed).map (Row.task sources)

/-- The two calls of a pass with their tasks and caches. -/
structure Pass where
  first : Run
  firstCache : Cache
  undeped : List PendingTask
  second : Run
  secondCache : Cache

/-- `_schedule` for the tasks that `get_tasks` reads. Without tasks neither call is made, and
both would change nothing. -/
def schedule (site : Site) (db : Db) (allTasks : List PendingTask) : Option Pass :=
  if allTasks.isEmpty then some ⟨⟨db, [], []⟩, .empty, [], ⟨db, [], []⟩, .empty⟩
  else do
    let (first, firstCache) ← generateDependencies site .empty db allTasks
    let undeped := undepedDeps first.db.inventorySources first.dependencies
    let (second, secondCache) ← generateDependencies site firstCache first.db undeped
    some ⟨first, firstCache, undeped, second, secondCache⟩

end Forail.Scheduler.DependencyPass
