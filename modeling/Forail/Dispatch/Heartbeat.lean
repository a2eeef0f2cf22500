import Forail.Dispatch.AutoscalePool
import Forail.Models.UnifiedJob

/-! The heartbeat of a control node and its local reaper, over the dispatcher. When the parent
writes a heartbeat it binds the time and then, worker by worker, the uuids of the managed tasks.
A child that runs the heartbeat, at any time later, fails the jobs that are running on the node,
were started up to that time and are under none of the uuids. All processes read one clock. -/

namespace Forail.Dispatch

/-- The columns of a unified job that the reaper reads. -/
structure JobRow where
  status : Status
  started : Option ℤ
  celeryTaskId : Option ℕ
  executionNode : String
  controllerNode : String
  workflow : Bool
  deriving DecidableEq

/-- `dispatch_time` and `worker_tasks`, the latter by the pid of the worker. -/
structure BoundKwargs where
  dispatchTime : ℤ
  workerTasks : Dict ℕ (List ℕ)

def BoundKwargs.activeTaskIds (k : BoundKwargs) : List ℕ := k.workerTasks.entries.flatMap Prod.snd

/-- The parent is in `add_bind_kwargs`, before the workers that are left. -/
structure Binding where
  uuid : ℕ
  kwargs : BoundKwargs
  rest : List ℕ

/-- A call of `reap`: the rows of its query that are left, and whether `reap_job` has read the
status of the first one. -/
structure ReapCall where
  todo : List ℕ
  refreshed : Bool

/-- `taken` holds when a message was taken, and `owed`, for each heartbeat, the jobs that were
running at its dispatch and whose worker had died and been cleaned up. `failed` and `ended` are
the jobs that a heartbeat failed, and those that it found ended. -/
structure Node where
  state : State
  clock : ℤ
  jobs : Dict ℕ JobRow
  binding : Option Binding
  bound : Dict ℕ BoundKwargs
  calls : Dict ℕ ReapCall
  raised : List ℕ
  taken : Dict ℕ ℤ
  owed : Dict ℕ (List ℕ)
  failed : List (ℕ × ℕ)
  ended : List (ℕ × ℕ)

/-- A step of the dispatcher at a time; the write of a heartbeat, and the binding of the next
worker's tasks or its end; a task sets its job running; any other write of a row; the query of
`reap` in a worker that runs a heartbeat, and the two halves of `reap_job`; an error in it. -/
inductive NodeEvent
  | pool (e : Event) (now : ℤ)
  | heartbeat (body : Body) (preferredQueue : ℕ) (now : ℤ)
  | bindWorker
  | start (i pk : ℕ) (job : JobRow) (time : ℤ)
  | store (pk : ℕ) (job : JobRow)
  | reap (i : ℕ)
  | refresh (i : ℕ)
  | save (i : ℕ)
  | raise (i : ℕ)

section Definitions
variable (hostname : String) (pid : ℕ → ℕ)

/-- The job is on the node and not a workflow job. -/
def JobRow.ours (job : JobRow) : Bool :=
  (job.executionNode = hostname ∨ job.controllerNode = hostname) ∧ job.workflow = false

/-- The query of `reap`. -/
def JobRow.reapable (job : JobRow) (k : BoundKwargs) : Bool :=
  job.status = .running ∧ job.ours hostname ∧ job.started.any (· ≤ k.dispatchTime) ∧
    job.celeryTaskId.all (· ∉ k.activeTaskIds)

/-- A job of the node that has started, which is so for good. -/
def JobRow.begun (job : JobRow) : Bool := job.ours hostname ∧ job.started.isSome

/-- What processes other than the job's own task write: a job of the node that has started keeps
all but its status, and no other one of the node is set running. -/
def Writable (old : Option JobRow) (job : JobRow) : Prop :=
  match old.filter (JobRow.begun hostname) with
  | some row => job = { row with status := job.status }
  | none => job.ours hostname = true → job.started = none ∧ job.status ≠ .running

instance (old : Option JobRow) (job : JobRow) : Decidable (Writable hostname old job) := by
  unfold Writable
  cases old.filter (JobRow.begun hostname) <;> infer_instance

/-- A job of the node with this uuid has started. -/
def Node.hasStarted (n : Node) (u : ℕ) : Prop :=
  ∃ e ∈ n.jobs.entries, e.2.begun hostname = true ∧ e.2.celeryTaskId = some u

instance (n : Node) (u : ℕ) : Decidable (n.hasStarted hostname u) := by
  unfold Node.hasStarted
  infer_instance

/-- The uuids that a step brings in: a new message is not that of a job that has started. -/
def Event.uuids : Event → List ℕ
  | .write body _ => body.uuid.toList
  | .offer fresh => [fresh]
  | _ => []

def Event.isOffer : Event → Bool
  | .offer _ => true
  | _ => false

def Event.isGrow : Event → Bool
  | .grow _ => true
  | _ => false

/-- The message that the child of a worker has taken. -/
def takenBy (s : State) : Event → Option ℕ
  | .take i => (s.pool.find i).bind fun w => w.running.map Message.uuid
  | _ => none

/-- The worker that runs a heartbeat with these arguments, and its uuid. -/
def Node.heartbeatOf (n : Node) (i : ℕ) : Option (ℕ × BoundKwargs) := do
  let w ← n.state.pool.find i
  let m ← w.running
  let k ← n.bound.get? m.uuid
  if w.alive then some (m.uuid, k) else none

/-- The call of `reap` in a worker, while it goes on. -/
def Node.callOf (n : Node) (i : ℕ) : Option (ℕ × ReapCall) := do
  let (u, _) ← n.heartbeatOf i
  let call ← n.calls.get? u
  if u ∈ n.raised then none else some (u, call)

def Node.owedAt (n : Node) : List ℕ :=
  (n.jobs.entries.filter fun e => e.2.status = .running ∧ e.2.ours hostname ∧
    e.2.celeryTaskId.any (· ∈ n.state.lost)).map Prod.fst

namespace Node

/-- The pid of a process that lives is not given to a new one, and `put` takes time. -/
def pool (n : Node) (e : Event) (now : ℤ) : Option Node := do
  let s ← exec n.state e
  if n.clock ≤ now ∧ (e.isOffer = true → n.clock < now) ∧
      (e.isGrow = true → n.binding.isNone = true) ∧ (∀ u ∈ e.uuids, ¬ n.hasStarted hostname u) ∧
      (n.state.pool.spawned < s.pool.spawned → ∀ w ∈ n.state.pool.workers, w.alive = true →
        pid w.ident ≠ pid n.state.pool.spawned) then
    some { n with
      state := s
      clock := now
      taken := match takenBy s e with
        | some u => n.taken.set u now
        | none => n.taken }
  else none

/-- `write` up to the first half of `add_bind_kwargs`. -/
def heartbeat (n : Node) (body : Body) (preferredQueue : ℕ) (now : ℤ) : Option Node := do
  let u ← body.uuid
  let s ← exec n.state (.write body preferredQueue)
  if n.clock ≤ now ∧ ¬ n.hasStarted hostname u then
    some { n with
      state := s
      clock := now
      binding := some ⟨u, ⟨now, .empty⟩, n.state.pool.workers.map PoolWorker.ident⟩
      owed := n.owed.set u (n.owedAt hostname) }
  else none

/-- The loop of `add_bind_kwargs`. -/
def bindWorker (n : Node) : Option Node := do
  let b ← n.binding
  match b.rest with
  | [] => some { n with bound := n.bound.set b.uuid b.kwargs, binding := none }
  | i :: rest =>
    let w ← n.state.pool.find i
    let w' := w.calculateManagedTasks
    let workerTasks := b.kwargs.workerTasks.set (pid i) w'.managedTasks.keys
    some { n with
      state := { n.state with pool := n.state.pool.setWorker w' }
      binding := some ⟨b.uuid, { b.kwargs with workerTasks }, rest⟩ }

/-- The task of a job sets it running, or a project sync that it creates; the time is that of
`now()` in `save`, at some point since the message was taken. -/
def start (n : Node) (i pk : ℕ) (job : JobRow) (time : ℤ) : Option Node := do
  let w ← n.state.pool.find i
  let m ← w.running
  let since ← n.taken.get? m.uuid
  if w.alive = true ∧ since ≤ time ∧ time ≤ n.clock then
    match n.jobs.get? pk with
    | some row =>
      if row.celeryTaskId = some m.uuid ∧ row.ours hostname = true then
        some { n with
          jobs := n.jobs.set pk
            { row with status := .running, started := some (row.started.getD time) } }
      else none
    | none => some { n with
        jobs := n.jobs.set pk { job with
          status := .running, started := some time, celeryTaskId := some m.uuid
          executionNode := hostname, controllerNode := hostname, workflow := false } }
  else none

def store (n : Node) (pk : ℕ) (job : JobRow) : Option Node :=
  if Writable hostname (n.jobs.get? pk) job then some { n with jobs := n.jobs.set pk job } else none

/-- The query of `reap`. -/
def reap (n : Node) (i : ℕ) : Option Node := do
  let (u, k) ← n.heartbeatOf i
  match n.calls.get? u with
  | some _ => none
  | none =>
    let todo := (n.jobs.entries.filter fun e => e.2.reapable hostname k).map Prod.fst
    let gone := ((n.owed.get? u).getD []).filter fun pk => pk ∉ todo
    some { n with
      calls := n.calls.set u ⟨todo, false⟩
      ended := n.ended ++ gone.map fun pk => (u, pk) }

/-- `reap_job` up to the test of the status. -/
def refresh (n : Node) (i : ℕ) : Option Node := do
  let (u, call) ← n.callOf i
  match call.todo, call.refreshed with
  | pk :: pks, false =>
    let row ← n.jobs.get? pk
    if row.status = .running ∨ row.status = .waiting then
      some { n with calls := n.calls.set u ⟨pk :: pks, true⟩ }
    else
      some { n with calls := n.calls.set u ⟨pks, false⟩, ended := n.ended ++ [(u, pk)] }
  | _, _ => none

/-- The `save` of `reap_job`. -/
def save (n : Node) (i : ℕ) : Option Node := do
  let (u, call) ← n.callOf i
  match call.todo, call.refreshed with
  | pk :: pks, true =>
    let row ← n.jobs.get? pk
    some { n with
      jobs := n.jobs.set pk { row with status := .failed }
      calls := n.calls.set u ⟨pks, false⟩
      failed := n.failed ++ [(u, pk)] }
  | _, _ => none

def raise (n : Node) (i : ℕ) : Option Node := do
  let (u, _) ← n.callOf i
  some { n with raised := n.raised ++ [u] }

def exec (n : Node) : NodeEvent → Option Node
  | .pool e now => n.pool hostname pid e now
  | .heartbeat body preferredQueue now => n.heartbeat hostname body preferredQueue now
  | .bindWorker => n.bindWorker pid
  | .start i pk job time => n.start hostname i pk job time
  | .store pk job => n.store hostname pk job
  | .reap i => n.reap hostname i
  | .refresh i => n.refresh i
  | .save i => n.save i
  | .raise i => n.raise i

/-- The dispatcher has just started. -/
def initial (s : State) (clock : ℤ) (jobs : Dict ℕ JobRow) : Node :=
  ⟨s, clock, jobs, none, .empty, .empty, [], .empty, .empty, [], []⟩

end Node

/-- No process that lives shares its pid with one that started later. -/
def PidsApart (s : State) : Prop :=
  ∀ w ∈ s.pool.workers, ∀ w' ∈ s.pool.workers, w.ident < w'.ident → w.alive = true →
    pid w.ident ≠ pid w'.ident

/-- All runs of the dispatcher of a node; at the start no job of the node is running. -/
def node : System Node NodeEvent where
  init n := ∃ s clock jobs, dispatcher.init s ∧ PidsApart pid s ∧ n = .initial s clock jobs ∧
    ∀ pk row, jobs.get? pk = some row → row.ours hostname = true →
      row.status ≠ .running ∧ ∀ t ∈ row.started, t ≤ clock
  step n e n' := n.exec hostname pid e = some n'

end Definitions

end Forail.Dispatch
