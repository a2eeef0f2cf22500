import Forail.Base.Keyed
import Forail.Base.Runs
import Forail.Dispatch.PoolWorker

/-! The autoscaling pool of the dispatcher as a transition system. The parent runs `write`
and `cleanup` one after the other; its state says where in them it is, and between any two
of its steps the children may take and finish messages and may die. Every queue has room. -/

namespace Forail.Dispatch

structure AutoscalePool where
  workers : List PoolWorker
  minWorkers : ℕ
  maxWorkers : ℕ
  taskManagerTimeout : ℤ
  scaleUpCt : ℕ
  workerCountMax : ℕ
  /-- The identity of the next worker object. -/
  spawned : ℕ

namespace AutoscalePool

def full (p : AutoscalePool) : Bool := p.workers.length == p.maxWorkers

/-- A full pool spawns nothing. -/
def up (p : AutoscalePool) : AutoscalePool :=
  if p.full then p
  else { p with
    workers := p.workers ++ [.start p.spawned]
    scaleUpCt := p.scaleUpCt + 1
    workerCountMax := max p.workerCountMax (p.workers.length + 1)
    spawned := p.spawned + 1 }

/-- Below the minimum no worker is asked. -/
def shouldGrow (p : AutoscalePool) : Bool × AutoscalePool :=
  if p.workers.length < p.minWorkers then (true, p)
  else (p.workers.all fun w => w.busy.1, { p with workers := p.workers.map fun w => w.busy.2 })

/-- The first statement of `write`. -/
def grown (p : AutoscalePool) : AutoscalePool :=
  if p.shouldGrow.1 then p.shouldGrow.2.up else p.shouldGrow.2

def initWorkers (minWorkers maxWorkers : ℕ) (taskManagerTimeout : ℤ) : AutoscalePool :=
  Nat.repeat up minWorkers ⟨[], minWorkers, max minWorkers maxWorkers, taskManagerTimeout, 0, 0, 0⟩

def find (p : AutoscalePool) (i : ℕ) : Option PoolWorker := Keyed.find PoolWorker.ident p.workers i

def setWorker (p : AutoscalePool) (w : PoolWorker) : AutoscalePool :=
  { p with workers := Keyed.modify PoolWorker.ident p.workers w.ident fun _ => w }

def removeWorker (p : AutoscalePool) (i : ℕ) : AutoscalePool :=
  { p with workers := Keyed.remove PoolWorker.ident p.workers i }

/-- `WorkerPool.write` tries the preferred worker first, else the first one. -/
def preferred (p : AutoscalePool) (preferredQueue : ℕ) : Option PoolWorker :=
  if preferredQueue < p.workers.length then p.workers[preferredQueue]? else p.workers.head?

end AutoscalePool

/-- Where the parent is: outside, in `write` before `should_grow` or before the next worker of
the shuffled list, in the loop of `cleanup` before a worker or past its `alive` test, or in
the loop that writes the orphans. -/
inductive Phase
  | idle
  | growing (body : Body) (preferredQueue : ℕ) (orphaned : List Body)
  | offering (body : Body) (preferredQueue : ℕ) (order : List ℕ) (orphaned : List Body)
  | scanning (rest : List ℕ) (orphaned : List Body)
  | checking (i : ℕ) (rest : List ℕ) (orphaned : List Body)
  | requeuing (orphaned : List Body)
  deriving DecidableEq

namespace Phase

/-- The loop over the orphans goes on, or `cleanup` or `write` returns. -/
def requeue : List Body → Phase
  | [] => .idle
  | b :: bs => .requeuing (b :: bs)

def scan : List ℕ → List Body → Phase
  | [], orphaned => requeue orphaned
  | i :: rest, orphaned => .scanning (i :: rest) orphaned

/-- The messages with a uuid that the parent holds. -/
def hand : Phase → List ℕ
  | .idle => []
  | .growing body _ orphaned | .offering body _ _ orphaned =>
    body.uuid.toList ++ orphaned.filterMap Body.uuid
  | .scanning _ orphaned | .checking _ _ orphaned | .requeuing orphaned =>
    orphaned.filterMap Body.uuid

end Phase

/-- `written`, `done` and `lost` hold the uuids of the messages that `write` got, that a child
finished, and that a child ran which died and was reaped; `reaps` the calls of `reap_job`
with the uuid and the job; the last two the uuids reaped and drained in one `cleanup`. -/
structure State where
  pool : AutoscalePool
  phase : Phase
  retired : List PoolWorker
  signalled : List ℕ
  written : List ℕ
  done : List ℕ
  lost : List ℕ
  reaps : List (ℕ × ℕ)
  passReaped : List ℕ
  passRequeued : List ℕ

inductive Event
  | write (body : Body) (preferredQueue : ℕ)
  | grow (order : List ℕ)
  | offer (fresh : ℕ)
  | cleanup
  | visit (jobs : List ℕ)
  | check (now : ℤ)
  | requeue (idx : ℕ)
  | take (i : ℕ)
  | finish (i : ℕ)
  | die (i : ℕ)

/-- `put`, which stamps a message without a uuid. -/
def deliver (s : State) (w : PoolWorker) (body : Body) (fresh : ℕ) (orphaned : List Body) : State :=
  { s with
    pool := s.pool.setWorker (w.put (body.stamp fresh))
    phase := .requeue orphaned
    written := if body.uuid = none then s.written ++ [fresh] else s.written }

/-- The branch of `cleanup` for a worker whose process is gone: a call of `reap_job` for each
job of its current task, and its orphans. -/
def recover (s : State) (w : PoolWorker) (rest : List ℕ) (orphaned : List Body) (jobs : List ℕ) :
    State :=
  let (current, w') := w.currentTask
  let (orphans, _) := w'.orphanedTasks
  let calls := (current.map fun t => jobs.map fun j => (t.message.uuid, j)).getD []
  { s with
    pool := s.pool.removeWorker w.ident
    phase := .scan rest (orphaned ++ orphans)
    lost := s.lost ++ w.inWork
    reaps := s.reaps ++ calls
    passReaped := s.passReaped ++ calls.map Prod.fst
    passRequeued := s.passRequeued ++ orphans.filterMap Body.uuid }

/-- The rest of the loop body for a worker that was alive: scale down, else the timeout. -/
def keep (s : State) (w : PoolWorker) (rest : List ℕ) (orphaned : List Body) (now : ℤ) : State :=
  let (busy, w') := w.busy
  if !busy && decide (s.pool.minWorkers < s.pool.workers.length) then
    { s with
      pool := s.pool.removeWorker w.ident
      phase := .scan rest orphaned
      retired := s.retired ++ [w'.quit] }
  else if w.alive then
    let (signal, w'') := w'.checkTimeout s.pool.taskManagerTimeout now
    { s with
      pool := s.pool.setWorker w''
      phase := .scan rest orphaned
      signalled := if signal then s.signalled ++ [w.ident] else s.signalled }
  else { s with pool := s.pool.setWorker w', phase := .scan rest orphaned }

/-- One step of the parent, or of a child; no result where it is not possible. -/
def exec (s : State) : Event → Option State
  | .write body preferredQueue =>
    if s.phase = .idle ∧ ∀ u ∈ body.uuid, u ∉ s.written then
      some { s with
        phase := .growing body preferredQueue []
        written := s.written ++ body.uuid.toList }
    else none
  | .grow order =>
    match s.phase with
    | .growing body preferredQueue orphaned =>
      if order.Perm (s.pool.grown.workers.map PoolWorker.ident) then
        some { s with
          pool := s.pool.grown
          phase := .offering body preferredQueue order orphaned }
      else none
    | _ => none
  | .offer fresh =>
    match s.phase with
    | .offering body preferredQueue order orphaned =>
      if body.uuid = none ∧ fresh ∈ s.written then none
      else match order with
        | i :: order => do
          let w ← s.pool.find i
          let (busy, w') := w.busy
          if busy then
            some { s with
              pool := s.pool.setWorker w'
              phase := .offering body preferredQueue order orphaned }
          else some (deliver s w' body fresh orphaned)
        | [] =>
          match s.pool.preferred preferredQueue with
          | some w => some (deliver s w body fresh orphaned)
          | none => some { s with phase := .requeue orphaned }
    | _ => none
  | .cleanup =>
    if s.phase = .idle then
      some { s with
        phase := .scan (s.pool.workers.map PoolWorker.ident) []
        passReaped := []
        passRequeued := [] }
    else none
  | .visit jobs =>
    match s.phase with
    | .scanning (i :: rest) orphaned => do
      let w ← s.pool.find i
      if w.alive then some { s with phase := .checking i rest orphaned }
      else some (recover s w rest orphaned jobs)
    | _ => none
  | .check now =>
    match s.phase with
    | .checking i rest orphaned => do
      let w ← s.pool.find i
      some (keep s w rest orphaned now)
    | _ => none
  | .requeue idx =>
    match s.phase with
    | .requeuing (body :: orphaned) =>
      let pool := if s.pool.workers.isEmpty then s.pool.up else s.pool
      if idx < pool.workers.length then
        some { s with pool := pool, phase := .growing body idx orphaned }
      else none
    | _ => none
  | .take i => do
    let w ← s.pool.find i
    let w' ← w.take
    some { s with pool := s.pool.setWorker w' }
  | .finish i => do
    let w ← s.pool.find i
    let (u, w') ← w.finish
    some { s with pool := s.pool.setWorker w', done := s.done ++ [u] }
  | .die i => do
    let w ← s.pool.find i
    let w' ← w.die
    some { s with pool := s.pool.setWorker w' }

/-- All runs of a pool with at least one worker. -/
def dispatcher : System State Event where
  init s := ∃ minWorkers maxWorkers timeout, 0 < minWorkers ∧
    s = ⟨.initWorkers minWorkers maxWorkers timeout, .idle, [], [], [], [], [], [], [], []⟩
  step s e s' := exec s e = some s'

end Forail.Dispatch
