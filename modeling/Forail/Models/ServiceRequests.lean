import Forail.Base.Dict
import Forail.Base.Register
import Forail.Base.Runs
import Forail.Models.UnifiedJob
import Mathlib.Data.Int.Notation

/-! Requests of the self-service portal. Submit, approve, reject and delete load the row, test
its status on their copy and save some columns; the job that a request launches writes its own
status there. A request that is decided on an old copy launches a second time. -/

namespace Forail.ServiceRequests

structure User where
  id : ℕ
  isAuthenticated : Bool
  isSuperuser : Bool

/-- A `ServiceCatalogItem`, with the members of its approver team and the admins of its
organization. -/
structure CatalogItem where
  requiresApproval : Bool
  hasTemplate : Bool
  approverTeam : Option (List ℕ)
  organization : Option (List ℕ)

inductive RequestStatus
  | pendingApproval | approved | rejected | running | successful | failed | canceled
  deriving DecidableEq

/-- `TERMINAL_STATUSES`. -/
def RequestStatus.terminal : RequestStatus → Bool
  | .rejected | .successful | .failed | .canceled => true
  | .pendingApproval | .approved | .running => false

/-- The columns of a `ServiceRequest` that its lifecycle reads or writes. -/
structure ServiceRequest where
  status : RequestStatus
  approvedBy : Option ℕ
  approvedAt : Option ℤ
  rejectionReason : String
  unifiedJob : Option ℕ

def canUserApprove (item : CatalogItem) (user : User) : Bool :=
  if !user.isAuthenticated then false
  else if user.isSuperuser then true
  else match item.approverTeam with
    | some team => user.id ∈ team
    | none => match item.organization with
      | none => false
      | some admins => user.id ∈ admins

/-- The `mapping` of `sync_status_from_job`. -/
def mirrored : Status → Option RequestStatus
  | .successful => some .successful
  | .failed | .error => some .failed
  | .canceled => some .canceled
  | .new | .pending | .waiting | .running => none

inductive Writer
  | submit
  | approve (user : User)
  | reject (user : User) (reason : String)
  | delete
  | sync (job : ℕ)

/-- Writers that load the row for a request of a user. -/
def Writer.loads : Writer → Bool
  | .approve _ | .reject _ _ | .delete => true
  | .submit | .sync _ => false

/-- `launching`, `failing` and `launched` are in `_launch`: before the job is created, before
`failed` is saved, and before the link to the job is saved. -/
inductive Phase
  | loaded
  | allowed
  | launching
  | failing
  | launched (job : ℕ)
  | syncing (status : RequestStatus)
  | finished
  | refused
  | raised
  deriving DecidableEq

def Phase.inLaunch : Phase → Bool
  | .launching | .failing | .launched _ => true
  | _ => false

structure Process where
  writer : Writer
  copy : ServiceRequest
  phase : Phase

/-- `handlers` lists the jobs whose save as ended the receiver has not yet handled, `approvals`
the users whose approval was saved. -/
structure State where
  row : Register ServiceRequest
  deleted : Bool
  jobs : Dict ℕ Status
  handlers : List ℕ
  processes : Dict ℕ Process
  approvals : List User

inductive Event
  | load (i : ℕ) (writer : Writer)
  | test (i : ℕ)
  | save (i : ℕ) (now : ℤ)
  | delete (i : ℕ)
  | createUnifiedJob (i : ℕ) (job : Option ℕ)
  | saveJob (job : ℕ) (status : Status)
  | query (i job : ℕ)

section Runs
variable (item : CatalogItem)

/-- What the tests of a writer on its copy lead to. -/
def Process.test (jobs : Dict ℕ Status) (p : Process) : Phase :=
  match p.writer with
  | .submit => .allowed
  | .approve user | .reject user _ =>
    if p.copy.status ≠ .pendingApproval then .refused
    else if !canUserApprove item user then .refused
    else .allowed
  | .delete =>
    if p.copy.status ≠ .pendingApproval ∧ p.copy.status ≠ .rejected then .refused else .allowed
  | .sync _ =>
    if p.copy.status.terminal then .finished
    else match (p.copy.unifiedJob.bind jobs.get?).bind mirrored with
      | some status => .syncing status
      | none => .finished

/-- The row after the next save of a writer, and how it goes on. -/
def Process.saved (p : Process) (now : ℤ) (row : ServiceRequest) : Option (ServiceRequest × Phase) :=
  match p.phase, p.writer with
  | .allowed, .submit =>
    if item.requiresApproval then some ({ row with status := .pendingApproval }, .finished)
    else some ({ row with status := .approved, approvedAt := some now }, .launching)
  | .allowed, .approve user =>
    let row := { row with approvedBy := some user.id, approvedAt := some now, status := .approved }
    some (row, .launching)
  | .allowed, .reject user reason =>
    let row := { row with
      approvedBy := some user.id
      approvedAt := some now
      rejectionReason := reason
      status := .rejected }
    some (row, .finished)
  | .failing, _ => some ({ row with status := .failed }, .finished)
  | .launched job, _ => some ({ row with unifiedJob := some job, status := .running }, .finished)
  | .syncing status, _ => some ({ row with status := status }, .finished)
  | _, _ => none

/-- The user whose approval the next save stores. -/
def Process.approval (p : Process) : List User :=
  match p.phase, p.writer with
  | .allowed, .approve user => [user]
  | _, _ => []

def Process.goOn (p : Process) (s : State) (i : ℕ) (phase : Phase) : State :=
  { s with processes := s.processes.set i { p with phase := phase } }

/-- One step. A save of a row that was deleted raises. -/
def exec (s : State) : Event → Option State
  | .load i writer =>
    if s.processes.get? i = none ∧ s.deleted = false ∧ writer.loads then
      some { s with processes := s.processes.set i ⟨writer, s.row.value, .loaded⟩ }
    else none
  | .test i => do
    let p ← s.processes.get? i
    if p.phase = .loaded then some (p.goOn s i (p.test item s.jobs)) else none
  | .save i now => do
    let p ← s.processes.get? i
    let (row, phase) ← p.saved item now s.row.value
    if s.deleted then some (p.goOn s i .raised)
    else some { p.goOn s i phase with
      row := s.row.store row
      approvals := s.approvals ++ p.approval }
  | .delete i => do
    let p ← s.processes.get? i
    let .delete := p.writer | none
    if p.phase = .allowed then some { p.goOn s i .finished with deleted := true } else none
  | .createUnifiedJob i job => do
    let p ← s.processes.get? i
    if p.phase = .launching then
      match job with
      | none => some (p.goOn s i .failing)
      | some job =>
        if item.hasTemplate ∧ job ∉ s.jobs.keys then
          some { p.goOn s i (.launched job) with jobs := s.jobs.set job .new }
        else none
    else none
  | .saveJob job status =>
    if job ∈ s.jobs.keys then
      let handlers := if status.terminal then s.handlers ++ [job] else s.handlers
      some { s with jobs := s.jobs.set job status, handlers := handlers }
    else none
  | .query i job =>
    if s.processes.get? i = none ∧ job ∈ s.handlers then
      let s := { s with handlers := s.handlers.erase job }
      if s.deleted = false ∧ s.row.value.unifiedJob = some job ∧ !s.row.value.status.terminal then
        some { s with processes := s.processes.set i ⟨.sync job, s.row.value, .loaded⟩ }
      else some s
    else none

/-- The row that `create` stores, with the default status. -/
def created : ServiceRequest := ⟨.pendingApproval, none, none, "", none⟩

/-- The submit process has created the row. -/
def submitted : State :=
  ⟨⟨created, []⟩, false, .empty, [], Dict.empty.set 0 ⟨.submit, created, .loaded⟩, []⟩

/-- All runs on one request of an item. -/
def serviceRequests : System State Event where
  init s := s = submitted
  step s e s' := exec item s e = some s'

/-- One job at most, after an approval if the item requires one, none for a request that is
rejected, and a terminal status that stays. -/
structure Lifecycle (s : State) : Prop where
  one : s.jobs.keys.length ≤ 1
  approved : item.requiresApproval = true → s.jobs.keys ≠ [] →
    ∃ user ∈ s.approvals, canUserApprove item user = true
  rejected : ∀ a ∈ s.row.stores, a.status = .rejected → s.jobs.keys = []
  final : ∀ a ∈ s.row.stores, a.status.terminal = true → s.row.value.status = a.status

/-- The stored status still passes the test that the writer has made on its copy. -/
def Process.Current (p : Process) (row : ServiceRequest) : Prop :=
  match p.phase with
  | .allowed => row.status = .pendingApproval
  | .syncing status => row.status.terminal = true → row.status = status
  | _ => True

/-- Submit, approve and reject save while the stored status is pending, and the status of the
job is mirrored while the stored one is not terminal, or is the same. -/
def Current (s : State) : Event → Prop
  | .save i _ => ∀ p ∈ s.processes.get? i, s.deleted = false → p.Current s.row.value
  | _ => True

instance (p : Process) (row : ServiceRequest) : Decidable (p.Current row) := by
  unfold Process.Current
  cases p.phase <;> dsimp only <;> infer_instance

instance (s : State) (e : Event) : Decidable (Current s e) := by
  cases e <;> unfold Current <;> infer_instance

end Runs

end Forail.ServiceRequests
