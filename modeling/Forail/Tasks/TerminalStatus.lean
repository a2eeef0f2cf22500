import Forail.Base.Dict
import Forail.Base.Register
import Forail.Base.Runs
import Forail.Models.UnifiedJob

/-! The writers of a job's status. The task, the reaper, the cancellation and the task manager
each test a copy of the row and save later; the task also saves at its end, without a test. What
another one has stored as terminal meanwhile is then overwritten. -/

namespace Forail.TerminalStatus

/-- The columns that the writers read to decide what status they save. -/
structure UnifiedJob where
  status : Status
  cancelFlag : Bool
  celeryTaskId : Option ℕ

inductive Writer
  | run
  | reapJob
  | cancel
  | startTask
  deriving DecidableEq

/-- What the runner leaves; nothing when the output could not be processed, and `quota` when the
pod could not be started. -/
inductive Result
  | nothing | quota | successful | failed | error | timeout | canceled

/-- Where a writer is. All begin with a copy; the phases of `run` are from `cancelingAtStart`
to `final`, then come those of `reap_job`, `cancel` and `start_task`. -/
inductive Phase
  | loaded
  | cancelingAtStart
  | starting
  | preparing (inst : UnifiedJob)
  | hookFailed (status : Status)
  | canceling
  | rereading
  | working
  | requeuing
  | ending (status : Status)
  | final (status : Status)
  | reaping
  | flagging
  | notifying
  | cancelUnnotified
  | started (status : Status) (celeryTaskId : Option ℕ)
  | ended

structure Process where
  writer : Writer
  copy : Register.Copy UnifiedJob
  phase : Phase

structure State where
  row : Register UnifiedJob
  processes : Dict ℕ Process

inductive Event
  | load (i : ℕ) (writer : Writer)
  | test (i : ℕ)
  | preStart (i : ℕ) (ok : Bool) (uuid : ℕ)
  | reload (i : ℕ)
  | hookFails (i : ℕ) (status : Status)
  | raises (i : ℕ)
  | prepared (i : ℕ) (signal : Bool)
  | reread (i : ℕ)
  | result (i : ℕ) (result : Result)
  | postRun (i : ℕ) (error : Option Status)
  | notify (i : ℕ) (acknowledged : Bool)
  | save (i : ℕ)

/-- `CAN_CANCEL`. -/
def canCancel : Status → Bool
  | .new | .pending | .waiting | .running => true
  | .successful | .failed | .error | .canceled => false

/-- The tests that writers make on the copy they have loaded. -/
def Process.test (p : Process) : Phase :=
  let inst := p.copy.value
  match p.writer with
  | .run =>
    if inst.status ≠ .canceled ∧ inst.cancelFlag then .cancelingAtStart
    else if !inst.status.active then .ended
    else .starting
  | .reapJob => if inst.status ≠ .running ∧ inst.status ≠ .waiting then .ended else .reaping
  | .cancel =>
    if !canCancel inst.status then .ended
    else if inst.cancelFlag then .notifying
    else .flagging
  | .startTask => p.phase

/-- The status at the end of `run`; a cancellation without the flag is a shutdown. -/
def Result.phase (row : UnifiedJob) : Result → Phase
  | .nothing => .ended
  | .quota => .requeuing
  | .successful => .ending .successful
  | .failed => .ending .failed
  | .error => .ending .error
  | .timeout => .ending .failed
  | .canceled => .ending (if row.cancelFlag then .canceled else .failed)

/-- The status that the next save stores. -/
def Phase.written : Phase → Option Status
  | .cancelingAtStart | .canceling | .cancelUnnotified => some .canceled
  | .starting => some .running
  | .hookFailed status | .final status | .started status _ => some status
  | .requeuing => some .pending
  | .reaping => some .failed
  | _ => none

/-- The row after the next save, and how the writer goes on; `start_task` saves all columns of
its copy. -/
def Phase.save (copy row : UnifiedJob) : Phase → Option (UnifiedJob × Phase)
  | .cancelingAtStart => some ({ row with status := .canceled }, .ended)
  | .starting => some ({ row with status := .running }, .preparing { row with status := .running })
  | .hookFailed status => some ({ row with status := status }, .ending .error)
  | .canceling => some ({ row with status := .canceled }, .rereading)
  | .requeuing => some ({ row with status := .pending }, .ended)
  | .final status => some ({ row with status := status }, .ended)
  | .reaping => some ({ row with status := .failed }, .ended)
  | .flagging => some ({ row with cancelFlag := true }, .notifying)
  | .cancelUnnotified => some ({ row with status := .canceled }, .ended)
  | .started status uuid => some ({ copy with status := status, celeryTaskId := uuid }, .ended)
  | _ => none

section Runs
variable (isWorkflow : Bool)

/-- The next phase of a writer, when the event is one that it can meet. -/
def Process.next (p : Process) (row : UnifiedJob) : Event → Option Phase
  | .test _ => match p.phase with
    | .loaded => some p.test
    | _ => none
  | .preStart _ ok uuid => match p.writer, p.phase with
    | .startTask, .loaded =>
      if !ok then some (.started .failed p.copy.value.celeryTaskId)
      else some (.started (if isWorkflow then .running else .waiting) (some uuid))
    | _, _ => none
  | .reload _ => match p.phase with
    | .preparing _ => some (.preparing row)
    | _ => none
  | .hookFails _ status => match p.phase with
    | .preparing _ => if status = .failed ∨ status = .error then some (.hookFailed status) else none
    | _ => none
  | .raises _ => match p.phase with
    | .preparing _ | .working => some (.ending .error)
    | _ => none
  | .prepared _ signal => match p.phase with
    | .preparing inst =>
      if inst.cancelFlag ∨ signal then some .canceling
      else if inst.status ≠ .running then some .rereading
      else some .working
    | _ => none
  | .reread _ => match p.phase with
    | .rereading => some (.ending row.status)
    | _ => none
  | .result _ result => match p.phase with
    | .working => some (result.phase row)
    | _ => none
  | .postRun _ error => match p.phase with
    | .ending status => some (.final (if status = .successful then error.getD status else status))
    | _ => none
  | .notify _ acknowledged => match p.phase with
    | .notifying =>
      if p.copy.value.celeryTaskId.isSome ∧ acknowledged then some .ended
      else if p.copy.value.status ≠ .canceled then some .cancelUnnotified
      else some .ended
    | _ => none
  | .load _ _ | .save _ => none

/-- The writer of an event. -/
def Event.process : Event → ℕ
  | .load i _ | .test i | .preStart i _ _ | .reload i | .hookFails i _ | .raises i | .prepared i _
  | .reread i | .result i _ | .postRun i _ | .notify i _ | .save i => i

def exec (s : State) (e : Event) : Option State :=
  match e with
  | .load i writer =>
    if s.processes.get? i = none ∧ (writer = .startTask → s.row.value.status = .pending) ∧
        (writer = .run → isWorkflow = false) then
      some { s with processes := s.processes.set i ⟨writer, s.row.read, .loaded⟩ }
    else none
  | .save i => do
    let p ← s.processes.get? i
    let (row, phase) ← p.phase.save p.copy.value s.row.value
    some ⟨s.row.store row, s.processes.set i { p with phase := phase }⟩
  | e => do
    let p ← s.processes.get? e.process
    let phase ← p.next isWorkflow s.row.value e
    some { s with processes := s.processes.set e.process { p with phase := phase } }

/-- All interleavings of writers on a job. -/
def writers : System State Event where
  init s := ∃ row, s = ⟨⟨row, []⟩, .empty⟩
  step s e s' := exec isWorkflow s e = some s'

/-- Once terminal, the stored status stays. -/
def TerminalFinal (s : State) : Prop := s.row.Final UnifiedJob.status (·.terminal = true)

/-- No terminal status but the one that is saved is in the copy that the writer has loaded and
tested, or was stored since. -/
def Untouched (s : State) : Event → Prop
  | .save i => ∀ p ∈ s.processes.get? i, ∀ status ∈ p.phase.written,
    ∀ a ∈ p.copy.value :: s.row.since p.copy, a.status.terminal = true → status = a.status
  | _ => True

instance (s : State) (e : Event) : Decidable (Untouched s e) := by
  cases e <;> unfold Untouched <;> infer_instance

variable {isWorkflow} {s s' : State} {e : Event}

theorem save_status {phase phase' : Phase} {copy row row' : UnifiedJob}
    (h : phase.save copy row = some (row', phase')) :
    phase.written = some row'.status ∨ phase.written = none ∧ row'.status = row.status := by
  cases phase <;> cases h <;> first | exact .inl rfl | exact .inr ⟨rfl, rfl⟩

def CopiesValid (s : State) : Prop := ∀ i p, s.processes.get? i = some p → s.row.Valid p.copy

/-- A step changes one writer, whose copy was read at some time, or saves. -/
theorem exec_cases (hc : CopiesValid s) (hs : exec isWorkflow s e = some s') :
    (∃ i p, s' = { s with processes := s.processes.set i p } ∧ s.row.Valid p.copy ∧
      ∀ j, e ≠ .save j) ∨
    ∃ i p row phase, e = .save i ∧ s.processes.get? i = some p ∧
      p.phase.save p.copy.value s.row.value = some (row, phase) ∧
      s' = ⟨s.row.store row, s.processes.set i { p with phase := phase }⟩ := by
  have hnext (he : ∀ j, e ≠ .save j) (hs : (s.processes.get? e.process).bind (fun p =>
      (p.next isWorkflow s.row.value e).bind fun phase =>
        some { s with processes := s.processes.set e.process { p with phase := phase } }) = some s') :
      ∃ i p, s' = { s with processes := s.processes.set i p } ∧ s.row.Valid p.copy ∧
        ∀ j, e ≠ .save j := by
    obtain ⟨p, hp, hs⟩ := Option.bind_eq_some_iff.mp hs
    obtain ⟨phase, -, hs⟩ := Option.bind_eq_some_iff.mp hs
    exact ⟨_, _, (Option.some.inj hs).symm, hc _ p hp, he⟩
  cases e with
  | load i writer =>
    obtain ⟨-, hs⟩ := Option.ite_none_right_eq_some.mp hs
    exact .inl ⟨i, _, (Option.some.inj hs).symm, Register.valid_read, nofun⟩
  | save i =>
    obtain ⟨p, hp, hs⟩ := Option.bind_eq_some_iff.mp hs
    obtain ⟨⟨row, phase⟩, hsave, hs⟩ := Option.bind_eq_some_iff.mp hs
    exact .inr ⟨i, p, row, phase, rfl, hp, hsave, (Option.some.inj hs).symm⟩
  | _ => exact .inl (hnext nofun hs)

theorem copiesValid (h : (writers isWorkflow).Reachable s) : CopiesValid s := by
  refine h.invariant ?_ fun s e s' _ hi hs => ?_
  · rintro _ ⟨row, rfl⟩ i p hp
    cases hp
  · rcases exec_cases hi hs with ⟨i, p, rfl, hv, -⟩ | ⟨i, p, row, phase, -, hp, -, rfl⟩
    · intro j q hq
      rcases Dict.of_get?_set hq with ⟨-, rfl⟩ | ⟨-, hq⟩
      · exact hv
      · exact hi j q hq
    · intro j q hq
      rcases Dict.of_get?_set hq with ⟨-, rfl⟩ | ⟨-, hq⟩
      · exact (hi i p hp).store
      · exact (hi j q hq).store

theorem terminalFinal_step_iff (hc : CopiesValid s) (h : TerminalFinal s)
    (hs : exec isWorkflow s e = some s') : TerminalFinal s' ↔ Untouched s e := by
  rcases exec_cases hc hs with ⟨i, p, rfl, -, he⟩ | ⟨i, p, row, phase, rfl, hp, hsave, rfl⟩
  · refine iff_of_true h ?_
    cases e with
    | save j => exact absurd rfl (he j)
    | _ => trivial
  · rcases save_status hsave with hw | ⟨hw, heq⟩
    · refine ((hc i p hp).final_store_iff h).trans ⟨fun hall p' hp' status hst => ?_, fun hu => ?_⟩
      · obtain rfl := Option.some.inj (hp.symm.trans hp')
        obtain rfl := Option.some.inj (hw.symm.trans hst)
        exact hall
      · exact hu p hp row.status hw
    · refine iff_of_true (h.store_same heq) fun p' hp' status hst => ?_
      obtain rfl := Option.some.inj (hp.symm.trans hp')
      cases hw.symm.trans hst

end Runs

/-! ### A job whose node is taken for lost -/

def pendingJob : State := ⟨⟨⟨.pending, false, none⟩, []⟩, .empty⟩

/-- Started and run up to the result. -/
def runSteps : List Event :=
  [.load 0 .startTask, .preStart 0 true 1, .save 0, .load 1 .run, .test 1, .save 1, .prepared 1 false,
    .result 1 .successful, .postRun 1 none]

end Forail.TerminalStatus
