import Mathlib.Data.Bool.Basic
import Mathlib.Data.List.Basic

/-! `task_manager_bulk_reschedule`: while a context is open, requests to run a manager are noted, and
passed on when the context is left. A context in another one drops what it should pass on. -/

namespace Forail.Scheduler

namespace BulkReschedule

inductive Manager
  | taskManager | workflowManager | dependencyManager
  deriving DecidableEq

/-- The managers of a context, in the order in which it is left. -/
def managers : List Manager := [.taskManager, .workflowManager, .dependencyManager]

/-- The thread-local data of one manager; a missing attribute reads as `False`. -/
structure Flags where
  bulkReschedule : Bool := false
  needsScheduling : Bool := false
  deriving DecidableEq

abbrev Local := Manager → Flags

/-- `ScheduleManager.schedule`, and whether it has called `_schedule`. -/
def schedule (flags : Flags) : Flags × Bool :=
  if flags.bulkReschedule then ({ flags with needsScheduling := true }, false) else (flags, true)

/-- The part of the context before `yield`, for one manager. -/
def enter (_ : Flags) : Flags := ⟨true, false⟩

/-- The `finally` part for one manager; the context keeps the flags that it found. -/
def leave (previous flags : Flags) : Flags × Bool :=
  let flags := { flags with bulkReschedule := previous.bulkReschedule }
  let (flags, scheduled) := if flags.needsScheduling then schedule flags else (flags, false)
  ({ flags with needsScheduling := previous.needsScheduling }, scheduled)

/-- What a thread does, as far as the managers notice it. An exception ends the contexts that it
leaves in the same way as their last statement does. -/
inductive Program
  | done
  | schedule (manager : Manager) (rest : Program)
  | bulk (body rest : Program)

namespace Program

/-- The managers that `leave` runs `_schedule` for. -/
def leaveAll (previous flags : Local) : Local × List Manager :=
  (fun m => (leave (previous m) (flags m)).1,
    managers.filter fun m => (leave (previous m) (flags m)).2)

/-- The flags afterwards, and the calls of `_schedule`. -/
def run : Program → Local → Local × List Manager
  | done, flags => (flags, [])
  | schedule m rest, flags =>
    let (flag, scheduled) := BulkReschedule.schedule (flags m)
    let (flags, calls) := rest.run (Function.update flags m flag)
    (flags, if scheduled then m :: calls else calls)
  | bulk body rest, flags =>
    let (inside, callsInside) := body.run fun m => enter (flags m)
    let (left, callsLeaving) := leaveAll flags inside
    let (flags, calls) := rest.run left
    (flags, callsInside ++ callsLeaving ++ calls)

/-- `schedule` is called on the manager, in whatever context. -/
def Calls (m : Manager) : Program → Prop
  | done => False
  | schedule m' rest => m' = m ∨ rest.Calls m
  | bulk body rest => body.Calls m ∨ rest.Calls m

/-- It is called outside of every context. -/
def CallsDirectly (m : Manager) : Program → Prop
  | done => False
  | schedule m' rest => m' = m ∨ rest.CallsDirectly m
  | bulk _ rest => rest.CallsDirectly m

/-- A call outside of every context runs `_schedule` at once; while an outermost context is open
nothing is run, and when it is left every manager is that was asked for inside. -/
def Honoured : Program → Local → Prop
  | done, _ => True
  | schedule m rest, flags => (BulkReschedule.schedule (flags m)).2 = true ∧
      rest.Honoured (Function.update flags m (BulkReschedule.schedule (flags m)).1)
  | bulk body rest, flags =>
    let inside := body.run fun m => enter (flags m)
    inside.2 = [] ∧ (∀ m, body.Calls m → m ∈ (leaveAll flags inside.1).2) ∧
      rest.Honoured (leaveAll flags inside.1).1

/-- What is asked for in a context of an outermost one is asked for in the outermost one as well. -/
def Direct : Program → Prop
  | done => True
  | schedule _ rest => rest.Direct
  | bulk body rest => (∀ m, body.Calls m → body.CallsDirectly m) ∧ rest.Direct

instance (m : Manager) : ∀ p : Program, Decidable (p.CallsDirectly m)
  | done => .isFalse id
  | schedule m' rest =>
    have := instDecidableCallsDirectly m rest
    inferInstanceAs (Decidable (m' = m ∨ rest.CallsDirectly m))
  | bulk _ rest => instDecidableCallsDirectly m rest

variable {p : Program} {flags : Local} {m : Manager}

/-! ### One manager -/

/-- After a context the flags are those from before it. -/
theorem leave_fst (previous inside : Flags) : (leave previous inside).1 = previous := by
  obtain ⟨bulk, needs⟩ := previous
  obtain ⟨bulk', needs'⟩ := inside
  cases bulk <;> cases needs' <;> rfl

/-- It is run if it was asked for inside, and no other context is open. -/
theorem leave_snd (previous inside : Flags) :
    (leave previous inside).2 = (inside.needsScheduling && !previous.bulkReschedule) := by
  obtain ⟨bulk, needs⟩ := previous
  obtain ⟨bulk', needs'⟩ := inside
  cases bulk <;> cases needs' <;> rfl

theorem leaveAll_fst (previous inside : Local) : (leaveAll previous inside).1 = previous := by
  funext m
  exact leave_fst (previous m) (inside m)

theorem mem_leaveAll {previous inside : Local} : m ∈ (leaveAll previous inside).2 ↔
    (inside m).needsScheduling = true ∧ (previous m).bulkReschedule = false := by
  have hmem : m ∈ managers := by cases m <;> decide
  rw [leaveAll, List.mem_filter, leave_snd, Bool.and_eq_true, Bool.not_eq_true']
  exact and_iff_right hmem

/-! ### In a context, and outside of every context -/

/-- While a context is open, nothing is run, and of the calls only the direct ones are noted. -/
theorem run_open (p : Program) (h : ∀ m, (flags m).bulkReschedule = true) :
    (p.run flags).2 = [] ∧ ∀ m, ((p.run flags).1 m).bulkReschedule = true ∧
      (((p.run flags).1 m).needsScheduling = true ↔
        (flags m).needsScheduling = true ∨ p.CallsDirectly m) := by
  induction p generalizing flags with
  | done => exact ⟨rfl, fun m => ⟨h m, (or_iff_left id).symm⟩⟩
  | schedule m' rest ih =>
    have hsched : BulkReschedule.schedule (flags m') =
        ({ flags m' with needsScheduling := true }, false) := if_pos (h m')
    have hopen : ∀ m, (Function.update flags m' { flags m' with needsScheduling := true }
        m).bulkReschedule = true := by
      intro m
      by_cases hm : m = m'
      · rw [hm, Function.update_self]
        exact h m'
      · rw [Function.update_of_ne hm]
        exact h m
    obtain ⟨hcalls, hflags⟩ := ih hopen
    rw [run, hsched]
    refine ⟨hcalls, fun m => ⟨(hflags m).1, (hflags m).2.trans ?_⟩⟩
    by_cases hm : m = m'
    · rw [hm, Function.update_self]
      exact iff_of_true (.inl rfl) (.inr (.inl rfl))
    · rw [Function.update_of_ne hm]
      exact or_congr_right (or_iff_right (Ne.symm hm)).symm
  | bulk body rest ihbody ihrest =>
    have henter : ∀ m, (enter (flags m)).bulkReschedule = true := fun _ => rfl
    have hinside := ihbody henter
    have hleave : (leaveAll flags (body.run fun m => enter (flags m)).1).2 = [] := by
      refine List.eq_nil_iff_forall_not_mem.mpr fun m hm => ?_
      exact Bool.false_ne_true ((mem_leaveAll.mp hm).2.symm.trans (h m))
    rw [run]
    dsimp only
    rw [hinside.1, hleave, leaveAll_fst]
    exact ihrest h

/-- Outside of every context a program leaves the flags as they are. -/
theorem run_closed (h : ∀ m, (flags m).bulkReschedule = false) (p : Program) :
    (p.run flags).1 = flags := by
  induction p with
  | done => rfl
  | schedule m' rest ih =>
    have hsched : BulkReschedule.schedule (flags m') = (flags m', true) :=
      if_neg (Bool.eq_false_iff.mp (h m'))
    rw [run, hsched]
    dsimp only
    rw [Function.update_eq_self]
    exact ih
  | bulk body rest _ ih =>
    rw [run]
    dsimp only
    rw [leaveAll_fst]
    exact ih

theorem honoured_iff (h : ∀ m, (flags m).bulkReschedule = false) (p : Program) :
    p.Honoured flags ↔ p.Direct := by
  induction p with
  | done => exact Iff.rfl
  | schedule m' rest ih =>
    have hsched : BulkReschedule.schedule (flags m') = (flags m', true) :=
      if_neg (Bool.eq_false_iff.mp (h m'))
    rw [Honoured, hsched, Direct, Function.update_eq_self]
    exact (and_iff_right rfl).trans ih
  | bulk body rest _ ih =>
    have henter : ∀ m, (enter (flags m)).bulkReschedule = true := fun _ => rfl
    obtain ⟨hcalls, hflags⟩ := body.run_open henter
    have hnoted : ∀ m, m ∈ (leaveAll flags (body.run fun m => enter (flags m)).1).2 ↔
        body.CallsDirectly m := by
      intro m
      rw [mem_leaveAll, (hflags m).2]
      exact (and_iff_left (h m)).trans (or_iff_right Bool.false_ne_true)
    rw [Honoured, Direct, leaveAll_fst, ih]
    refine (and_iff_right hcalls).trans (and_congr_left' (forall_congr' fun m => ?_))
    rw [hnoted]

end Program

/-- No request is lost, and none is passed on early, exactly in the programs that ask for nothing
in an inner context but what they ask for in the outermost one, too. -/
theorem honoured_iff_direct (p : Program) : p.Honoured (fun _ => {}) ↔ p.Direct :=
  Program.honoured_iff (fun _ => rfl) p

/-- A request in a context of a context. -/
theorem nested_request_lost : ¬ ∀ p : Program, p.Honoured fun _ => {} := by
  intro h
  obtain ⟨-, hcalls, -⟩ := h (.bulk (.bulk (.schedule .taskManager .done) .done) .done)
  exact absurd (hcalls .taskManager (.inl (.inl rfl))) (by decide)

end BulkReschedule

end Forail.Scheduler
