import Forail.Base.Keyed
import Forail.Base.NextAfter
import Forail.Base.Runs
import Forail.Models.Schedules
import Mathlib.Data.List.Sort

/-! `awx_periodic_scheduler`, which finds the schedules that are due by two comparisons on their
stored `next_run` and computes it anew. A run of it is one step; what happens while a schedule is
processed, and when, comes with the step. Times are microseconds since the epoch. -/

namespace Forail.PeriodicScheduler

/-- An aware datetime: its instant, and whether its time zone lacks it. -/
structure Datetime where
  utc : ℤ
  imaginary : Bool
  deriving DecidableEq

inductive Freq
  | yearly | monthly | weekly | daily | hourly | minutely | secondly
  deriving DecidableEq

/-- What the code reads of a rule of a rule set; no COUNT is 0. -/
structure RRule where
  freq : Freq
  count : ℕ
  untilTime : Option ℤ

/-- The library that reads rule texts: the rules of a rule set, its dates, the first and the last
of them, the first one after an instant, and the text with the day of another DTSTART. -/
structure Dateutil (ρ : Type) where
  rules : ρ → List RRule
  dates : ρ → Set Datetime
  first : ρ → Option Datetime
  last : ρ → Option Datetime
  after : ρ → ℤ → Option Datetime
  restart : ρ → ℤ → ρ
  after_some : ∀ {r t d}, after r t = some d →
    d ∈ dates r ∧ t < d.utc ∧ ∀ d' ∈ dates r, t < d'.utc → d.utc ≤ d'.utc
  after_none : ∀ {r t}, after r t = none → ∀ d ∈ dates r, d.utc ≤ t

structure Schedule (ρ : Type) where
  id : ℕ
  rrule : ρ
  enabled : Bool
  nextRun : Option ℤ
  dtstart : Option ℤ
  dtend : Option ℤ
  deriving DecidableEq

/-- Where an exception is raised while a schedule is processed: before or after the save of its
computed fields, by `cache_timeout_blocked`, by the launch before the job is there or after it,
or past the handler of the launch. -/
inductive Failure
  | compute | saved | template | config | start | finish
  deriving DecidableEq

/-- The times at which `rrulestr` and then the update read the clock, and what happens. -/
structure Attempt where
  parsed : ℤ
  time : ℤ
  blocked : Bool
  failure : Option Failure

/-- A run, with the schedules that it created jobs for. -/
structure Run where
  last : ℤ
  now : ℤ
  attempts : ℕ → Attempt
  jobs : List ℕ

structure SchedulerState (ρ : Type) where
  scheduleLastRun : ℤ
  schedules : List (Schedule ρ)
  runs : List Run

section Definitions
variable {ρ : Type}

/-- `enabled`, `before` and `after` of the manager. -/
def enabled (rows : List (Schedule ρ)) : List (Schedule ρ) := rows.filter (·.enabled)

def before (dt : ℤ) (rows : List (Schedule ρ)) : List (Schedule ρ) :=
  rows.filter fun s => s.nextRun.any (· < dt)

def after (dt : ℤ) (rows : List (Schedule ρ)) : List (Schedule ρ) :=
  rows.filter fun s => s.nextRun.any (dt < ·)

def between (b e : ℤ) (rows : List (Schedule ρ)) : List (Schedule ρ) := before e (after b rows)

/-- The ordering of the model: the last `next_run` first, those without one last, then by id. -/
def Schedule.precedes (s t : Schedule ρ) : Bool :=
  match s.nextRun, t.nextRun with
  | some a, some b => b < a ∨ a = b ∧ s.id ≤ t.id
  | some _, none => true
  | none, some _ => false
  | none, none => s.id ≤ t.id

def query (rows : List (Schedule ρ)) : List (Schedule ρ) :=
  rows.insertionSort fun s t => s.precedes t = true

variable (D : Dateutil ρ)

/-- `Schedule.rrulestr`, with the fast forward. -/
def rrulestr (r : ρ) (now : ℤ) : ρ :=
  match D.first r with
  | some firstEvent =>
    if 7 < (now - firstEvent.utc) / Schedule.day ∧
        ((D.rules r).any fun x => (x.freq = .minutely ∨ x.freq = .hourly) ∧ x.count = 0) = true then
      D.restart r ((now - 7 * Schedule.day) / Schedule.day)
    else r
  | none => r

def getEndDate (r : ρ) : Option ℤ :=
  if (D.rules r).any fun x => x.untilTime.isNone ∧ x.count = 0 then none
  else (D.last r).map Datetime.utc

/-- A date that does not exist is skipped, once. -/
def nextRunActual (r : ρ) (now : ℤ) : Except String (Option ℤ) :=
  match D.after r now with
  | none => .ok none
  | some d =>
    if d.imaginary = false then .ok (some d.utc)
    else match D.after r d.utc with
      | some d => .ok (some d.utc)
      | none => .error "'NoneType' object has no attribute 'astimezone'"

namespace Schedule

/-- The computed fields, and whether one of them changed. -/
def updateComputedFieldsNoSave (s : Schedule ρ) (parsed now : ℤ) : Except String (Schedule ρ × Bool) := do
  let futureRs := rrulestr D s.rrule parsed
  let nextRun ← if s.enabled then nextRunActual D futureRs now else .ok none
  let dtstart := (D.first futureRs).map Datetime.utc
  let dtend := getEndDate D futureRs
  .ok ({ s with nextRun, dtstart, dtend },
    decide (nextRun ≠ s.nextRun ∨ dtstart ≠ s.dtstart ∨ dtend ≠ s.dtend))

/-- The row afterwards, and whether an exception was raised. -/
def updateComputedFields (s : Schedule ρ) (a : Attempt) : Schedule ρ × Bool :=
  if a.failure = some .compute then (s, true)
  else match s.updateComputedFieldsNoSave D a.parsed a.time with
    | .error _ => (s, true)
    | .ok (s', changed) => (s', changed && a.failure = some .saved)

end Schedule

def write (table : List (Schedule ρ)) (s : Schedule ρ) : List (Schedule ρ) :=
  Keyed.modify Schedule.id table s.id fun _ => s

variable (attempts : ℕ → Attempt)

/-- The loop over the old schedules; the answer says that an exception ended it. -/
def runOld (table : List (Schedule ρ)) : List (Schedule ρ) → List (Schedule ρ) × Bool
  | [] => (table, false)
  | s :: rows =>
    match s.updateComputedFields D (attempts s.id) with
    | (s', true) => (write table s', true)
    | (s', false) => runOld (write table s') rows

/-- The loop over the schedules that are due, to its end or to an exception. -/
def runDue (table : List (Schedule ρ)) (jobs : List ℕ) :
    List (Schedule ρ) → List (Schedule ρ) × List ℕ
  | [] => (table, jobs)
  | s :: rows =>
    match s.updateComputedFields D (attempts s.id) with
    | (s', true) => (write table s', jobs)
    | (s', false) =>
      match (attempts s.id).failure with
      | some .template => (write table s', jobs)
      | failure =>
        if (attempts s.id).blocked then runDue (write table s') jobs rows
        else match failure with
          | some .config => runDue (write table s') jobs rows
          | some .finish => (write table s', jobs ++ [s.id])
          | _ => runDue (write table s') (jobs ++ [s.id]) rows

/-- `awx_periodic_scheduler` with the lock. The run time is saved before any schedule is read. -/
def awxPeriodicScheduler (st : SchedulerState ρ) (runNow : ℤ) : SchedulerState ρ :=
  let lastRun := st.scheduleLastRun
  let (table, ended) := runOld D attempts st.schedules (query (before lastRun (enabled st.schedules)))
  let (table, jobs) := if ended then (table, [])
    else runDue D attempts table [] (query (between lastRun runNow (enabled table)))
  ⟨runNow, table, st.runs ++ [⟨lastRun, runNow, attempts, jobs⟩]⟩

/-- The instants at which the rule has a date that exists. -/
def occurrences (r : ρ) : Set ℤ := {o | ∃ d ∈ D.dates r, d.imaginary = false ∧ d.utc = o}

/-- A run at a later time than the last, each clock read at the run or after it. -/
def exec (st : SchedulerState ρ) (e : ℤ × (ℕ → Attempt)) : Option (SchedulerState ρ) :=
  if st.scheduleLastRun < e.1 ∧
      ∀ s ∈ st.schedules, e.1 ≤ (e.2 s.id).parsed ∧ (e.2 s.id).parsed ≤ (e.2 s.id).time then
    some (awxPeriodicScheduler D e.2 st e.1)
  else none

/-- All runs, from enabled schedules whose `next_run` is the first occurrence since the last run. -/
def scheduler : System (SchedulerState ρ) (ℤ × (ℕ → Attempt)) where
  init st := (st.schedules.map Schedule.id).Nodup ∧ st.runs = [] ∧ ∀ s ∈ st.schedules,
    s.enabled = true ∧ NextAfter (occurrences D s.rrule) st.scheduleLastRun s.nextRun
  step st e st' := exec D st e = some st'

end Definitions

end Forail.PeriodicScheduler
