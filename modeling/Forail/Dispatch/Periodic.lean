import Forail.Base.Binary64
import Forail.Base.Dict
import Mathlib.Order.Bounds.Basic
import Mathlib.Order.Interval.Set.Defs

/-! The scheduler of the dispatcher's periodic tasks. The times at which a task is due are integers, the
time of a poll is a float; a poll runs a task once for all its targets that have passed. -/

namespace Forail.Dispatch.Periodic

open Binary64

/-- A float below `2 ^ 53` in magnitude, as is every difference of two readings of the clock. -/
structure Time where
  num : ℤ
  scale : ℕ
  bounded : num.natAbs < 2 ^ 53

def Time.value (t : Time) : ℚ := t.num / 2 ^ t.scale

/-- A positive `timedelta` of whole seconds; it has less than `10 ^ 9` days. -/
structure Timedelta where
  seconds : ℕ
  positive : 0 < seconds
  bounded : seconds < 10 ^ 9 * 86400
  deriving DecidableEq

/-- `int` of a float. -/
def trunc (q : ℚ) : ℤ := if 0 ≤ q then ⌊q⌋ else ⌈q⌉

structure ScheduledTask where
  name : String
  interval : Timedelta
  offset : ℕ
  index : ℤ
  lastRun : Option Time
  completedRuns : ℕ

namespace ScheduledTask

variable (job : ScheduledTask) (relativeTime : Time)

def nextRun : ℤ := (job.index + 1) * job.interval.seconds + job.offset

def dueToRun : Bool := (job.nextRun : ℚ) ≤ relativeTime.value

/-- Integers become floats before they are subtracted from a float or divide one. -/
def expectedRuns : ℤ :=
  trunc (float64 (float64 (relativeTime.value - float64 job.offset) / float64 job.interval.seconds))

def markRun : ScheduledTask :=
  { job with
    lastRun := some relativeTime
    completedRuns := job.completedRuns + 1
    index := job.expectedRuns relativeTime }

end ScheduledTask

structure Scheduler where
  jobs : List ScheduledTask

namespace Scheduler

/-- The constructor, none where it raises. The rest of a task's data is for the caller. -/
def init (schedule : Dict String Timedelta) : Option Scheduler :=
  let jobs := schedule.entries.map fun (name, interval) => ScheduledTask.mk name interval 0 0 none 0
  match (jobs.map fun job => job.interval.seconds).min? with
  | none => none
  | some minInterval =>
    if jobs.length > minInterval then none
    else some ⟨jobs.mapIdx fun i job => { job with offset := i * minInterval / jobs.length }⟩

/-- `get_and_mark_pending`: the tasks to run, which are marked, and the scheduler that holds them. -/
def getAndMarkPending (s : Scheduler) (relativeTime : Time) : List ScheduledTask × Scheduler :=
  ((s.jobs.filter fun job => job.dueToRun relativeTime).map fun job => job.markRun relativeTime,
    ⟨s.jobs.map fun job => if job.dueToRun relativeTime then job.markRun relativeTime else job⟩)

/-- A poll, and the time of the one before it. -/
structure Poll where
  previous : Option Time
  time : Time
  ran : List ScheduledTask
  after : Scheduler

def pollsAfter (s : Scheduler) (previous : Option Time) : List Time → List Poll
  | [] => []
  | t :: times =>
    ⟨previous, t, (s.getAndMarkPending t).1, (s.getAndMarkPending t).2⟩ ::
      (s.getAndMarkPending t).2.pollsAfter (some t) times

def polls (s : Scheduler) (times : List Time) : List Poll := s.pollsAfter none times

end Scheduler

/-! ### Targets -/

namespace ScheduledTask

def target (job : ScheduledTask) (k : ℕ) : ℚ := job.offset + k * job.interval.seconds

/-- The first target is one interval after the offset. -/
def targets (job : ScheduledTask) : Set ℚ := { x | ∃ k, 1 ≤ k ∧ job.target k = x }

def period (job : ScheduledTask) (k : ℕ) : Set ℚ := Set.Ico (job.target k) (job.target (k + 1))

/-- The targets that a poll at the previous time has not reached. -/
def upcoming (job : ScheduledTask) (previous : Option Time) : Set ℚ :=
  { x ∈ job.targets | ∀ p ∈ previous, p.value < x }

def OnTime (job : ScheduledTask) (previous : Option Time) : Prop :=
  IsLeast (job.upcoming previous) job.nextRun

variable {job : ScheduledTask} {t : Time} {previous : Option Time}

@[simp] theorem target_markRun (k : ℕ) : (job.markRun t).target k = job.target k := rfl

@[simp] theorem targets_markRun : (job.markRun t).targets = job.targets := rfl

@[simp] theorem name_markRun : (job.markRun t).name = job.name := rfl

theorem target_lt_target {k k' : ℕ} : job.target k < job.target k' ↔ k < k' := by
  have hpos : (0 : ℚ) < job.interval.seconds := Nat.cast_pos.mpr job.interval.positive
  rw [target, target, add_lt_add_iff_left, mul_lt_mul_iff_left₀ hpos, Nat.cast_lt]

theorem dueToRun_iff : job.dueToRun t = true ↔ (job.nextRun : ℚ) ≤ t.value := decide_eq_true_iff

/-- From the offset on, the number of runs is the number of intervals that have passed. -/
theorem expectedRuns_eq (hoffset : job.offset < 2 ^ 53) (h : (job.offset : ℚ) ≤ t.value) :
    job.expectedRuns t = ⌊(t.value - job.offset) / job.interval.seconds⌋ := by
  have hpow : (0 : ℚ) < 2 ^ t.scale := by positivity
  have hnum : ((job.offset * 2 ^ t.scale : ℕ) : ℤ) ≤ t.num := by
    rw [Time.value, le_div_iff₀ hpow] at h
    exact_mod_cast h
  obtain ⟨n, hn⟩ := Int.eq_ofNat_of_zero_le (sub_nonneg.mpr hnum)
  have hbounded := t.bounded
  have hlt : n < 2 ^ 53 := by omega
  have hdiff : t.value - job.offset = n / 2 ^ t.scale := by
    have hcast : (t.num : ℚ) - job.offset * 2 ^ t.scale = n := by exact_mod_cast hn
    rw [Time.value, ← hcast, sub_div, mul_div_cancel_right₀ _ hpow.ne']
  have hinterval : job.interval.seconds < 2 ^ 53 := job.interval.bounded.trans (by norm_num)
  have hquot : (n : ℚ) / 2 ^ t.scale / job.interval.seconds =
      n / ((2 ^ t.scale * job.interval.seconds : ℕ) : ℚ) := by
    push_cast
    rw [div_div]
  have hdenom : 0 < 2 ^ t.scale * job.interval.seconds :=
    Nat.mul_pos (by positivity) job.interval.positive
  rw [expectedRuns, float64_natCast hoffset, float64_natCast hinterval, hdiff, float64_dyadic hlt, hquot]
  have hnonneg : (0 : ℚ) ≤ float64 (n / ((2 ^ t.scale * job.interval.seconds : ℕ) : ℚ)) := by
    have hle := le_float64_div_iff (p := 0) hlt hdenom
    rw [Int.cast_zero] at hle
    exact hle.mpr (by positivity)
  rw [trunc, if_pos hnonneg]
  refine eq_of_forall_le_iff fun p => ?_
  rw [Int.le_floor, Int.le_floor, le_float64_div_iff hlt hdenom]

/-- The index of a task that is due becomes that of the last target that has passed. -/
theorem markRun_index (hoffset : job.offset < 2 ^ 53) (h : (job.offset : ℚ) ≤ t.value) :
    ∃ k : ℕ, (job.markRun t).index = k ∧ job.target k ≤ t.value ∧ t.value < job.target (k + 1) := by
  have hpos : (0 : ℚ) < job.interval.seconds := Nat.cast_pos.mpr job.interval.positive
  have hindex : (job.markRun t).index = ⌊(t.value - job.offset) / job.interval.seconds⌋ :=
    expectedRuns_eq hoffset h
  have hnonneg : 0 ≤ ⌊(t.value - job.offset) / job.interval.seconds⌋ :=
    Int.floor_nonneg.mpr (div_nonneg (sub_nonneg.mpr h) hpos.le)
  obtain ⟨k, hk⟩ := Int.eq_ofNat_of_zero_le hnonneg
  obtain ⟨hle, hlt⟩ := Int.floor_eq_iff.mp hk
  rw [Int.cast_natCast, le_div_iff₀ hpos] at hle
  rw [Int.cast_natCast, div_lt_iff₀ hpos] at hlt
  refine ⟨k, hindex.trans hk, ?_, ?_⟩
  · rw [target]
    linarith
  · rw [target]
    push_cast
    linarith

theorem nextRun_of_index {k : ℕ} (h : job.index = k) : (job.nextRun : ℚ) = job.target (k + 1) := by
  rw [nextRun, h, target]
  push_cast
  ring

theorem upcoming_some (t : Time) : job.upcoming (some t) = job.targets ∩ Set.Ioi t.value := by
  ext x
  simp [upcoming]

namespace OnTime

/-- A task that has not run waits for its first target. -/
theorem start (h : job.index = 0) : job.OnTime none := by
  have hnext : (job.nextRun : ℚ) = job.target 1 := nextRun_of_index (k := 0) (by rw [h]; rfl)
  refine ⟨⟨⟨1, le_rfl, hnext.symm⟩, by nofun⟩, ?_⟩
  rintro x ⟨⟨k, hk, rfl⟩, -⟩
  rw [hnext]
  exact not_lt.mp fun hlt => absurd (target_lt_target.mp hlt) (not_lt.mpr hk)

/-- It is due when a target has come since the poll before. -/
theorem due_iff (h : job.OnTime previous) :
    job.dueToRun t = true ↔ ∃ x ∈ job.upcoming previous, x ≤ t.value := by
  rw [dueToRun_iff]
  exact ⟨fun hle => ⟨_, h.1, hle⟩, fun ⟨x, hx, hle⟩ => (h.2 hx).trans hle⟩

theorem wait (h : job.OnTime previous) (hle : ∀ p ∈ previous, p.value ≤ t.value)
    (hdue : ¬ job.dueToRun t = true) : job.OnTime (some t) := by
  rw [dueToRun_iff, not_le] at hdue
  rw [OnTime, upcoming_some]
  refine ⟨⟨h.1.1, hdue⟩, ?_⟩
  rintro x ⟨hx, hlt⟩
  exact h.2 ⟨hx, fun p hp => (hle p hp).trans_lt hlt⟩

theorem markRun (h : job.OnTime previous) (hoffset : job.offset < 2 ^ 53)
    (hdue : job.dueToRun t = true) : (job.markRun t).OnTime (some t) := by
  obtain ⟨k, -, hk⟩ := h.1.1
  have hstart : (job.offset : ℚ) ≤ t.value := by
    have hnonneg : (0 : ℚ) ≤ k * job.interval.seconds := by positivity
    have hpassed := dueToRun_iff.mp hdue
    rw [← hk, target] at hpassed
    linarith
  obtain ⟨m, hindex, hle, hlt⟩ := markRun_index hoffset hstart
  have hnext := nextRun_of_index hindex
  rw [target_markRun] at hnext
  rw [OnTime, upcoming_some, hnext]
  refine ⟨⟨⟨m + 1, by omega, rfl⟩, hlt⟩, ?_⟩
  rintro x ⟨⟨k', -, rfl⟩, hlt'⟩
  rw [target_markRun] at hlt' ⊢
  refine not_lt.mp fun hbefore => ?_
  have hk' : ¬ job.target m < job.target k' := fun h =>
    absurd (target_lt_target.mp hbefore) (not_lt.mpr (target_lt_target.mp h))
  exact absurd (hlt'.trans_le (not_lt.mp hk')) (not_lt.mpr hle)

end OnTime

end ScheduledTask

/-! ### Runs -/

namespace Scheduler

variable {s : Scheduler} {previous : Option Time} {t : Time} {times : List Time}

/-- The tasks of a dictionary with offsets that fit a float, before a poll. -/
structure Inv (s : Scheduler) (previous : Option Time) : Prop where
  names : (s.jobs.map ScheduledTask.name).Nodup
  offset : ∀ job ∈ s.jobs, job.offset < 2 ^ 53
  onTime : ∀ job ∈ s.jobs, job.OnTime previous

/-- What polls do not change. -/
def plan (s : Scheduler) : List (String × Timedelta × ℕ) :=
  s.jobs.map fun job => (job.name, job.interval, job.offset)

theorem plan_getAndMarkPending : (s.getAndMarkPending t).2.plan = s.plan := by
  rw [plan, plan, getAndMarkPending, List.map_map]
  refine List.map_congr_left fun job _ => ?_
  rw [Function.comp_apply]
  split_ifs <;> rfl

theorem names_eq_plan : s.jobs.map ScheduledTask.name = s.plan.map Prod.fst := by
  rw [plan, List.map_map]
  rfl

theorem Inv.poll (h : s.Inv previous) (hle : ∀ p ∈ previous, p.value ≤ t.value) :
    (s.getAndMarkPending t).2.Inv (some t) := by
  refine ⟨?_, ?_, ?_⟩
  · rw [names_eq_plan, plan_getAndMarkPending, ← names_eq_plan]
    exact h.names
  · intro job' hjob'
    obtain ⟨job, hjob, rfl⟩ := List.mem_map.mp hjob'
    split_ifs
    · exact h.offset job hjob
    · exact h.offset job hjob
  · intro job' hjob'
    obtain ⟨job, hjob, rfl⟩ := List.mem_map.mp hjob'
    split_ifs with hdue
    · exact (h.onTime job hjob).markRun (h.offset job hjob) hdue
    · exact (h.onTime job hjob).wait hle hdue

/-- What a poll does, told by the tasks of a scheduler with the same plan. -/
structure Poll.Right (s : Scheduler) (p : Poll) : Prop where
  once : (p.ran.map ScheduledTask.name).Nodup
  known : ∀ job ∈ p.ran, job.name ∈ s.jobs.map ScheduledTask.name
  /-- It runs the tasks with a target since the poll before. -/
  runs_iff : ∀ job ∈ s.jobs, job.name ∈ p.ran.map ScheduledTask.name ↔
    ∃ x ∈ job.upcoming p.previous, x ≤ p.time.value
  next : ∀ job ∈ p.after.jobs, IsLeast (job.targets ∩ Set.Ioi p.time.value) job.nextRun
  plan : p.after.plan = s.plan

theorem Inv.right (h : s.Inv previous) (hle : ∀ p ∈ previous, p.value ≤ t.value) :
    Poll.Right s ⟨previous, t, (s.getAndMarkPending t).1, (s.getAndMarkPending t).2⟩ where
  once := by
    have hsub := (List.filter_sublist (p := fun job => job.dueToRun t) (l := s.jobs)).map
      ScheduledTask.name
    rw [getAndMarkPending, List.map_map]
    exact hsub.nodup h.names
  known := by
    intro job' hjob'
    obtain ⟨job, hjob, rfl⟩ := List.mem_map.mp hjob'
    exact List.mem_map.mpr ⟨job, List.mem_of_mem_filter hjob, rfl⟩
  runs_iff := by
    intro job hjob
    rw [← (h.onTime job hjob).due_iff, getAndMarkPending, List.map_map]
    constructor
    · intro hname
      obtain ⟨job', hjob', heq⟩ := List.mem_map.mp hname
      obtain ⟨hmem, hdue⟩ := List.mem_filter.mp hjob'
      rwa [List.inj_on_of_nodup_map h.names hmem hjob heq] at hdue
    · intro hdue
      exact List.mem_map.mpr ⟨job, List.mem_filter.mpr ⟨hjob, hdue⟩, rfl⟩
  next := by
    intro job hjob
    have hnext := (h.poll hle).onTime job hjob
    rw [ScheduledTask.OnTime, ScheduledTask.upcoming_some] at hnext
    exact hnext
  plan := plan_getAndMarkPending

theorem Poll.Right.of_plan {s' : Scheduler} {p : Poll} (h : p.Right s) (hplan : s.plan = s'.plan) :
    p.Right s' where
  once := h.once
  known := by
    rw [names_eq_plan, ← hplan, ← names_eq_plan]
    exact h.known
  runs_iff := by
    intro job hjob
    have hmem : (job.name, job.interval, job.offset) ∈ s.plan := by
      rw [hplan]
      exact List.mem_map_of_mem hjob
    obtain ⟨job', hjob', heq⟩ := List.mem_map.mp hmem
    simp only [Prod.mk.injEq] at heq
    obtain ⟨hname, hinterval, hoffset⟩ := heq
    have hupcoming : job'.upcoming p.previous = job.upcoming p.previous := by
      simp only [ScheduledTask.upcoming, ScheduledTask.targets, ScheduledTask.target, hinterval, hoffset]
    rw [← hname, ← hupcoming]
    exact h.runs_iff job' hjob'
  next := h.next
  plan := h.plan.trans hplan

/-- Every poll is right, and none is after a later one. -/
theorem Inv.polls (h : s.Inv previous) (hsorted : times.Pairwise fun t u => t.value ≤ u.value)
    (hle : ∀ p ∈ previous, ∀ t ∈ times, p.value ≤ t.value) :
    (∀ p ∈ s.pollsAfter previous times, p.Right s) ∧
    (∀ u ∈ previous, ∀ p ∈ s.pollsAfter previous times, ∃ v ∈ p.previous, u.value ≤ v.value) ∧
    (s.pollsAfter previous times).Pairwise fun p q => ∃ v ∈ q.previous, p.time.value ≤ v.value := by
  induction times generalizing s previous with
  | nil => exact ⟨by nofun, by nofun, List.Pairwise.nil⟩
  | cons t times ih =>
    obtain ⟨hfirst, hsorted⟩ := List.pairwise_cons.mp hsorted
    have hle' : ∀ p ∈ previous, p.value ≤ t.value := fun p hp => hle p hp t List.mem_cons_self
    have hlater : ∀ p ∈ some t, ∀ u ∈ times, p.value ≤ u.value := by
      intro p hp u hu
      obtain rfl := Option.some.inj hp
      exact hfirst u hu
    obtain ⟨hright, hprevious, hpairs⟩ := ih (h.poll hle') hsorted hlater
    refine ⟨?_, ?_, ?_⟩
    · intro p hp
      rcases List.mem_cons.mp hp with rfl | hp
      · exact h.right hle'
      · exact (hright p hp).of_plan plan_getAndMarkPending
    · intro u hu p hp
      rcases List.mem_cons.mp hp with rfl | hp
      · exact ⟨u, hu, le_rfl⟩
      · obtain ⟨v, hv, htv⟩ := hprevious t rfl p hp
        exact ⟨v, hv, (hle' u hu).trans htv⟩
    · exact List.pairwise_cons.mpr ⟨hprevious t rfl, hpairs⟩

/-- Two polls in one period do not both run a task: the later one has no target of its own. -/
theorem Poll.Right.apart {q : Poll} (hq : q.Right s) {job : ScheduledTask} (hjob : job ∈ s.jobs)
    (hrun : job.name ∈ q.ran.map ScheduledTask.name) (hle : ∃ v ∈ q.previous, t.value ≤ v.value) (k : ℕ)
    (hperiod : t.value ∈ job.period k) : q.time.value ∉ job.period k := by
  rintro hperiod'
  obtain ⟨x, ⟨⟨m, -, rfl⟩, hafter⟩, hx⟩ := (hq.runs_iff job hjob).mp hrun
  obtain ⟨v, hv, hpv⟩ := hle
  have hlow := ScheduledTask.target_lt_target.mp (hperiod.1.trans_lt (hpv.trans_lt (hafter v hv)))
  have hhigh := ScheduledTask.target_lt_target.mp (hx.trans_lt hperiod'.2)
  omega

/-! ### The start -/

theorem offset_lt_offset {n m i j : ℕ} (hn : 0 < n) (hnm : n ≤ m) (hij : i < j) :
    i * m / n < j * m / n := by
  have hstep : i * m + n ≤ j * m := by
    calc i * m + n ≤ i * m + m := by omega
      _ = (i + 1) * m := by ring
      _ ≤ j * m := Nat.mul_le_mul_right m hij
  calc i * m / n < i * m / n + 1 := Nat.lt_succ_self _
    _ = (i * m + n) / n := (Nat.add_div_right _ hn).symm
    _ ≤ j * m / n := Nat.div_le_div_right hstep

/-- A scheduler that is accepted: the tasks of the dictionary, at offsets that are below each interval. -/
structure Accepted (schedule : Dict String Timedelta) (s : Scheduler) : Prop where
  tasks : (s.jobs.map fun job => (job.name, job.interval)) = schedule.entries
  offsets : (s.jobs.map ScheduledTask.offset).Nodup
  offset_lt : ∀ a ∈ s.jobs, ∀ b ∈ s.jobs, a.offset < b.interval.seconds
  unmarked : ∀ job ∈ s.jobs, job.index = 0

theorem accepted_of_init {schedule : Dict String Timedelta} (h : init schedule = some s) :
    Accepted schedule s := by
  unfold init at h
  extract_lets jobs at h
  have hentries : (jobs.map fun job => (job.name, job.interval)) = schedule.entries := by
    rw [List.map_map]
    exact List.map_id _
  have hindex : ∀ job ∈ jobs, job.index = 0 := by
    intro job hjob
    obtain ⟨entry, -, rfl⟩ := List.mem_map.mp hjob
    rfl
  cases hmin : (jobs.map fun job => job.interval.seconds).min? with
  | none =>
    rw [hmin] at h
    cases h
  | some minInterval =>
    simp only [hmin] at h
    split_ifs at h with hcount
    obtain rfl := Option.some.inj h
    obtain ⟨hmem, hleast⟩ := List.min?_eq_some_iff.mp hmin
    have hpos : 0 < jobs.length := by
      obtain ⟨job, hjob, -⟩ := List.mem_map.mp hmem
      exact List.length_pos_of_mem hjob
    refine ⟨?_, ?_, ?_, ?_⟩
    · rw [← hentries]
      refine List.ext_getElem (by simp) fun i hi hi' => ?_
      simp
    · refine List.pairwise_iff_getElem.mpr fun i j hi hj hij => ?_
      simp only [List.getElem_map, List.getElem_mapIdx]
      exact (offset_lt_offset hpos (not_lt.mp hcount) hij).ne
    · intro a ha b hb
      obtain ⟨i, hi, rfl⟩ := List.mem_mapIdx.mp ha
      obtain ⟨j, hj, rfl⟩ := List.mem_mapIdx.mp hb
      have hle := hleast _ (List.mem_map_of_mem (List.getElem_mem hj))
      calc i * minInterval / jobs.length < minInterval := by
            rw [Nat.div_lt_iff_lt_mul hpos, mul_comm]
            exact Nat.mul_lt_mul_of_pos_left hi (by omega)
        _ ≤ _ := hle
    · intro a ha
      obtain ⟨i, hi, rfl⟩ := List.mem_mapIdx.mp ha
      exact hindex jobs[i] (List.getElem_mem hi)

theorem Accepted.inv {schedule : Dict String Timedelta} (h : Accepted schedule s) : s.Inv none where
  names := by
    have hkeys : s.jobs.map ScheduledTask.name = schedule.keys := by
      rw [Dict.keys, ← h.tasks, List.map_map]
      rfl
    rw [hkeys]
    exact schedule.nodup
  offset job hjob := (h.offset_lt job hjob job hjob).trans (job.interval.bounded.trans (by norm_num))
  onTime job hjob := .start (h.unmarked job hjob)

/-- What holds of a scheduler and the polls at some times. -/
structure Exact (s : Scheduler) (times : List Time) : Prop where
  right : ∀ p ∈ s.polls times, p.Right s
  onceAPeriod : (s.polls times).Pairwise fun p q => ∀ job ∈ s.jobs, ∀ k, 1 ≤ k →
    job.name ∈ p.ran.map ScheduledTask.name → job.name ∈ q.ran.map ScheduledTask.name →
    ¬ (p.time.value ∈ job.period k ∧ q.time.value ∈ job.period k)

/-- The tasks of a scheduler that is accepted are spread, and are run on time and once a period. -/
theorem accepted_exact {schedule : Dict String Timedelta} (h : init schedule = some s) :
    Accepted schedule s ∧
    ∀ times, (times.Pairwise fun t u => t.value ≤ u.value) → s.Exact times := by
  have haccepted := accepted_of_init h
  refine ⟨haccepted, fun times hsorted => ?_⟩
  obtain ⟨hright, -, hpairs⟩ := haccepted.inv.polls hsorted (by nofun)
  refine ⟨hright, hpairs.imp_of_mem fun {p q} _ hq hle => ?_⟩
  rintro job hjob k - - hrun ⟨hp, hqk⟩
  exact (hright q hq).apart hjob hrun hle k hp hqk

def exampleSchedule : Dict String Timedelta :=
  ⟨[("job1", ⟨50, by decide, by decide⟩), ("job2", ⟨20, by decide, by decide⟩)], by decide⟩

/-- Polls after 20.5 and after 175.25 seconds; the second skips periods of both tasks. -/
theorem accepted_exact_example : ∃ s, init exampleSchedule = some s ∧ Accepted exampleSchedule s ∧
    s.Exact [⟨41, 1, by decide⟩, ⟨701, 2, by decide⟩] := by
  have haccepted : (init exampleSchedule).isSome = true := by decide
  obtain ⟨s, hs⟩ := Option.isSome_iff_exists.mp haccepted
  obtain ⟨hjobs, hexact⟩ := accepted_exact hs
  refine ⟨s, hs, hjobs, hexact _ ?_⟩
  norm_num [Time.value]

end Scheduler

end Forail.Dispatch.Periodic
