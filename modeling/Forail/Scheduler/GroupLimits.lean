import Forail.Scheduler.CapacityAccounting
import Mathlib.Algebra.BigOperators.Group.List.Basic
import Mathlib.Algebra.GroupWithZero.Nat

/-! Group limits. The check before a start asks for room for the task alone, or for the
control cost alone, and a start can charge a group with both: with the control cost when
the controller is one of its own instances, with the task when it is controlled there. A
start stays within the limits of its group exactly when the check would also have passed
for all that is charged. -/

namespace Forail.Scheduler

open TaskManager

namespace TaskManagerModels

/-- The limits of a group hold; a limit that is not positive is none. -/
def WithinLimits (m : TaskManagerModels) (g : TaskManagerInstanceGroup) : Prop :=
  (0 < g.maxConcurrentJobs → (m.getJobsRunning g : ℤ) ≤ g.maxConcurrentJobs) ∧
    (0 < g.maxForks → (m.getConsumedCapacity g : ℤ) ≤ g.maxForks)

/-- The check of the group passes for everything that the start charges to it. -/
@[mk_iff]
structure Covered (m : TaskManagerModels) (st : Start) (g : TaskManagerInstanceGroup) : Prop where
  hybridNode : st.job.kind.capacityType = some .control → g.isContainerGroup = false →
    st.executionInstance.bind m.nodeType = some .hybrid →
      m.hasRemainingCapacity g (st.job.taskImpact + m.controlTaskImpact) false = true
  ownController : st.job.kind.capacityType = some .execution → g.isContainerGroup = false →
    (∃ c ∈ g.instanceHostnames, st.job.controllerNode = some c) →
      m.hasRemainingCapacity g (st.job.taskImpact + m.controlTaskImpact) false = true
  controlContainer : st.job.kind.capacityType = some .control → g.isContainerGroup = true →
    m.hasRemainingCapacity g st.job.taskImpact false = true

/-! ### The sums over the instances of a group -/

section Sums
variable (m : TaskManagerModels) (hostnames : List Hostname)

theorem sum_filterMap (f : TaskManagerInstance → ℕ) :
    ((hostnames.filterMap m.instances.get?).map f).sum =
      (hostnames.map fun h => ((m.instances.get? h).map f).getD 0).sum := by
  induction hostnames with
  | nil => rfl
  | cons h hostnames ih =>
    cases hi : m.instances.get? h <;> simp [hi, ih]

/-- At most one of the nodes bears an impact. -/
theorem sum_bears (node : Option Hostname) (nodeTypes : List NodeType) (impact : ℕ)
    (hn : hostnames.Nodup) :
    (hostnames.map fun h => if m.bears node nodeTypes h then impact else 0).sum =
      if hostnames.any (m.bears node nodeTypes) then impact else 0 := by
  induction hostnames with
  | nil => rfl
  | cons h hostnames ih =>
    obtain ⟨hh, hn⟩ := List.nodup_cons.mp hn
    rw [List.map_cons, List.sum_cons, ih hn, List.any_cons]
    by_cases hb : m.bears node nodeTypes h = true
    · have hrest : hostnames.any (m.bears node nodeTypes) = false := by
        rw [List.any_eq_false]
        intro h' hm hb'
        have he := (bears_iff.mp hb).1.symm.trans (bears_iff.mp hb').1
        obtain rfl := Option.some.inj he
        exact hh hm
      simp [hb, hrest]
    · simp [hb]

end Sums

section Group
variable (m : TaskManagerModels) (job : UnifiedJob) (g : TaskManagerInstanceGroup)

theorem get?_instanceGroups_consumeCapacity (pk : ℕ) :
    (m.consumeCapacity job).instanceGroups.get? pk = (m.instanceGroups.get? pk).map fun g =>
      if job.instanceGroup = some pk ∧ g.isContainerGroup then g.consumeCapacity job.taskImpact
      else g := by
  have hm : (m.consumeOnInstances job).instanceGroups = m.instanceGroups := by
    simp [consumeOnInstances]
  unfold consumeCapacity
  cases hpk : job.instanceGroup with
  | none => simp [hm]
  | some pk' =>
    by_cases he : pk = pk'
    · subst he
      simp [hm, Dict.get?_modify]
    · have hne : ¬ pk' = pk := fun h => he h.symm
      simp [hm, Dict.get?_modify, he, hne]

variable {g}

/-- What a started job adds to a group of instances. -/
theorem getConsumedCapacity_consumeCapacity (hg : g.isContainerGroup = false) :
    (m.consumeCapacity job).getConsumedCapacity g = m.getConsumedCapacity g +
      (if g.instanceHostnames.any (m.bears job.executionNode [.hybrid, .execution])
        then job.taskImpact else 0) +
      if g.instanceHostnames.any (m.bears job.controllerNode [.hybrid, .control])
        then m.controlTaskImpact else 0 := by
  have hsum (m : TaskManagerModels) :
      m.getConsumedCapacity g = (g.instanceHostnames.map m.consumed).sum := by
    rw [getConsumedCapacity, hg, groupInstances, sum_filterMap]
    rfl
  rw [hsum, hsum, ← sum_bears _ _ _ _ _ g.nodup, ← sum_bears _ _ _ _ _ g.nodup,
    ← List.sum_map_add, ← List.sum_map_add]
  congr 2
  funext h
  exact consumed_consumeCapacity m job h

theorem getJobsRunning_consumeCapacity (hg : g.isContainerGroup = false) :
    (m.consumeCapacity job).getJobsRunning g = m.getJobsRunning g +
      if g.instanceHostnames.any (m.bears job.executionNode [.hybrid, .execution])
        then 1 else 0 := by
  have hsum (m : TaskManagerModels) :
      m.getJobsRunning g = (g.instanceHostnames.map m.running).sum := by
    rw [getJobsRunning, hg, groupInstances, sum_filterMap]
    rfl
  rw [hsum, hsum, ← sum_bears _ _ _ _ _ g.nodup, ← List.sum_map_add]
  congr 2
  funext h
  exact running_consumeCapacity m job h

theorem hasRemainingCapacity_iff {taskImpact : ℕ} {controlImpact : Bool} :
    m.hasRemainingCapacity g taskImpact controlImpact = true ↔
      (g.maxConcurrentJobs ≠ 0 →
        m.getJobsRunning g + (if controlImpact then 0 else 1) ≤ g.maxConcurrentJobs) ∧
      (g.maxForks ≠ 0 → m.getConsumedCapacity g +
        ((if controlImpact then m.controlTaskImpact else taskImpact : ℕ) : ℤ) ≤ g.maxForks) := by
  simp only [hasRemainingCapacity, Bool.not_eq_true', Bool.or_eq_false_iff, decide_eq_false_iff_not]
  split_ifs <;> simp_all <;> omega

end Group

section Starts
variable {m : TaskManagerModels} {job : UnifiedJob} {st : Start} {g : TaskManagerInstanceGroup}
  {pk : ℕ}

theorem any_bears {c : Hostname} {i : TaskManagerInstance} (hc : m.instances.get? c = some i)
    {nodeTypes : List NodeType} (ht : i.nodeType ∈ nodeTypes) (hostnames : List Hostname) :
    hostnames.any (m.bears (some c) nodeTypes) = true ↔ c ∈ hostnames := by
  simp [List.any_eq_true, bears_some hc, ht]

/-- A start keeps its group within the limits exactly when everything that it charges to
the group was covered. -/
theorem withinLimits_iff_covered (hst : StartCases m job st) (hpk : st.instanceGroup = some pk)
    (hg : m.instanceGroups.get? pk = some g) :
    (∀ g' ∈ (m.consumeCapacity st.placed).instanceGroups.get? pk,
      (m.consumeCapacity st.placed).WithinLimits g') ↔ m.Covered st g := by
  have hplaced : st.placed.instanceGroup = some pk := by simp [Start.placed, hpk]
  simp only [get?_instanceGroups_consumeCapacity, hg, hplaced, Option.map_some, Option.mem_some_iff,
    forall_eq', true_and]
  cases hst with
  | workflow hk => cases hpk
  | control g' c hk hc hrem =>
    obtain rfl := Option.some.inj hpk
    obtain rfl := Option.some.inj (hg.symm.trans hc.group)
    obtain ⟨i, hi, hs, -⟩ := hc.fits
    have hr := (m.hasRemainingCapacity_iff).mp hrem
    rw [covered_iff, WithinLimits]
    cases hcont : g.isContainerGroup with
    | true =>
      simp only [hk, hcont, if_true, hasRemainingCapacity_iff, getJobsRunning, getConsumedCapacity,
        TaskManagerInstanceGroup.consumeCapacity, Start.placed] at hr ⊢
      simp only [Bool.true_eq_false, false_implies, forall_const, true_and, reduceCtorEq,
        Option.some.injEq, Bool.false_eq_true, if_false]
      omega
    | false =>
      rw [if_neg Bool.false_ne_true, getJobsRunning_consumeCapacity _ _ hcont,
        getConsumedCapacity_consumeCapacity _ _ hcont]
      have hcontrol := any_bears hi (serves_control.mp hs) g.instanceHostnames
      simp only [hk, reduceCtorEq, Bool.false_eq_true, Option.some.injEq, false_implies, and_true,
        forall_const, if_true, hasRemainingCapacity_iff, if_false, Option.bind_some,
        nodeType_of_get? hi] at hr ⊢
      simp only [Start.placed, hcontrol, hc.mem, if_true]
      by_cases ht : i.nodeType = .hybrid
      · have hexec : g.instanceHostnames.any (m.bears (some c) [.hybrid, .execution]) = true :=
          (any_bears hi (by simp [ht]) _).mpr hc.mem
        simp only [hexec, ht, if_true, forall_const]
        omega
      · have hexec : g.instanceHostnames.any (m.bears (some c) [.hybrid, .execution]) = false := by
          have hnot : i.nodeType = .control := by simpa [ht] using serves_control.mp hs
          simp [List.any_eq_false, bears_some hi, hnot]
        simp only [hexec, ht, Bool.false_eq_true, if_false, false_implies, iff_true]
        omega
  | container cg g' c pk' hk hc hg' hcont hrem =>
    obtain rfl := Option.some.inj hpk
    obtain rfl := Option.some.inj (hg.symm.trans hg')
    have hr := (m.hasRemainingCapacity_iff).mp hrem
    rw [covered_iff, WithinLimits]
    simp only [hk, hcont, if_true, getJobsRunning, getConsumedCapacity,
      TaskManagerInstanceGroup.consumeCapacity, Start.placed] at hr ⊢
    simp only [Option.some.injEq, reduceCtorEq, Bool.true_eq_false, Bool.false_eq_true, if_false,
      false_implies, implies_true, and_true, iff_true] at hr ⊢
    omega
  | execution cg g' c n pk' i idle hk hc hg' hcont hrem hmem hi hs hfits =>
    obtain rfl := Option.some.inj hpk
    obtain rfl := Option.some.inj (hg.symm.trans hg')
    obtain ⟨ic, hic, hsc, -⟩ := hc.fits
    have hr := (m.hasRemainingCapacity_iff).mp hrem
    have hexec := any_bears hi (serves_execution.mp hs) g.instanceHostnames
    rw [covered_iff, WithinLimits, hcont, if_neg Bool.false_ne_true,
      getJobsRunning_consumeCapacity _ _ hcont, getConsumedCapacity_consumeCapacity _ _ hcont]
    simp only [hk, reduceCtorEq, Bool.false_eq_true, Option.some.injEq, false_implies, and_true,
      true_and, forall_const, hasRemainingCapacity_iff, if_false, Start.placed, hexec, hmem,
      if_true] at hr ⊢
    by_cases ht : i.nodeType = .hybrid
    · have hcontrol : g.instanceHostnames.any (m.bears (some n) [.hybrid, .control]) = true :=
        (any_bears hi (by simp [ht]) _).mpr hmem
      have hown : ∃ c ∈ g.instanceHostnames, n = c := ⟨n, hmem, rfl⟩
      simp only [ht, if_true, hcontrol, Option.some.injEq, hown, forall_const]
      omega
    · have hcontrol := any_bears hic (serves_control.mp hsc) g.instanceHostnames
      simp only [ht, if_false, hcontrol, Option.some.injEq, exists_eq_right']
      by_cases hown : c ∈ g.instanceHostnames
      · simp only [hown, if_true, forall_const]
        omega
      · simp only [hown, if_false, false_implies, iff_true]
        omega

end Starts

end TaskManagerModels

namespace TaskManager

/-- Over a whole run, a start keeps its group within the limits exactly when everything that
it charges to the group was covered. -/
theorem group_limits (tm : TaskManager) (turns : List (Task × Circumstances)) :
    ∀ p ∈ tm.starts turns, ∀ pk g, p.2.instanceGroup = some pk →
      p.1.instanceGroups.get? pk = some g →
      ((∀ g' ∈ (p.1.consumeCapacity p.2.placed).instanceGroups.get? pk,
        (p.1.consumeCapacity p.2.placed).WithinLimits g') ↔ p.1.Covered p.2 g) := by
  intro p hp pk g hpk hg
  obtain ⟨job, hst⟩ := starts_cases hp
  exact TaskManagerModels.withinLimits_iff_covered hst hpk hg

/-- A job on a hybrid node: the check lets its own impact pass, the control cost comes on
top. -/
theorem group_limits_hybridNode : ¬ ∀ (tm : TaskManager) (turns : List (Task × Circumstances)),
    ∀ p ∈ tm.starts turns, ∀ pk, p.2.instanceGroup = some pk →
      ∀ g' ∈ (p.1.consumeCapacity p.2.placed).instanceGroups.get? pk,
        (p.1.consumeCapacity p.2.placed).WithinLimits g' := by
  intro h
  have hw := h (fresh (oneNode .hybrid 1))
    [(pendingTask (.job none none none true) 1, ⟨false, 0, none⟩)] _ List.mem_cons_self 0 rfl _ rfl
  exact absurd (hw.2 (by decide)) (by decide)

/-- With room for both impacts the same job stays within the limit. -/
theorem group_limits_room :
    let tm := fresh (oneNode .hybrid 2)
    let turns := [(pendingTask (.job none none none true) 1, (⟨false, 0, none⟩ : Circumstances))]
    ∀ p ∈ tm.starts turns, ∀ g' ∈ (p.1.consumeCapacity p.2.placed).instanceGroups.get? 0,
      (p.1.consumeCapacity p.2.placed).WithinLimits g' := by
  intro tm turns p hp
  have hcases := hp
  obtain rfl := List.mem_singleton.mp hcases
  exact (group_limits tm turns _ hp 0 _ rfl rfl).mpr
    ⟨fun _ _ _ => by decide, fun _ _ _ => by decide, fun _ _ => by decide⟩

end TaskManager

end Forail.Scheduler
