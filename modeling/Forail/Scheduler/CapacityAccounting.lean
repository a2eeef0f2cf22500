import Forail.Scheduler.TaskManager

/-! Capacity accounting. `counted` is what the fit checks set against the capacity of a node
when a task is started, `increase` what the books then charge to it. The two agree except for
a control task on a node of type `control`, whose own impact is never charged, for a control
cost of 0, which the fit check takes for the impact of the task, and for a node left over
in a task that gets none. What is charged is never more than what was counted, so only an
instance that was picked for being idle can come to exceed its capacity. -/

namespace Forail.Scheduler

open TaskManager

namespace TaskManagerModels

/-- What a start adds to the consumed capacity of a node. -/
def increase (m : TaskManagerModels) (st : Start) (h : Hostname) : ℕ :=
  (if m.bears st.job.executionNode [.hybrid, .execution] h then st.job.taskImpact else 0) +
    if m.bears st.job.controllerNode [.hybrid, .control] h then m.controlTaskImpact else 0

/-- The impact that the fit checks counted for a node: both impacts for a control task, and
else the task with the control cost of a hybrid node on the execution instance, and the
control cost on a controller apart from it. -/
def counted (m : TaskManagerModels) (st : Start) (h : Hostname) : ℕ :=
  let taskImpact := st.job.taskImpact
  match st.job.kind.capacityType with
  | none => 0
  | some .control =>
    if st.job.controllerNode = some h then
      fitImpact (some (taskImpact + m.controlTaskImpact)) taskImpact
    else 0
  | some _ =>
    if st.executionInstance = some h then
      taskImpact + if m.nodeType h = some .hybrid then m.controlTaskImpact else 0
    else if st.job.controllerNode = some h then fitImpact (some m.controlTaskImpact) taskImpact
    else 0

/-- No node is left over in a task that is started without one. -/
structure Unplaced (m : TaskManagerModels) (st : Start) : Prop where
  executionNode : ∀ h, m.bears st.job.executionNode [.hybrid, .execution] h = true →
    st.executionInstance = some h
  controllerNode : st.job.kind.capacityType = none →
    ∀ h, m.bears st.job.controllerNode [.hybrid, .control] h = false

/-- The condition under which a node is charged exactly what was counted for it. -/
@[mk_iff]
structure Accounted (m : TaskManagerModels) (st : Start) (h : Hostname) : Prop where
  executionNode : m.bears st.job.executionNode [.hybrid, .execution] h = true →
    st.executionInstance = some h ∨ st.job.taskImpact = 0 ∨
      st.job.kind.capacityType = some .execution ∧ st.job.controllerNode = some h ∧
        m.controlTaskImpact = 0
  controllerNode : st.job.kind.capacityType = none →
    m.bears st.job.controllerNode [.hybrid, .control] h = true → m.controlTaskImpact = 0
  controlNode : st.executionInstance = some h → m.nodeType h = some .control →
    st.job.taskImpact = 0
  controlCost : st.job.kind.capacityType = some .execution → m.controlTaskImpact = 0 →
    st.job.controllerNode = some h → st.executionInstance = some h ∨
      st.job.taskImpact = 0 ∨ m.bears st.job.executionNode [.hybrid, .execution] h = true

theorem bears_iff {m : TaskManagerModels} {node : Option Hostname} {nodeTypes : List NodeType}
    {h : Hostname} :
    m.bears node nodeTypes h = true ↔ node = some h ∧ ∃ t ∈ nodeTypes, m.nodeType h = some t := by
  simp only [bears, Bool.and_eq_true, decide_eq_true_eq, Option.any_eq_true]
  refine and_congr_right fun _ => ?_
  constructor
  · rintro ⟨t, ht, hm⟩
    exact ⟨t, hm, ht⟩
  · rintro ⟨t, hm, ht⟩
    exact ⟨t, ht, hm⟩

@[simp] theorem fitImpact_add (taskImpact cost : ℕ) :
    fitImpact (some (taskImpact + cost)) taskImpact = taskImpact + cost := by
  unfold fitImpact
  dsimp only
  split_ifs <;> omega

theorem le_fitImpact (taskImpact cost : ℕ) : cost ≤ fitImpact (some cost) taskImpact := by
  unfold fitImpact
  dsimp only
  split_ifs <;> omega

theorem fitImpact_eq (taskImpact cost : ℕ) :
    fitImpact (some cost) taskImpact = cost ↔ cost = 0 → taskImpact = 0 := by
  unfold fitImpact
  dsimp only
  split_ifs <;> simp_all

theorem bears_some {m : TaskManagerModels} {c : Hostname} {i : TaskManagerInstance}
    (hc : m.instances.get? c = some i) (nodeTypes : List NodeType) (h : Hostname) :
    m.bears (some c) nodeTypes h = true ↔ h = c ∧ i.nodeType ∈ nodeTypes := by
  by_cases he : h = c
  · subst he
    simp [bears, nodeType, hc]
  · simp [bears, he, @eq_comm ℕ c]

theorem nodeType_of_get? {m : TaskManagerModels} {c : Hostname} {i : TaskManagerInstance}
    (hc : m.instances.get? c = some i) : m.nodeType c = some i.nodeType := by
  rw [nodeType, hc]
  rfl

theorem serves_control {i : TaskManagerInstance} :
    i.serves .control = true ↔ i.nodeType ∈ [NodeType.hybrid, .control] := by
  cases hi : i.nodeType <;> simp [TaskManagerInstance.serves, hi]

theorem serves_execution {i : TaskManagerInstance} :
    i.serves .execution = true ↔ i.nodeType ∈ [NodeType.hybrid, .execution] := by
  cases hi : i.nodeType <;> simp [TaskManagerInstance.serves, hi]

/-- A node that controls a task and one that only executes it are different. -/
theorem ne_of_serves {m : TaskManagerModels} {n c : Hostname} {i ic : TaskManagerInstance}
    (hi : m.instances.get? n = some i) (hs : i.serves .execution = true)
    (ht : ¬ i.nodeType = .hybrid) (hic : m.instances.get? c = some ic)
    (hsc : ic.serves .control = true) : n ≠ c := by
  rintro rfl
  obtain rfl := Option.some.inj (hi.symm.trans hic)
  have hex : i.nodeType = .execution := by simpa [ht] using serves_execution.mp hs
  simp [TaskManagerInstance.serves, hex] at hsc

section Starts
variable {m : TaskManagerModels} {job : UnifiedJob} {st : Start}

/-- A node is charged what was counted for it exactly under the condition. -/
theorem increase_eq_counted (hst : StartCases m job st) (h : Hostname) :
    m.increase st h = m.counted st h ↔ m.Accounted st h := by
  rw [accounted_iff]
  cases hst with
  | workflow hk =>
    simp only [increase, counted, hk, Nat.add_eq_zero_iff, ite_eq_right_iff]
    simp
  | control g c hk hc hrem =>
    obtain ⟨i, hi, hs, -⟩ := hc.fits
    have hn := nodeType_of_get? hi
    simp only [increase, counted, hk, bears_some hi, serves_control.mp hs]
    by_cases he : h = c
    · subst he
      cases ht : i.nodeType <;> simp_all
    · have hne : ¬ c = h := fun h => he h.symm
      simp [he, hne]
  | container cg g c pk hk hc hg hcont hrem =>
    obtain ⟨i, hi, hs, -⟩ := hc.fits
    simp only [increase, counted, hk, bears_some hi, serves_control.mp hs]
    by_cases he : h = c
    · subst he
      simp only [true_and, if_true, reduceCtorEq, false_or, fitImpact, forall_const]
      split_ifs <;> simp_all [@eq_comm ℕ 0]
    · have hne : ¬ c = h := fun h => he h.symm
      simp [he, hne]
  | execution cg g c n pk i idle hk hc hg hcont hrem hmem hi hs hfits =>
    obtain ⟨ic, hic, hsc, -⟩ := hc.fits
    have hn := nodeType_of_get? hi
    simp only [increase, counted, hk, bears_some hi, serves_execution.mp hs]
    by_cases ht : i.nodeType = .hybrid
    · by_cases he : h = n
      · subst he
        simp [ht, hn, bears_some hi]
      · have hne : ¬ n = h := fun h => he h.symm
        simp [ht, bears_some hi, he, hne]
    · -- the controller was not replaced, and is another node
      have hex : i.nodeType = .execution := by simpa [ht] using serves_execution.mp hs
      have hnc := ne_of_serves hi hs ht hic hsc
      by_cases he : h = n
      · subst he
        simp [hn, hex, bears_some hic, hnc]
      · have hne : ¬ n = h := fun h => he h.symm
        by_cases hc : h = c
        · subst hc
          simp [hex, bears_some hic, he, hne, serves_control.mp hsc, @eq_comm ℕ _ (fitImpact _ _),
            fitImpact_eq]
        · have hne' : ¬ c = h := fun h => hc h.symm
          simp [hex, bears_some hic, he, hne, hc, hne']

theorem increase_le_counted (hst : StartCases m job st) (hu : m.Unplaced st) (h : Hostname) :
    m.increase st h ≤ m.counted st h := by
  cases hst with
  | workflow hk =>
    have he : m.bears job.executionNode [.hybrid, .execution] h = false := by
      simpa using hu.executionNode h
    simp [increase, he, hu.controllerNode hk h]
  | control g c hk hc hrem =>
    obtain ⟨i, hi, hs, -⟩ := hc.fits
    simp only [increase, counted, hk, bears_some hi, Option.some.injEq, @eq_comm ℕ c, fitImpact_add]
    by_cases he : h = c
    · simp only [he, true_and, if_true]
      split_ifs <;> omega
    · simp [he]
  | container cg g c pk hk hc hg hcont hrem =>
    obtain ⟨i, hi, hs, -⟩ := hc.fits
    have he : m.bears job.executionNode [.hybrid, .execution] h = false := by
      simpa using hu.executionNode h
    have hle := le_fitImpact job.taskImpact m.controlTaskImpact
    simp only [increase, counted, hk, bears_some hi, he, Option.some.injEq, @eq_comm ℕ c]
    split_ifs <;> simp_all
  | execution cg g c n pk i idle hk hc hg hcont hrem hmem hi hs hfits =>
    obtain ⟨ic, hic, hsc, -⟩ := hc.fits
    have hn := nodeType_of_get? hi
    have hle := le_fitImpact job.taskImpact m.controlTaskImpact
    simp only [increase, counted, hk, bears_some hi, Option.some.injEq]
    by_cases ht : i.nodeType = .hybrid
    · simp only [ht, if_true, bears_some hi, @eq_comm ℕ n]
      split_ifs <;> simp_all
    · have hnc := ne_of_serves hi hs ht hic hsc
      simp only [ht, if_false, bears_some hic, Option.some.injEq, @eq_comm ℕ n, @eq_comm ℕ c]
      by_cases he : h = n
      · simp only [he, hnc, true_and, if_true, false_and, if_false]
        split_ifs <;> omega
      · simp only [he, false_and, if_false]
        split_ifs <;> simp_all

/-- A node with room for an impact can be charged with it. -/
theorem consumed_add_le {i : TaskManagerInstance} {h : Hostname} {impact : ℕ} {add : Bool}
    (hi : m.instances.get? h = some i) (hfits : 0 ≤ m.wouldBeRemaining i impact add)
    (hle : m.consumed h ≤ m.capacity h) :
    m.consumed h + (impact + if add && i.nodeType = .hybrid then m.controlTaskImpact else 0) ≤
      m.capacity h := by
  simp only [consumed, capacity, hi, Option.map_some, Option.getD_some] at hle ⊢
  simp only [wouldBeRemaining, TaskManagerInstance.remainingCapacity] at hfits
  split_ifs at hfits ⊢ <;> omega

/-- What was counted fits in the capacity of a node that was not picked for being idle. -/
theorem consumed_add_counted_le (hst : StartCases m job st) {h : Hostname}
    (hidle : st.idle = true → st.executionInstance ≠ some h) (hle : m.consumed h ≤ m.capacity h) :
    m.consumed h + m.counted st h ≤ m.capacity h := by
  cases hst with
  | workflow hk => simpa [counted, hk] using hle
  | control g c hk hc hrem =>
    obtain ⟨i, hi, hs, hfits⟩ := hc.fits
    rw [fitImpact_add] at hfits
    simp only [counted, hk, Option.some.injEq, fitImpact_add]
    split_ifs with he
    · subst he
      simpa using consumed_add_le hi hfits hle
    · exact hle
  | container cg g c pk hk hc hg hcont hrem =>
    obtain ⟨i, hi, hs, hfits⟩ := hc.fits
    simp only [counted, hk, Option.some.injEq, reduceCtorEq, if_false]
    split_ifs with he
    · subst he
      simpa using consumed_add_le hi hfits hle
    · exact hle
  | execution cg g c n pk i idle hk hc hg hcont hrem hmem hi hs hfits =>
    obtain ⟨ic, hic, hsc, hcfits⟩ := hc.fits
    simp only [counted, hk, Option.some.injEq]
    by_cases he : n = h
    · subst he
      have hadd := consumed_add_le hi (hfits (by simpa using hidle)) hle
      simpa [nodeType_of_get? hi] using hadd
    · rw [if_neg he]
      by_cases ht : i.nodeType = .hybrid
      · simpa [ht, he] using hle
      · by_cases hch : c = h
        · subst hch
          simpa [ht] using consumed_add_le hic hcfits hle
        · simpa [ht, hch] using hle

end Starts

theorem consumed_start (m : TaskManagerModels) (st : Start) (h : Hostname) :
    (m.consumeCapacity st.placed).consumed h = m.consumed h + m.increase st h := by
  rw [consumed_consumeCapacity, Nat.add_assoc]
  rfl

end TaskManagerModels

namespace TaskManager

theorem starts_cases {tm : TaskManager} {turns : List (Task × Circumstances)}
    {p : TaskManagerModels × Start} (hp : p ∈ tm.starts turns) : ∃ job, StartCases p.1 job p.2 := by
  induction turns generalizing tm with
  | nil => cases hp
  | cons turn rest ih =>
    obtain ⟨t, c⟩ := turn
    rw [starts] at hp
    split_ifs at hp with hstop
    · cases hp
    · rcases List.mem_append.mp hp with hp | hp
      · cases hd : decision tm t with
        | start st =>
          rw [hd] at hp
          obtain rfl := List.mem_singleton.mp hp
          exact ⟨_, (decision_start hd).2.2⟩
        | _ => simp [hd] at hp
      · exact ih hp

@[simp] theorem explain_models (tm : TaskManager) (t : Task) (now : ℤ) (explanation : String) :
    (explain tm t now explanation).models = tm.models := by
  unfold explain
  split_ifs <;> rfl

/-- Only a start changes the books. -/
theorem models_processPendingTask (tm : TaskManager) (t : Task) (c : Circumstances) :
    (processPendingTask tm t c).1.models = match decision tm t with
      | .start st => tm.models.consumeCapacity st.placed
      | _ => tm.models := by
  unfold processPendingTask
  cases hd : decision tm t <;> simp [startTask]

/-- A rule for properties of the books that every start keeps. -/
theorem models_processPendingTasks {P : TaskManagerModels → Prop} {tm : TaskManager}
    {turns : List (Task × Circumstances)}
    (hs : ∀ p ∈ tm.starts turns, P p.1 → P (p.1.consumeCapacity p.2.placed)) (h : P tm.models) :
    P (tm.processPendingTasks turns).models := by
  induction turns generalizing tm with
  | nil => exact h
  | cons turn rest ih =>
    obtain ⟨t, c⟩ := turn
    rw [starts] at hs
    rw [processPendingTasks]
    split_ifs at hs ⊢ with hstop
    · exact h
    · apply ih fun p hp => hs p (List.mem_append_right _ hp)
      rw [models_processPendingTask]
      cases hd : decision tm t with
      | start st => exact hs (tm.models, st) (List.mem_append_left _ (by simp [hd])) h
      | _ => exact h

/-- Every start charges to every node what the fit checks counted for it, exactly where
`Accounted` holds. If all starts meet this condition, or leave no node over, then only an
instance picked for being idle comes to exceed its capacity. -/
theorem capacity_accounting (tm : TaskManager) (turns : List (Task × Circumstances)) :
    (∀ p ∈ tm.starts turns, ∀ h,
      (p.1.consumeCapacity p.2.placed).consumed h = p.1.consumed h + p.1.counted p.2 h ↔
        p.1.Accounted p.2 h) ∧
    ((∀ p ∈ tm.starts turns, (∀ h, p.1.Accounted p.2 h) ∨ p.1.Unplaced p.2) →
      (∀ h, tm.models.consumed h ≤ tm.models.capacity h) →
      ∀ h, (tm.processPendingTasks turns).models.consumed h ≤
          (tm.processPendingTasks turns).models.capacity h ∨
        ∃ p ∈ tm.starts turns, p.2.idle = true ∧ p.2.executionInstance = some h) := by
  constructor
  · intro p hp h
    obtain ⟨job, hst⟩ := starts_cases hp
    rw [TaskManagerModels.consumed_start, Nat.add_left_cancel_iff]
    exact TaskManagerModels.increase_eq_counted hst h
  · intro hu h0 h
    by_cases hidle : ∃ p ∈ tm.starts turns, p.2.idle = true ∧ p.2.executionInstance = some h
    · exact .inr hidle
    · left
      apply models_processPendingTasks (P := fun m => m.consumed h ≤ m.capacity h) _ (h0 h)
      intro p hp hle
      obtain ⟨job, hst⟩ := starts_cases hp
      have hi : p.1.increase p.2 h ≤ p.1.counted p.2 h := by
        rcases hu p hp with ha | hu
        · exact Nat.le_of_eq ((TaskManagerModels.increase_eq_counted hst h).mpr (ha h))
        · exact TaskManagerModels.increase_le_counted hst hu h
      have hc := TaskManagerModels.consumed_add_counted_le hst
        (fun hi he => hidle ⟨p, hp, hi, he⟩) hle
      rw [TaskManagerModels.consumed_start, TaskManagerModels.capacity_consumeCapacity]
      omega

/-! ### A control node that is never charged for what it runs -/

/-- A project update is counted with both impacts, and only the control cost is charged. -/
theorem capacity_accounting_controlNode :
    ¬ ∀ (tm : TaskManager) (turns : List (Task × Circumstances)), ∀ p ∈ tm.starts turns, ∀ h,
      (p.1.consumeCapacity p.2.placed).consumed h = p.1.consumed h + p.1.counted p.2 h := by
  intro h
  have hs := h (fresh (oneNode .control 0)) [(pendingTask (.projectUpdate 5) 1, ⟨false, 0, none⟩)] _
    List.mem_cons_self 0
  exact absurd hs (by decide)

/-- On a hybrid node the accounting of the same task is exact. -/
theorem capacity_accounting_hybridNode :
    let tm := fresh (oneNode .hybrid 0)
    let turns := [(pendingTask (.projectUpdate 5) 1, ⟨false, 0, none⟩)]
    ∀ h, (tm.processPendingTasks turns).models.consumed h ≤
        (tm.processPendingTasks turns).models.capacity h ∨
      ∃ p ∈ tm.starts turns, p.2.idle = true ∧ p.2.executionInstance = some h := by
  intro tm turns
  apply (capacity_accounting tm turns).2
  · intro p hp
    obtain rfl : p = (_, _) := List.mem_singleton.mp hp
    exact .inr ⟨fun h hb => (TaskManagerModels.bears_iff.mp hb).1, fun hk => by cases hk⟩
  · intro h
    by_cases hh : h = 0
    · subst hh; decide
    · simp [TaskManagerModels.consumed, tm, fresh, oneNode, Dict.get?_set, hh]

end TaskManager

end Forail.Scheduler
