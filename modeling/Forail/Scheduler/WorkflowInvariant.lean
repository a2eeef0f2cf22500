import Forail.Scheduler.WorkflowRun

/-! The invariant of workflow runs. Along a run marks and ended jobs stay, so the
tests that were true of a node's parents when it was decided stay true. -/

namespace Forail.Scheduler.WorkflowDAG

open Acyclicity

/-- What is decided in `objs` is the same in `objs'`. -/
structure Advances (objs objs' : NodeStore) : Prop where
  template : ∀ n, (objs' n).unifiedJobTemplate = (objs n).unifiedJobTemplate
  converge : ∀ n, (objs' n).allParentsMustConverge = (objs n).allParentsMustConverge
  dnr : ∀ n, (objs n).doNotRun = true → (objs' n).doNotRun = true
  job : ∀ n, (objs n).job ≠ none → (objs' n).job ≠ none
  ended : ∀ n st, (objs n).job = some st → st.terminal = true → (objs' n).job = some st

theorem Advances.refl (objs : NodeStore) : Advances objs objs :=
  ⟨fun _ => rfl, fun _ => rfl, fun _ => id, fun _ => id, fun _ _ h _ => h⟩

theorem Advances.trans {o₁ o₂ o₃ : NodeStore} (h : Advances o₁ o₂) (h' : Advances o₂ o₃) :
    Advances o₁ o₃ :=
  ⟨fun n => (h'.template n).trans (h.template n), fun n => (h'.converge n).trans (h.converge n),
    fun n hn => h'.dnr n (h.dnr n hn), fun n hn => h'.job n (h.job n hn),
    fun n st hj ht => h'.ended n st (h.ended n st hj ht) ht⟩

theorem MarksOnly.advances {objs m : NodeStore} (h : MarksOnly objs m) : Advances objs m :=
  ⟨h.template, h.converge, h.dnr, fun n hn => by rwa [h.job], fun n st hj _ => by rwa [h.job]⟩

/-- What the decided nodes of a store satisfy. -/
structure Consistent (g : WorkflowDAG) (objs : NodeStore) : Prop where
  dnr_job : ∀ n, (objs n).doNotRun = true → (objs n).job = none
  template : ∀ n, (objs n).job ≠ none → (objs n).unifiedJobTemplate ≠ none
  job_nodes : ∀ n, (objs n).job ≠ none → n ∈ g.nodes
  dnr_nodes : ∀ n, (objs n).doNotRun = true → n ∈ g.nodes ∧ n ∉ g.getRootNodes
  dnr_cond : ∀ n, (objs n).doNotRun = true → g.dnrCondition objs n = true
  parents : ∀ n, (objs n).job ≠ none → g.areRelevantParentsFinished objs n = true

theorem Undecided.consistent {g : WorkflowDAG} {start : NodeStore} (h : Undecided start) :
    Consistent g start := by
  have hd : ∀ n, (start n).doNotRun ≠ true := fun n => by simp [(h n).1]
  have hj : ∀ n, ¬ (start n).job ≠ none := fun n => by simp [(h n).2]
  exact ⟨fun n hn => absurd hn (hd n), fun n hn => absurd hn (hj n), fun n hn => absurd hn (hj n),
    fun n hn => absurd hn (hd n), fun n hn => absurd hn (hd n), fun n hn => absurd hn (hj n)⟩

section Stability
variable {g : WorkflowDAG} (hg : g.WellFormed) {objs objs' : NodeStore}
include hg

theorem areRelevantParentsFinished_mono (h : Advances objs objs') {n : NodeId}
    (hn : g.areRelevantParentsFinished objs n = true) :
    g.areRelevantParentsFinished objs' n = true := by
  rw [areRelevantParentsFinished_iff hg] at hn ⊢
  intro p hp
  rcases hn p hp with hd | ht | ⟨st, hj, hst⟩
  · exact .inl (h.dnr p hd)
  · exact .inr (.inl ((h.template p).trans ht))
  · exact .inr (.inr ⟨st, h.ended p st hj hst, hst⟩)

omit hg in
/-- A finished node keeps its job state. -/
theorem finished_job_eq (h : Advances objs objs')
    (ht : ∀ n, (objs' n).job ≠ none → (objs' n).unifiedJobTemplate ≠ none) {p : NodeId}
    (hp : (objs p).finished = true) : (objs' p).job = (objs p).job := by
  unfold WorkflowNode.finished at hp
  cases hj : (objs p).job with
  | some st => rw [h.ended p st hj (by simpa [hj] using hp)]
  | none =>
    have htp : (objs p).unifiedJobTemplate = none := by simpa [hj] using hp
    by_contra hne
    exact ht p hne ((h.template p).trans htp)

theorem dnrCondition_mono (h : Advances objs objs')
    (ht : ∀ n, (objs' n).job ≠ none → (objs' n).unifiedJobTemplate ≠ none) {n : NodeId}
    (hn : g.dnrCondition objs n = true) : g.dnrCondition objs' n = true := by
  cases hc : (objs n).allParentsMustConverge with
  | false =>
    rw [dnrCondition_any hg hc] at hn
    rw [dnrCondition_any hg ((h.converge n).trans hc)]
    intro p hp
    cases hd : (objs' p).doNotRun with
    | true => exact .inl rfl
    | false =>
      have hd₀ : (objs p).doNotRun = false := by
        rw [← Bool.not_eq_true]
        exact fun ht => by simp [h.dnr p ht] at hd
      rcases hn p hp with hd' | ⟨hf, hnf⟩
      · rw [hd₀] at hd'; cases hd'
      · have hj := finished_job_eq h ht hf
        refine .inr ⟨?_, fun hf' => hnf ⟨hd₀, ?_, hj ▸ hf'.leads⟩⟩
        · simpa only [WorkflowNode.finished, hj, h.template p] using hf
        · simpa only [hj, h.template p] using hf'.decided
  | true =>
    rw [dnrCondition_all hg hc] at hn
    rw [dnrCondition_all hg ((h.converge n).trans hc)]
    refine hn.imp (fun hmarked => ?_) fun hne hall => hne ?_
    · obtain ⟨p, hp, hd⟩ := hmarked
      exact ⟨p, hp, h.dnr p hd⟩
    intro p hp st hj hst
    have hterm : st.terminal = true := by rcases hst with rfl | rfl <;> rfl
    exact hall p hp st (h.ended p st hj hterm) hst

omit hg in
/-- A followed edge out of a node with a job stays followed. -/
theorem Follows.mono (h : Advances objs objs')
    (hd : ∀ n, (objs' n).doNotRun = true → (objs' n).job = none) {p n : NodeId}
    (hf : g.Follows objs p n) (hj : (objs p).job ≠ none) : g.Follows objs' p n := by
  obtain ⟨st, hst⟩ := Option.ne_none_iff_exists'.mp hj
  have hl : g.Leads (some st) p n := hst ▸ hf.leads
  have hj' := h.ended p st hst hl.terminal
  refine ⟨?_, .inl (by rw [hj']; rfl), by rwa [hj']⟩
  rw [← Bool.not_eq_true]
  exact fun hdnr => by simp [hd p hdnr] at hj'

end Stability

section Steps
variable {g : WorkflowDAG} (hg : g.WellFormed) {objs objs' : NodeStore}
include hg

/-- The marking pass keeps the store consistent. -/
theorem Consistent.marked {m : NodeStore} (h : Consistent g objs) (hm : MarkedStore g objs m) :
    Consistent g m := by
  have hadv := hm.marks.advances
  have htmpl : ∀ n, (m n).job ≠ none → (m n).unifiedJobTemplate ≠ none := fun n hn => by
    rw [hm.marks.template]
    exact h.template n (by rwa [hm.marks.job] at hn)
  have hcases : ∀ n, (m n).doNotRun = true → (objs n).doNotRun = true ∨
      n ∈ g.nodes ∧ MarkedIn g m n := fun n hn => by
    by_cases hnode : n ∈ g.nodes
    · exact ((hm.dnr n hnode).mp hn).imp id fun h => ⟨hnode, h⟩
    · exact .inl (hm.outside n hnode ▸ hn)
  refine ⟨fun n hn => ?_, htmpl, fun n hn => h.job_nodes n (by rwa [hm.marks.job] at hn),
    fun n hn => ?_, fun n hn => ?_, fun n hn => ?_⟩
  · rcases hcases n hn with hd | ⟨-, hj, -, -⟩
    · rw [hm.marks.job, h.dnr_job n hd]
    · exact hj
  · exact (hcases n hn).elim (h.dnr_nodes n) fun h => ⟨h.1, h.2.2.1⟩
  · rcases hcases n hn with hd | ⟨-, -, -, hc⟩
    · exact dnrCondition_mono hg hadv htmpl (h.dnr_cond n hd)
    · exact hc
  · exact areRelevantParentsFinished_mono hg hadv (h.parents n (by rwa [hm.marks.job] at hn))

omit hg in
/-- Attaching pending jobs to ready nodes advances the store. -/
theorem attach_advances {r : List NodeId} (hr : ∀ n ∈ r, g.ready objs n = true)
    (ho : ∀ n, objs' n = if n ∈ r then { objs n with job := some .pending } else objs n) :
    Advances objs objs' := by
  have hnone : ∀ n ∈ r, (objs n).job = none := fun n hn => by
    have := hr n hn
    simp only [ready, Bool.and_eq_true, Option.isNone_iff_eq_none] at this
    exact this.1.1.1.2
  have hsame : ∀ n, n ∉ r → objs' n = objs n := fun n hn => by rw [ho n, if_neg hn]
  refine ⟨fun n => ?_, fun n => ?_, fun n hn => ?_, fun n hn => ?_, fun n st hj hst => ?_⟩
  · rw [ho n]; split_ifs <;> rfl
  · rw [ho n]; split_ifs <;> rfl
  · rw [ho n]; split_ifs <;> exact hn
  · rw [hsame n fun hmem => hn (hnone n hmem)]
    exact hn
  · rw [hsame n fun hmem => by rw [hnone n hmem] at hj; cases hj]
    exact hj

theorem Consistent.attached (h : Consistent g objs) {r : List NodeId}
    (hr : ∀ n ∈ r, n ∈ g.nodes ∧ g.ready objs n = true)
    (ho : ∀ n, objs' n = if n ∈ r then { objs n with job := some .pending } else objs n) :
    Consistent g objs' := by
  have hadv : Advances objs objs' := attach_advances (fun n hn => (hr n hn).2) ho
  have hdnr : ∀ n, (objs' n).doNotRun = (objs n).doNotRun := fun n => by
    rw [ho n]; split_ifs <;> rfl
  have hjob : ∀ n, (objs' n).job ≠ none → n ∈ r ∨ (objs n).job ≠ none := fun n hn => by
    rw [ho n] at hn
    split_ifs at hn with hmem
    · exact .inl hmem
    · exact .inr hn
  have htmpl : ∀ n, (objs' n).job ≠ none → (objs' n).unifiedJobTemplate ≠ none := fun n hn => by
    rw [hadv.template]
    exact (hjob n hn).elim (fun hm => ready_template (hr n hm).2) (h.template n)
  refine ⟨fun n hn => ?_, htmpl, fun n hn => ?_, fun n hn => ?_, fun n hn => ?_, fun n hn => ?_⟩
  · rw [hdnr] at hn
    have hnr : n ∉ r := fun hm => by
      have hready := (hr n hm).2
      simp [ready, hn] at hready
    rw [ho n, if_neg hnr]
    exact h.dnr_job n hn
  · exact (hjob n hn).elim (fun hm => (hr n hm).1) (h.job_nodes n)
  · exact h.dnr_nodes n (by rwa [hdnr] at hn)
  · exact dnrCondition_mono hg hadv htmpl (h.dnr_cond n (by rwa [hdnr] at hn))
  · refine areRelevantParentsFinished_mono hg hadv ((hjob n hn).elim (fun hm => ?_) (h.parents n))
    have := (hr n hm).2
    simp only [ready, Bool.and_eq_true] at this
    exact this.1.2

omit hg in
theorem setJob_advances {s : WorkflowJob} {n : NodeId} {old st : Status}
    (hj : (s.objs n).job = some old) (ht : old.terminal = false) :
    Advances s.objs (setJob s n st).objs := by
  have hcases : ∀ m, (setJob s n st).objs m = s.objs m ∨
      m = n ∧ (setJob s n st).objs m = { s.objs m with job := some st } := fun m => by
    by_cases he : m = n
    · subst he; exact .inr ⟨rfl, setJob_self s m st⟩
    · exact .inl (setJob_of_ne s st he)
  refine ⟨fun m => ?_, fun m => ?_, fun m hm => ?_, fun m hm => ?_, fun m st' hj' ht' => ?_⟩
  · rcases hcases m with h | ⟨-, h⟩ <;> rw [h]
  · rcases hcases m with h | ⟨-, h⟩ <;> rw [h]
  · rwa [setJob_doNotRun]
  · rcases hcases m with h | ⟨-, h⟩ <;> rw [h]
    · exact hm
    · exact Option.some_ne_none st
  · rw [setJob_of_ne s st fun he => ?_]
    · exact hj'
    · rw [he, hj] at hj'
      rw [← Option.some.inj hj', ht] at ht'
      cases ht'

omit hg in
theorem setJob_job_ne_none {s : WorkflowJob} {n m : NodeId} {old st : Status}
    (hj : (s.objs n).job = some old) :
    ((WorkflowDAG.setJob s n st).objs m).job ≠ none ↔ (s.objs m).job ≠ none := by
  by_cases he : m = n
  · subst he; simp [hj]
  · rw [setJob_of_ne s st he]

theorem Consistent.setJob {s : WorkflowJob} (h : Consistent g s.objs) {n : NodeId} {old st : Status}
    (hj : (s.objs n).job = some old) (ht : old.terminal = false) :
    Consistent g (setJob s n st).objs := by
  have hadv : Advances s.objs (WorkflowDAG.setJob s n st).objs := setJob_advances hj ht
  have hjob : ∀ m, ((WorkflowDAG.setJob s n st).objs m).job ≠ none → (s.objs m).job ≠ none :=
    fun m => (setJob_job_ne_none hj).mp
  have htmpl : ∀ m, ((WorkflowDAG.setJob s n st).objs m).job ≠ none →
      ((WorkflowDAG.setJob s n st).objs m).unifiedJobTemplate ≠ none := fun m hm => by
    rw [hadv.template]
    exact h.template m (hjob m hm)
  refine ⟨fun m hm => ?_, htmpl, fun m hm => h.job_nodes m (hjob m hm),
    fun m hm => h.dnr_nodes m (by simpa using hm), fun m hm => ?_, fun m hm => ?_⟩
  · rw [setJob_doNotRun] at hm
    by_contra hne
    exact hjob m hne (h.dnr_job m hm)
  · rw [setJob_doNotRun] at hm
    exact dnrCondition_mono hg hadv htmpl (h.dnr_cond m hm)
  · exact areRelevantParentsFinished_mono hg hadv (h.parents m (hjob m hm))

/-- In a marked store the marks are those of the condition: earlier marks meet it still. -/
theorem MarkedStore.marked_iff {m : NodeStore} (h : Consistent g objs) (hm : MarkedStore g objs m)
    {n : NodeId} (hn : n ∈ g.nodes) : (m n).doNotRun = true ↔ MarkedIn g m n := by
  refine ⟨fun hd => ?_, fun hi => (hm.dnr n hn).mpr (.inr hi)⟩
  have hc := h.marked hg hm
  exact ⟨hc.dnr_job n hd, (hc.dnr_nodes n hd).2, hc.dnr_cond n hd⟩

end Steps

/-! ### The invariant of runs -/

/-- A finished workflow: no job is left to wait for, and the marks solve their equation. -/
structure Final (g : WorkflowDAG) (objs : NodeStore) : Prop where
  done : g.isWorkflowDone objs = true
  marked : ∀ n ∈ g.nodes, (objs n).doNotRun = true ↔ MarkedIn g objs n

structure RunInv (g : WorkflowDAG) (start : NodeStore) (s : WorkflowJob) : Prop where
  advances : Advances start s.objs
  consistent : Consistent g s.objs
  mem_spawned : ∀ n, n ∈ s.spawned ↔ (s.objs n).job ≠ none
  nodup : s.spawned.Nodup
  final : s.status ≠ .running → Final g s.objs

theorem isWorkflowDone_iff {g : WorkflowDAG} {objs : NodeStore} :
    g.isWorkflowDone objs = true ↔ ∀ n ∈ g.nodes,
      (objs n).doNotRun = true ∧ (objs n).job = none ∨ (objs n).finished = true := by
  simp only [isWorkflowDone, List.all_eq_true]
  refine forall₂_congr fun n _ => ?_
  unfold WorkflowNode.finished
  cases (objs n).job with
  | none => cases (objs n).doNotRun <;> cases (objs n).unifiedJobTemplate <;> simp
  | some st => cases st <;> simp [Status.terminal]

theorem ready_fields {g : WorkflowDAG} {objs : NodeStore} {n : NodeId} (h : g.ready objs n = true) :
    (objs n).doNotRun = false ∧ (objs n).job = none ∧
      g.areRelevantParentsFinished objs n = true := by
  simp only [ready, Bool.and_eq_true, Bool.not_eq_true', Option.isNone_iff_eq_none] at h
  exact ⟨h.1.1.1.1, h.1.1.1.2, h.1.2⟩

section Runs
variable {g : WorkflowDAG} (hg : g.WellFormed) (hac : Acyclic g.Parent)
variable {allowed : NodeId → Status → Prop} {start : NodeStore} {s s' : WorkflowJob}
include hg hac

theorem RunInv.tick (h : RunInv g start s) (hrun : s.status = .running)
    (ht : g.tick s = some s') : RunInv g start s' := by
  obtain ⟨m, hm, hc⟩ := tick_cases hg hac ht
  have hcm := h.consistent.marked hg hm
  have hadv := h.advances.trans hm.marks.advances
  have hjob : ∀ n, (m n).job = (s.objs n).job := hm.marks.job
  rcases hc with ⟨hd, hobjs, hsp, hst⟩ | ⟨r, hd, hr, hnd, hmem, hst, hsp, ho⟩
  · refine ⟨hobjs ▸ hadv, hobjs ▸ hcm, fun n => ?_, hsp ▸ h.nodup, fun _ => ?_⟩
    · rw [hsp, hobjs, hjob, h.mem_spawned]
    · rw [hobjs]
      exact ⟨hd, fun n hn => hm.marked_iff hg h.consistent hn⟩
  · have hready : ∀ n ∈ r, g.ready m n = true := fun n hn => ((hmem n).mp hn).2
    have hfresh : ∀ n ∈ r, n ∉ s.spawned := fun n hn hs =>
      (h.mem_spawned n).mp hs ((hjob n).symm.trans (ready_fields (hready n hn)).2.1)
    refine ⟨hadv.trans (attach_advances hready ho),
      hcm.attached hg (fun n hn => ⟨((hmem n).mp hn).1.mem_nodes hg, hready n hn⟩) ho,
      fun n => ?_, ?_, fun hne => absurd (hst.trans hrun) hne⟩
    · rw [hsp, List.mem_append, h.mem_spawned, ho n]
      split_ifs with hn
      · simp [hn]
      · rw [hjob]; simp [hn]
    · rw [hsp]
      refine List.nodup_append.mpr ⟨h.nodup, hnd, fun a ha b hb hab => ?_⟩
      exact hfresh b hb (hab ▸ ha)

omit hac in
theorem RunInv.setJob (h : RunInv g start s) {n : NodeId} {old st : Status}
    (hj : (s.objs n).job = some old) (ht : old.terminal = false) :
    RunInv g start (setJob s n st) := by
  refine ⟨h.advances.trans (setJob_advances hj ht), h.consistent.setJob hg hj ht, fun m => ?_,
    h.nodup, fun hs => ?_⟩
  · exact (h.mem_spawned m).trans (setJob_job_ne_none hj).symm
  · have hn : n ∈ g.nodes := h.consistent.job_nodes n (by rw [hj]; exact Option.some_ne_none _)
    -- a finished workflow has no job that could still change
    rcases isWorkflowDone_iff.mp (h.final hs).done n hn with ⟨-, hnone⟩ | hfin
    · rw [hnone] at hj; cases hj
    · rw [WorkflowNode.finished, hj] at hfin
      simp [ht] at hfin

theorem RunInv.step (h : RunInv g start s) {e : WorkflowEvent}
    (hs : (runs g allowed start).step s e s') : RunInv g start s' := by
  cases e with
  | tick => exact h.tick hg hac hs.1 hs.2
  | job n st =>
    obtain ⟨⟨old, hj, ht⟩, -, rfl⟩ := hs
    exact h.setJob hg hj ht

theorem runInv (hu : Undecided start) (h : (runs g allowed start).Reachable s) :
    RunInv g start s := by
  refine h.invariant (fun s hs => ?_) fun s e s' _ hi hs => hi.step hg hac hs
  rw [show s = _ from hs]
  exact ⟨.refl _, hu.consistent, fun n => by simp [(hu n).2], List.nodup_nil,
    fun hne => absurd rfl hne⟩

theorem step_advances {e : WorkflowEvent}
    (hs : (runs g allowed start).step s e s') : Advances s.objs s'.objs := by
  cases e with
  | tick =>
    obtain ⟨m, hm, hc⟩ := tick_cases hg hac hs.2
    rcases hc with ⟨-, hobjs, -, -⟩ | ⟨r, -, -, -, hmem, -, -, ho⟩
    · rw [hobjs]
      exact hm.marks.advances
    · exact hm.marks.advances.trans (attach_advances (fun n hn => ((hmem n).mp hn).2) ho)
  | job n st =>
    obtain ⟨⟨old, hj, ht⟩, -, rfl⟩ := hs
    exact setJob_advances hj ht

/-- A node gets its job in a tick that finds it reached and ready. -/
theorem started_by_tick {e : WorkflowEvent} (hs : (runs g allowed start).step s e s') {n : NodeId}
    (hold : (s.objs n).job = none) (hnew : (s'.objs n).job ≠ none) :
    e = .tick ∧ ∃ m, MarkedStore g s.objs m ∧ g.Reached m n ∧ g.ready m n = true ∧
      Advances m s'.objs := by
  cases e with
  | job k st =>
    obtain ⟨⟨old, hj, -⟩, -, rfl⟩ := hs
    exact absurd hold ((setJob_job_ne_none hj).mp hnew)
  | tick =>
    obtain ⟨m, hm, hc⟩ := tick_cases hg hac hs.2
    rcases hc with ⟨-, hobjs, -, -⟩ | ⟨r, -, -, -, hmem, -, -, ho⟩
    · rw [hobjs, hm.marks.job] at hnew
      exact absurd hold hnew
    · by_cases hn : n ∈ r
      · exact ⟨rfl, m, hm, ((hmem n).mp hn).1, ((hmem n).mp hn).2,
          attach_advances (fun k hk => ((hmem k).mp hk).2) ho⟩
      · rw [ho n, if_neg hn, hm.marks.job] at hnew
        exact absurd hold hnew

end Runs

end Forail.Scheduler.WorkflowDAG
