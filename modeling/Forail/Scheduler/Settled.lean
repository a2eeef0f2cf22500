import Forail.Scheduler.WorkflowInvariant

/-! Which nodes no later step can change, and what finished runs satisfy. A node with a
mark or an ended job is settled. A node without a template is settled when its parents
are, or when a settled one already leads to it; until then a marking pass may still mark
it. A run is guarded when no node is started on the strength of an unsettled parent. -/

namespace Forail.Scheduler.WorkflowDAG

open Acyclicity

/-- The marking condition does not hold of the node. -/
def Spared (g : WorkflowDAG) (objs : NodeStore) (n : NodeId) : Prop :=
  n ∈ g.getRootNodes ∨ g.dnrCondition objs n = false

/-- No later step changes the node. -/
inductive Settled (g : WorkflowDAG) (objs : NodeStore) : NodeId → Prop
  | dnr {n : NodeId} : (objs n).doNotRun = true → Settled g objs n
  | ended {n : NodeId} {st : Status} : (objs n).job = some st → st.terminal = true →
      Settled g objs n
  | led {n q : NodeId} : (objs n).unifiedJobTemplate = none →
      (objs n).allParentsMustConverge = false → Settled g objs q → g.Follows objs q n →
      Settled g objs n
  | parents {n : NodeId} : (objs n).unifiedJobTemplate = none → Spared g objs n →
      (∀ p, g.Parent p n → Settled g objs p) → Settled g objs n

/-- No later marking pass can find that the node should not have run. -/
def Fixed (g : WorkflowDAG) (objs : NodeStore) (n : NodeId) : Prop :=
  ((objs n).allParentsMustConverge = false ∧ ∃ q, Settled g objs q ∧ g.Follows objs q n) ∨
    (Spared g objs n ∧ ∀ p, g.Parent p n → Settled g objs p)

theorem Advances.eq_of {objs objs' : NodeStore} (h : Advances objs objs') {n : NodeId}
    (hd : (objs' n).doNotRun = (objs n).doNotRun) (hj : (objs' n).job = (objs n).job) :
    objs' n = objs n :=
  WorkflowNode.ext hd hj (h.template n) (h.converge n)

section Stability
variable {g : WorkflowDAG} (hg : g.WellFormed)
include hg

theorem spared_of_led {objs : NodeStore} {n q : NodeId}
    (hc : (objs n).allParentsMustConverge = false) (hf : g.Follows objs q n) :
    Spared g objs n := by
  refine .inr ?_
  rw [← Bool.not_eq_true, dnrCondition_any hg hc]
  intro h
  rcases h q hf.parent with hd | ⟨-, hnf⟩
  · rw [hf.live] at hd; cases hd
  · exact hnf hf

theorem Fixed.spared {objs : NodeStore} {n : NodeId} (h : Fixed g objs n) : Spared g objs n := by
  rcases h with ⟨hc, q, -, hf⟩ | ⟨hs, -⟩
  · exact spared_of_led hg hc hf
  · exact hs

omit hg in
theorem Spared.not_dnr {objs : NodeStore} (hc : Consistent g objs) {n : NodeId}
    (h : Spared g objs n) : (objs n).doNotRun = false := by
  rw [← Bool.not_eq_true]
  intro hd
  rcases h with hr | hcond
  · exact (hc.dnr_nodes n hd).2 hr
  · rw [hc.dnr_cond n hd] at hcond; cases hcond

omit hg in
theorem Follows.of_eq {objs objs' : NodeStore} {q n : NodeId} (hq : objs' q = objs q)
    (hf : g.Follows objs q n) : g.Follows objs' q n :=
  ⟨hq ▸ hf.live, hq ▸ hf.decided, hq ▸ hf.leads⟩

theorem Spared.of_parents_eq {objs objs' : NodeStore} (h : Advances objs objs') {n : NodeId}
    (hp : ∀ p, g.Parent p n → objs' p = objs p) (hs : Spared g objs n) : Spared g objs' n :=
  hs.imp id fun hcond => (dnrCondition_congr hg (h.converge n) hp).trans hcond

variable {objs objs' : NodeStore} (hc : Consistent g objs) (hc' : Consistent g objs')
variable (h : Advances objs objs')
include hc hc' h

omit hg in
theorem eq_of_spared {n : NodeId} (ht : (objs n).unifiedJobTemplate = none)
    (hs : Spared g objs n) (hs' : Spared g objs' n) : objs' n = objs n := by
  have hnone : ∀ o : NodeStore, Consistent g o → (o n).unifiedJobTemplate = none →
      (o n).job = none := fun o ho hto => by
    by_contra hj
    exact ho.template n hj hto
  refine h.eq_of ?_ ?_
  · rw [hs.not_dnr hc, hs'.not_dnr hc']
  · rw [hnone objs hc ht, hnone objs' hc' ((h.template n).trans ht)]

/-- A settled node keeps its record, in every later store. -/
theorem Settled.eq {n : NodeId} (hs : Settled g objs n) : objs' n = objs n := by
  induction hs with
  | dnr hd =>
    have hd' := h.dnr _ hd
    exact h.eq_of (hd'.trans hd.symm) ((hc'.dnr_job _ hd').trans (hc.dnr_job _ hd).symm)
  | @ended n st hj ht =>
    have hj' := h.ended _ _ hj ht
    have hlive : ∀ o : NodeStore, Consistent g o → (o n).job = some st →
        (o n).doNotRun = false := fun o ho hjo => by
      rw [← Bool.not_eq_true]
      exact fun hd => by rw [ho.dnr_job _ hd] at hjo; cases hjo
    exact h.eq_of ((hlive _ hc' hj').trans (hlive _ hc hj).symm) (hj'.trans hj.symm)
  | led ht hconv _ hf ih =>
    exact eq_of_spared hc hc' h ht (spared_of_led hg hconv hf)
      (spared_of_led hg ((h.converge _).trans hconv) (hf.of_eq ih))
  | parents ht hsp _ ih =>
    exact eq_of_spared hc hc' h ht hsp (hsp.of_parents_eq hg h ih)

theorem Settled.advances {n : NodeId} (hs : Settled g objs n) : Settled g objs' n := by
  induction hs with
  | dnr hd => exact .dnr (h.dnr _ hd)
  | ended hj ht => exact .ended (h.ended _ _ hj ht) ht
  | led ht hconv hq hf ih =>
    exact .led ((h.template _).trans ht) ((h.converge _).trans hconv) ih
      (hf.of_eq (hq.eq hg hc hc' h))
  | parents ht hsp hp ih =>
    exact .parents ((h.template _).trans ht)
      (hsp.of_parents_eq hg h fun p hpp => (hp p hpp).eq hg hc hc' h) ih

theorem Fixed.advances {n : NodeId} (hf : Fixed g objs n) : Fixed g objs' n := by
  rcases hf with ⟨hconv, q, hq, hf⟩ | ⟨hsp, hp⟩
  · exact .inl ⟨(h.converge n).trans hconv, q, hq.advances hg hc hc' h,
      hf.of_eq (hq.eq hg hc hc' h)⟩
  · exact .inr ⟨hsp.of_parents_eq hg h fun p hpp => (hp p hpp).eq hg hc hc' h,
      fun p hpp => (hp p hpp).advances hg hc hc' h⟩

end Stability

/-! ### Guarded runs -/

/-- The node is not started on the strength of an unsettled parent. -/
def Safe (g : WorkflowDAG) (objs : NodeStore) (n : NodeId) : Prop :=
  ((objs n).allParentsMustConverge = false ∧ ∃ q, Settled g objs q ∧ g.Follows objs q n) ∨
    ∀ p, g.Parent p n → (objs p).unifiedJobTemplate = none → Settled g objs p

/-- A tick starts only safe nodes. -/
def Guard (g : WorkflowDAG) (s : WorkflowJob) : WorkflowEvent → Prop
  | .tick => ∀ m, MarkedStore g s.objs m → ∀ n, g.Reached m n → g.ready m n = true → Safe g m n
  | .job _ _ => True

section Runs
variable {g : WorkflowDAG} (hg : g.WellFormed) (hac : Acyclic g.Parent)
variable {allowed : NodeId → Status → Prop} {start : NodeStore} {s : WorkflowJob}
include hg

/-- In a marked store a safe node that is ready is fixed. -/
theorem Safe.fixed {m : NodeStore} (hmark : ∀ n ∈ g.nodes, (m n).doNotRun = true ↔ MarkedIn g m n)
    {n : NodeId} (hn : n ∈ g.nodes) (hready : g.ready m n = true) (h : Safe g m n) :
    Fixed g m n := by
  obtain ⟨hd, hj, hpar⟩ := ready_fields hready
  rcases h with h | hp
  · exact .inl h
  · refine .inr ⟨?_, fun p hpp => ?_⟩
    · by_cases hr : n ∈ g.getRootNodes
      · exact .inl hr
      · refine .inr (by_contra fun hcond => ?_)
        rw [(hmark n hn).mpr ⟨hj, hr, by simpa using hcond⟩] at hd
        cases hd
    · rcases (areRelevantParentsFinished_iff hg).mp hpar p hpp with hd | ht | ⟨st, hst, hterm⟩
      · exact .dnr hd
      · exact hp p hpp ht
      · exact .ended hst hterm

include hac in
/-- Where only roots lack a template every run is guarded. -/
theorem guarded_of_missing_roots (hu : Undecided start)
    (ht : ∀ n ∈ g.nodes, (start n).unifiedJobTemplate = none → n ∈ g.getRootNodes)
    (h : (runs g allowed start).Reachable s) :
    ((runs g allowed start).restrict (Guard g)).Reachable s := by
  refine h.restrict fun s e s' hr _ => ?_
  cases e with
  | job n st => trivial
  | tick =>
    refine fun m hm n _ _ => .inr fun p hp hnone => ?_
    have hroot : p ∈ g.getRootNodes := by
      apply ht p hp.nodes.1
      rw [← hnone, hm.marks.template, (runInv hg hac hu hr).advances.template]
    exact .parents hnone (.inl hroot) fun q hq => absurd hq ((hg.mem_getRootNodes.mp hroot).2 q)

include hac in
/-- Along a guarded run every node with a job is fixed. -/
theorem job_fixed (hu : Undecided start)
    (h : ((runs g allowed start).restrict (Guard g)).Reachable s) {n : NodeId}
    (hn : (s.objs n).job ≠ none) : Fixed g s.objs n := by
  revert n
  refine h.invariant (I := fun s => ∀ {n}, (s.objs n).job ≠ none → Fixed g s.objs n) ?_ ?_
  · intro s hs n hn
    rw [show s = _ from hs] at hn
    exact absurd (hu n).2 hn
  · intro s e s' hr ih hstep n hn
    obtain ⟨hstep, hguard⟩ := hstep
    have hinv := runInv hg hac hu hr.of_restrict
    have hinv' := hinv.step hg hac hstep
    have hadv := step_advances hg hac hstep
    by_cases hold : (s.objs n).job = none
    · obtain ⟨rfl, m, hm, hreach, hready, hadv'⟩ := started_by_tick hg hac hstep hold hn
      have hfixed := (hguard m hm n hreach hready).fixed hg
        (fun k hk => hm.marked_iff hg hinv.consistent hk) (hreach.mem_nodes hg) hready
      exact hfixed.advances hg (hinv.consistent.marked hg hm) hinv'.consistent hadv'
    · exact (ih hold).advances hg hinv.consistent hinv'.consistent hadv

/-- At the end of a guarded run the marking condition alone says what became of a node. -/
structure Solved (g : WorkflowDAG) (objs : NodeStore) (n : NodeId) : Prop where
  dnr : (objs n).doNotRun = true ↔ ¬ Spared g objs n
  job : (objs n).job ≠ none ↔ Spared g objs n ∧ (objs n).unifiedJobTemplate ≠ none
  ended : ∀ st, (objs n).job = some st → st.terminal = true

include hac in
theorem solved_of_done (hu : Undecided start)
    (h : ((runs g allowed start).restrict (Guard g)).Reachable s)
    (hdone : g.isWorkflowDone s.objs = true)
    (hmark : ∀ n ∈ g.nodes, (s.objs n).doNotRun = true ↔ MarkedIn g s.objs n) {n : NodeId}
    (hn : n ∈ g.nodes) : Solved g s.objs n := by
  have hinv := runInv hg hac hu h.of_restrict
  have hspared : (s.objs n).job ≠ none → Spared g s.objs n := fun hj =>
    (job_fixed hg hac hu h hj).spared hg
  have hdecided := isWorkflowDone_iff.mp hdone n hn
  have hdnr : (s.objs n).doNotRun = true ↔ ¬ Spared g s.objs n := by
    rw [hmark n hn]
    constructor
    · rintro ⟨-, hr, hcond⟩ (hr' | hcond')
      · exact hr hr'
      · rw [hcond] at hcond'; cases hcond'
    · intro hsp
      have hsp' : n ∉ g.getRootNodes ∧ g.dnrCondition s.objs n = true := by
        rw [Spared, not_or] at hsp
        exact ⟨hsp.1, by simpa using hsp.2⟩
      exact ⟨by_contra fun hj => hsp (hspared hj), hsp'⟩
  refine ⟨hdnr, ⟨fun hj => ⟨hspared hj, hinv.consistent.template n hj⟩, ?_⟩, fun st hst => ?_⟩
  · rintro ⟨hsp, ht⟩ hj
    rcases hdecided with ⟨hd, -⟩ | hf
    · exact hdnr.mp hd hsp
    · rw [WorkflowNode.finished, hj] at hf
      exact ht (by simpa using hf)
  · rcases hdecided with ⟨-, hnone⟩ | hf
    · rw [hst] at hnone; cases hnone
    · simpa [WorkflowNode.finished, hst] using hf

end Runs

/-! ### Fixed outcomes -/

/-- Every job that ends takes the outcome of its node. -/
def outcome (f : NodeId → Status) (n : NodeId) (st : Status) : Prop := st.terminal = true → st = f n

theorem job_outcome {g : WorkflowDAG} (hg : g.WellFormed) (hac : Acyclic g.Parent)
    {f : NodeId → Status} {start : NodeStore} (hu : Undecided start) {s : WorkflowJob}
    (h : (runs g (outcome f) start).Reachable s) {n : NodeId} {st : Status}
    (hn : (s.objs n).job = some st) (ht : st.terminal = true) : st = f n := by
  revert n st
  refine h.invariant
    (I := fun s => ∀ {n st}, (s.objs n).job = some st → st.terminal = true → st = f n) ?_ ?_
  · intro s hs n st hn
    rw [show s = _ from hs] at hn
    rw [(hu n).2] at hn
    cases hn
  · intro s e s' _ ih hstep n st hn ht
    cases e with
    | tick =>
      obtain ⟨m, hm, hc⟩ := tick_cases hg hac hstep.2
      rcases hc with ⟨-, hobjs, -, -⟩ | ⟨r, -, -, -, -, -, -, ho⟩
      · rw [hobjs, hm.marks.job] at hn
        exact ih hn ht
      · rw [ho n] at hn
        split_ifs at hn
        · cases hn; cases ht
        · rw [hm.marks.job] at hn
          exact ih hn ht
    | job k st' =>
      obtain ⟨-, hallowed, rfl⟩ := hstep
      by_cases hk : n = k
      · subst hk
        have hst : st = st' := by simpa [eq_comm] using hn
        exact hst ▸ hallowed (hst ▸ ht)
      · rw [setJob_of_ne s st' hk] at hn
        exact ih hn ht

end Forail.Scheduler.WorkflowDAG
