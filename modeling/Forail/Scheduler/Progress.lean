import Forail.Scheduler.WorkflowInvariant

/-! Deadlock of workflow runs. When every attached job is over and something is
undecided, a topologically first undecided node has only decided parents. Such a node is
returned by the search unless it is stranded: an ALL-convergence node whose parents all
ended in error or were canceled, without a failure or always edge to it. The marking
pass does not look at such parents and the search does not follow them, so a stranded
node stays undecided for ever, and the run goes on to a state without progress. -/

namespace Forail.Scheduler.WorkflowDAG

open Acyclicity

/-- The next tick finds the workflow done, or a node to run. -/
def progresses (g : WorkflowDAG) (s : WorkflowJob) : Bool :=
  match g.markDnrNodes s.objs with
  | none => false
  | some (objs, _) => g.isWorkflowDone objs ||
    match g.bfsNodesToRun objs with
    | none => false
    | some nodes => !nodes.isEmpty

def JobsOver (objs : NodeStore) : Prop := ∀ n st, (objs n).job = some st → st.terminal = true

/-- No parent of the ALL-convergence node can lead to it, and none has it marked. -/
structure Stranded (g : WorkflowDAG) (objs : NodeStore) (n : NodeId) : Prop where
  nonroot : n ∈ g.nodes ∧ n ∉ g.getRootNodes
  converge : (objs n).allParentsMustConverge = true
  parents : ∀ p, g.Parent p n → ((objs p).job = some .error ∨ (objs p).job = some .canceled) ∧
    ¬ g.Leads (objs p).job p n

theorem Stranded.advances {g : WorkflowDAG} {objs objs' : NodeStore} {n : NodeId}
    (h : Stranded g objs n) (ha : Advances objs objs') : Stranded g objs' n := by
  refine ⟨h.nonroot, (ha.converge n).trans h.converge, fun p hp => ?_⟩
  obtain ⟨hj, hl⟩ := h.parents p hp
  have hsame : (objs' p).job = (objs p).job := by
    rcases hj with hj | hj
    · rw [hj]; exact ha.ended p _ hj rfl
    · rw [hj]; exact ha.ended p _ hj rfl
  rw [hsame]
  exact ⟨hj, hl⟩

/-- All nodes of the workflow have a template. -/
def AllTemplates (g : WorkflowDAG) (objs : NodeStore) : Prop :=
  ∀ n ∈ g.nodes, (objs n).unifiedJobTemplate ≠ none

theorem AllTemplates.advances {g : WorkflowDAG} {objs objs' : NodeStore} (h : AllTemplates g objs)
    (ha : Advances objs objs') : AllTemplates g objs' := fun n hn => by
  rw [ha.template]
  exact h n hn

/-- With templates everywhere the search only follows nodes with a job. -/
theorem Follows.job {g : WorkflowDAG} {objs : NodeStore} (ht : AllTemplates g objs) {p n : NodeId}
    (h : g.Follows objs p n) : (objs p).job ≠ none := by
  rcases h.decided with hj | hnone
  · exact Option.isSome_iff_ne_none.mp hj
  · exact absurd hnone (ht p h.parent.nodes.1)

theorem Reached.mono {g : WorkflowDAG} {objs objs' : NodeStore} (ht : AllTemplates g objs)
    (ha : Advances objs objs') (hd : ∀ n, (objs' n).doNotRun = true → (objs' n).job = none)
    {n : NodeId} (h : g.Reached objs n) : g.Reached objs' n := by
  induction h with
  | root hr => exact .root hr
  | step _ hf ih => exact .step ih (hf.mono ha hd (hf.job ht))

section Runs
variable {g : WorkflowDAG} (hg : g.WellFormed) (hac : Acyclic g.Parent)
variable {allowed : NodeId → Status → Prop} {start : NodeStore} {s s' : WorkflowJob}
include hg hac

/-- The search reaches every node that has a job. -/
theorem job_reached (hu : Undecided start) (ht : AllTemplates g start)
    (h : (runs g allowed start).Reachable s) {n : NodeId} (hn : (s.objs n).job ≠ none) :
    g.Reached s.objs n := by
  revert n
  refine h.invariant (I := fun s => ∀ {n}, (s.objs n).job ≠ none → g.Reached s.objs n) ?_ ?_
  · intro s hs n hn
    rw [show s = _ from hs] at hn
    exact absurd (hu n).2 hn
  · intro s e s' hr ih hstep n hn
    have hinv := runInv hg hac hu hr
    have hinv' := hinv.step hg hac hstep
    have hts := ht.advances hinv.advances
    have hmono : ∀ {n}, g.Reached s.objs n → g.Reached s'.objs n :=
      Reached.mono hts (step_advances hg hac hstep) hinv'.consistent.dnr_job
    by_cases hold : (s.objs n).job = none
    · obtain ⟨-, m, hm, hreach, -, hadv⟩ := started_by_tick hg hac hstep hold hn
      exact hreach.mono (hts.advances hm.marks.advances) hadv hinv'.consistent.dnr_job
    · exact hmono (ih hold)

omit hac in
/-- In a marked store, an undecided node with only decided parents is ready, and the
search reaches it unless it is stranded. -/
theorem reached_ready_of_parents {m : NodeStore} (ht : AllTemplates g m)
    (hmark : ∀ n ∈ g.nodes, (m n).doNotRun = true ↔ MarkedIn g m n)
    (hreach : ∀ n, (m n).job ≠ none → g.Reached m n)
    {n : NodeId} (hn : n ∈ g.nodes) (hj : (m n).job = none) (hd : (m n).doNotRun = false)
    (hpar : ∀ p, g.Parent p n → (m p).doNotRun = true ∨ ∃ st, (m p).job = some st ∧ st.terminal = true)
    (hs : ¬ Stranded g m n) : g.Reached m n ∧ g.ready m n = true := by
  have hfin : g.areRelevantParentsFinished m n = true :=
    (areRelevantParentsFinished_iff hg).mpr fun p hp => (hpar p hp).imp id .inr
  have htmpl : (m n).unifiedJobTemplate.isSome := Option.isSome_iff_ne_none.mpr (ht n hn)
  have hready : (m n).allParentsMustConverge = false ∨ g.allParentsMetConvergenceCriteria m n = true →
      g.ready m n = true := fun h => by
    rcases h with h | h <;> simp [ready, hj, hd, hfin, htmpl, h]
  by_cases hroot : n ∈ g.getRootNodes
  · refine ⟨.root hroot, hready (.inr ?_)⟩
    rw [allParentsMetConvergenceCriteria_iff hg]
    exact fun p hp => absurd hp ((hg.mem_getRootNodes.mp hroot).2 p)
  have hcond : ¬ g.dnrCondition m n = true := fun hc => by
    rw [(hmark n hn).mpr ⟨hj, hroot, hc⟩] at hd
    cases hd
  have hfollow : ∀ p st, (m p).job = some st → (m p).doNotRun = false → g.Leads (some st) p n →
      g.Reached m n := fun p st hst hlive hl =>
    .step (hreach p (by simp [hst])) ⟨hlive, .inl (by simp [hst]), hst ▸ hl⟩
  cases hc : (m n).allParentsMustConverge with
  | false =>
    -- some parent is not excluded by the marking condition, so it leads here
    rw [dnrCondition_any hg hc] at hcond
    push Not at hcond
    obtain ⟨p, hp, hlive, hf⟩ := hcond
    obtain ⟨st, hst, hterm⟩ := (hpar p hp).resolve_left hlive
    have hpf := hf (by simp [WorkflowNode.finished, hst, hterm])
    exact ⟨.step (hreach p (by simp [hst])) hpf, hready (.inl hc)⟩
  | true =>
    rw [dnrCondition_all hg hc] at hcond
    push Not at hcond
    obtain ⟨hlive, hmet⟩ := hcond
    refine ⟨?_, hready (.inr ((allParentsMetConvergenceCriteria_iff hg).mpr hmet))⟩
    by_contra hnot
    refine hs ⟨⟨hn, hroot⟩, hc, fun p hp => ?_⟩
    obtain ⟨st, hst, hterm⟩ := (hpar p hp).resolve_left (hlive p hp)
    have hnl : ¬ g.Leads (some st) p n := fun hl =>
      hnot (hfollow p st hst (by simpa using hlive p hp) hl)
    have hmet' := hmet p hp st hst
    refine ⟨?_, by rwa [hst]⟩
    cases st with
    | successful => exact absurd (hmet' (.inl rfl)) hnl
    | failed => exact absurd (hmet' (.inr rfl)) hnl
    | error => exact .inl hst
    | canceled => exact .inr hst
    | new | pending | waiting | running => cases hterm

omit hg hac in
theorem progresses_iff {m : NodeStore} {marked : List NodeId}
    (hm : g.markDnrNodes s.objs = some (m, marked)) {r : List NodeId}
    (hr : g.bfsNodesToRun m = some r) :
    g.progresses s = true ↔ g.isWorkflowDone m = true ∨ r ≠ [] := by
  simp [progresses, hm, hr]

/-- A state with all attached jobs over and no stranded node progresses. -/
theorem progresses_of_not_stranded (hu : Undecided start) (ht : AllTemplates g start)
    (h : (runs g allowed start).Reachable s) (hover : JobsOver s.objs)
    (hs : ∀ n, ¬ Stranded g s.objs n) : g.progresses s = true := by
  have hinv := runInv hg hac hu h
  obtain ⟨m, -, hm, ⟨marked, hmark⟩, -, -⟩ := tick_spec hg hac s
  obtain ⟨r, hr, -, hmem⟩ := bfsNodesToRun_spec hg m
  rw [progresses_iff hmark hr]
  by_contra hnot
  push Not at hnot
  obtain ⟨hdone, hr0⟩ := hnot
  have hjob : ∀ n, (m n).job = (s.objs n).job := hm.marks.job
  have htm : AllTemplates g m := (ht.advances hinv.advances).advances hm.marks.advances
  have hcm := hinv.consistent.marked hg hm
  have hreach : ∀ n, (m n).job ≠ none → g.Reached m n := fun n hn =>
    (job_reached hg hac hu ht h (by rwa [hjob] at hn)).mono (ht.advances hinv.advances)
      hm.marks.advances hcm.dnr_job
  have hterm : ∀ n st, (m n).job = some st → st.terminal = true := fun n st hst =>
    hover n st ((hjob n).symm.trans hst)
  -- some node is undecided
  have hex : ∃ n, n ∈ g.nodes ∧ (m n).job = none ∧ (m n).doNotRun = false := by
    by_contra hall
    push Not at hall
    refine hdone (isWorkflowDone_iff.mpr fun n hn => ?_)
    cases hj : (m n).job with
    | none => exact .inl ⟨by simpa using hall n hn hj, rfl⟩
    | some st => exact .inr (by simp [WorkflowNode.finished, hj, hterm n st hj])
  -- a topologically first one has only decided parents
  obtain ⟨n, ⟨hn, hj, hd⟩, hmin⟩ := (hac.wellFounded g.nodes fun a b hab => hab.nodes.1).has_min
    {n | n ∈ g.nodes ∧ (m n).job = none ∧ (m n).doNotRun = false} hex
  have hpar : ∀ p, g.Parent p n → (m p).doNotRun = true ∨
      ∃ st, (m p).job = some st ∧ st.terminal = true := fun p hp => by
    cases hj' : (m p).job with
    | some st => exact .inr ⟨st, rfl, hterm p st hj'⟩
    | none =>
      by_contra hlive
      exact hmin p ⟨hp.nodes.1, hj', by simpa using hlive⟩ hp
  have hs' : ¬ Stranded g m n := fun hst => hs n ⟨hst.nonroot,
    (hm.marks.converge n).symm.trans hst.converge, fun p hp => hjob p ▸ hst.parents p hp⟩
  have hfound := reached_ready_of_parents hg htm
    (fun k hk => hm.marked_iff hg hinv.consistent hk) hreach hn hj hd hpar hs'
  have hnr := (hmem n).mpr hfound
  rw [hr0] at hnr
  exact List.not_mem_nil hnr

/-- A stranded node is never decided. -/
theorem Stranded.undecided (hu : Undecided start) (ht : AllTemplates g start)
    (h : (runs g allowed start).Reachable s) {n : NodeId} (hs : Stranded g s.objs n) :
    (s.objs n).job = none ∧ (s.objs n).doNotRun = false := by
  have hinv := runInv hg hac hu h
  have hnf : ∀ p, ¬ g.Follows s.objs p n := fun p hf => (hs.parents p hf.parent).2 hf.leads
  have hjob : (s.objs n).job = none := by
    by_contra hj
    cases job_reached hg hac hu ht h hj with
    | root hr => exact hs.nonroot.2 hr
    | step _ hf => exact hnf _ hf
  refine ⟨hjob, ?_⟩
  rw [← Bool.not_eq_true]
  intro hd
  rcases (dnrCondition_all hg hs.converge).mp (hinv.consistent.dnr_cond n hd) with
    ⟨p, hp, hdp⟩ | hmet
  · have hnone := hinv.consistent.dnr_job p hdp
    rcases (hs.parents p hp).1 with hj | hj <;> rw [hnone] at hj <;> cases hj
  · refine hmet fun p hp st hst hcase => ?_
    rcases (hs.parents p hp).1 with hj | hj <;> rw [hst] at hj <;> cases hj <;> simp at hcase

omit hg hac in
/-- The listed jobs that are not over can end one after the other. -/
theorem exists_jobs_over (g : WorkflowDAG) (start : NodeStore) (ha : ∀ n, allowed n .successful)
    (l : List NodeId) (s : WorkflowJob) :
    ∃ s', (runs g allowed start).Steps s s' ∧ s'.spawned = s.spawned ∧ s'.status = s.status ∧
      ∀ n ∈ l, ∀ st, (s'.objs n).job = some st → st.terminal = true := by
  induction l with
  | nil => exact ⟨s, .refl, rfl, rfl, by simp⟩
  | cons n l ih =>
    obtain ⟨t, hsteps, hsp, hst, hover⟩ := ih
    by_cases hn : ∀ st, (t.objs n).job = some st → st.terminal = true
    · refine ⟨t, hsteps, hsp, hst, fun k hk => ?_⟩
      rcases List.mem_cons.mp hk with rfl | hk
      · exact hn
      · exact hover k hk
    · push Not at hn
      obtain ⟨old, hj, hold⟩ := hn
      have hstep : (runs g allowed start).step t (.job n .successful) (setJob t n .successful) :=
        ⟨⟨old, hj, by simpa using hold⟩, ha n, rfl⟩
      refine ⟨_, hsteps.trans (.one hstep), hsp, hst, fun k hk st hk' => ?_⟩
      by_cases hkn : k = n
      · subst hkn
        have hst' : st = .successful := by simpa [eq_comm] using hk'
        rw [hst']; rfl
      · refine hover k ((List.mem_cons.mp hk).resolve_left hkn) st ?_
        rwa [setJob_of_ne t .successful hkn] at hk'

theorem steps_advances (h : (runs g allowed start).Steps s s') : Advances s.objs s'.objs := by
  induction h with
  | refl => exact .refl _
  | tail _ hstep ih =>
    obtain ⟨e, hstep⟩ := hstep
    exact ih.trans (step_advances hg hac hstep)

/-- From a state with a stranded node some run ends without progress: as long as there is
progress, another node gets its job, and there are only finitely many. -/
theorem exists_stuck (ha : ∀ n, allowed n .successful) (hu : Undecided start)
    (ht : AllTemplates g start) (h : (runs g allowed start).Reachable s) {n : NodeId}
    (hs : Stranded g s.objs n) :
    ∃ s', (runs g allowed start).Steps s s' ∧ JobsOver s'.objs ∧ g.progresses s' = false := by
  suffices ∀ k, ∀ s, (runs g allowed start).Reachable s → Stranded g s.objs n →
      g.nodes.length ≤ s.spawned.length + k →
      ∃ s', (runs g allowed start).Steps s s' ∧ JobsOver s'.objs ∧ g.progresses s' = false from
    this g.nodes.length s h hs (by omega)
  intro k
  induction k with
  | zero =>
    intro s h hs hlen
    -- every node has a job, the stranded one included
    have hinv := runInv hg hac hu h
    have hsub : s.spawned ⊆ g.nodes := fun m hm =>
      hinv.consistent.job_nodes m ((hinv.mem_spawned m).mp hm)
    have hperm := (hinv.nodup.subperm hsub).perm_of_length_le (by omega)
    have hmem : n ∈ s.spawned := hperm.mem_iff.mpr hs.nonroot.1
    exact absurd (hs.undecided hg hac hu ht h).1 ((hinv.mem_spawned n).mp hmem)
  | succ k ih =>
    intro s h hs hlen
    obtain ⟨t, hsteps, hsp, hst, hover⟩ := exists_jobs_over g start ha g.nodes s
    have hreach := h.steps hsteps
    have hinv := runInv hg hac hu hreach
    have hst' : Stranded g t.objs n := hs.advances (steps_advances hg hac hsteps)
    have hjobs : JobsOver t.objs := fun m st hm =>
      hover m (hinv.consistent.job_nodes m (by rw [hm]; exact Option.some_ne_none _)) st hm
    cases hp : g.progresses t with
    | false => exact ⟨t, hsteps, hjobs, hp⟩
    | true =>
      have hnot : ∀ objs, Advances t.objs objs → (objs n).job = none → (objs n).doNotRun = false →
          g.isWorkflowDone objs ≠ true := fun objs hadv hj hd hdone => by
        rcases isWorkflowDone_iff.mp hdone n hs.nonroot.1 with ⟨hd', -⟩ | hf
        · rw [hd] at hd'; cases hd'
        · refine ht.advances (hinv.advances.trans hadv) n hs.nonroot.1 ?_
          simpa [WorkflowNode.finished, hj] using hf
      have hrun : t.status = .running := by
        by_contra hne
        obtain ⟨hj, hd⟩ := hst'.undecided hg hac hu ht hreach
        exact hnot t.objs (.refl _) hj hd (hinv.final hne).done
      obtain ⟨m, t', hm, ⟨marked, hmark⟩, htick, hc⟩ := tick_spec hg hac t
      have hstep : (runs g allowed start).step t .tick t' := ⟨hrun, htick⟩
      have hreach' := hreach.steps (.one hstep)
      have hs' : Stranded g t'.objs n := hst'.advances (step_advances hg hac hstep)
      obtain ⟨hj, hd⟩ := hs'.undecided hg hac hu ht hreach'
      rcases hc with ⟨hdone, hobjs, -, -⟩ | ⟨r, hdone, hr, -, -, -, hsp', -⟩
      · exact absurd hdone (hobjs ▸ hnot t'.objs (step_advances hg hac hstep) hj hd)
      · have hr0 : r ≠ [] := by
          rw [progresses_iff hmark hr, hdone] at hp
          exact hp.resolve_left (by simp)
        have hlen' : g.nodes.length ≤ t'.spawned.length + k := by
          have := List.length_pos_iff.mpr hr0
          rw [hsp', hsp, List.length_append]
          omega
        obtain ⟨u, hu', hou, hpu⟩ := ih t' hreach' hs' hlen'
        exact ⟨u, (hsteps.trans (.one hstep)).trans hu', hou, hpu⟩

end Runs

/-- The states that follow a reachable one all progress once their jobs are over exactly
when none of them has a stranded node. -/
theorem progresses_iff_not_stranded {w : WorkflowGraph} (hac : Acyclic w.Parent) {start : NodeStore}
    (hu : Undecided start) (ht : ∀ n ∈ w.nodes, (start n).unifiedJobTemplate ≠ none)
    {s : WorkflowJob} (hs : (runs w.initGraph anyStatus start).Reachable s) :
    (∀ s', (runs w.initGraph anyStatus start).Steps s s' → JobsOver s'.objs →
      w.initGraph.progresses s' = true) ↔
    ∀ s', (runs w.initGraph anyStatus start).Steps s s' →
      ∀ n, ¬ Stranded w.initGraph s'.objs n := by
  have hg := w.initGraph_wellFormed
  have hac' : Acyclic w.initGraph.Parent := w.initGraph_parent ▸ hac
  have ht' : AllTemplates w.initGraph start := fun n hn => ht n (w.mem_initGraph_nodes.mp hn)
  constructor
  · intro h s' hsteps n hn
    obtain ⟨u, hu', hover, hp⟩ :=
      exists_stuck hg hac' (fun _ => trivial) hu ht' (hs.steps hsteps) hn
    rw [h u (hsteps.trans hu') hover] at hp
    cases hp
  · intro h s' hsteps hover
    exact progresses_of_not_stranded hg hac' hu ht' (hs.steps hsteps) hover (h s' hsteps)

/-! A root whose job ends in error, with a success edge to an ALL-convergence node. -/

def errorIntoAll : WorkflowGraph where
  nodes := [1, 2]
  edges
    | .successNodes => [(1, 2)]
    | _ => []
  nodes_nodup := WorkflowGraph.nodup_two
  edges_nodes := by intro l; cases l <;> decide

def errorIntoAllStart : NodeStore := fun n => ⟨false, none, some 0, n = 2⟩

theorem errorIntoAll_acyclic : Acyclic errorIntoAll.Parent :=
  errorIntoAll.acyclic_of_lt fun l => by cases l <;> decide

theorem errorIntoAllStart_undecided : Undecided errorIntoAllStart := fun _ => ⟨rfl, rfl⟩

theorem errorIntoAllStart_template : ∀ n ∈ errorIntoAll.nodes,
    (errorIntoAllStart n).unifiedJobTemplate ≠ none := fun _ _ => Option.some_ne_none 0

/-- The run in which the root's job ends in error is stuck. -/
theorem errorIntoAll_deadlock : Acyclic errorIntoAll.Parent ∧ Undecided errorIntoAllStart ∧
    (∀ n ∈ errorIntoAll.nodes, (errorIntoAllStart n).unifiedJobTemplate ≠ none) ∧
    ¬ ∀ s, (runs errorIntoAll.initGraph anyStatus errorIntoAllStart).Reachable s →
      JobsOver s.objs → errorIntoAll.initGraph.progresses s = true := by
  refine ⟨errorIntoAll_acyclic, errorIntoAllStart_undecided, errorIntoAllStart_template, fun h => ?_⟩
  have hrun : System.runAll (exec errorIntoAll.initGraph) ⟨.running, "", errorIntoAllStart, []⟩
      [.tick, .job 1 .error] = some _ := rfl
  have hp := h _ (reachable_of_runAll (by simp [EventAllowed, anyStatus]) hrun) ?_
  · revert hp
    decide
  · intro n st hj
    by_cases hn : n = 1
    · subst hn
      cases hj
      rfl
    · simp [setJob, spawnNode, attachJob, Function.update_of_ne hn, errorIntoAllStart] at hj

theorem errorIntoAll_progresses_iff :
    (∀ s', (runs errorIntoAll.initGraph anyStatus errorIntoAllStart).Steps
        ⟨.running, "", errorIntoAllStart, []⟩ s' → JobsOver s'.objs →
      errorIntoAll.initGraph.progresses s' = true) ↔
    ∀ s', (runs errorIntoAll.initGraph anyStatus errorIntoAllStart).Steps
        ⟨.running, "", errorIntoAllStart, []⟩ s' → ∀ n, ¬ Stranded errorIntoAll.initGraph s'.objs n :=
  progresses_iff_not_stranded errorIntoAll_acyclic errorIntoAllStart_undecided
    errorIntoAllStart_template (.init rfl)

end Forail.Scheduler.WorkflowDAG
