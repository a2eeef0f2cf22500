import Forail.Dispatch.LocalReaper

/-! What holds of the heartbeats in every state: a uuid outside the bound ones of a heartbeat is
over or has its start to come, the rows of a call of `reap` started by the time that was bound
and are outside these uuids, and so are the rows that were owed. -/

namespace Forail.Dispatch

variable {hostname : String} {pid : ℕ → ℕ} {n n' : Node} {s s' : State} {e : Event}

/-! ### The rows -/

/-- A running row has started, at no time to come, and its message is not to come either. -/
structure Rows (hostname : String) (n : Node) : Prop where
  running : ∀ pk row, n.jobs.get? pk = some row → row.ours hostname = true →
    row.status = .running → row.begun hostname = true
  started : ∀ pk row, n.jobs.get? pk = some row → row.begun hostname = true →
    ∀ t ∈ row.started, t ≤ n.clock
  begun : ∀ pk row, n.jobs.get? pk = some row → row.begun hostname = true →
    ∀ c ∈ row.celeryTaskId, c ∈ n.state.written → c ∈ n.state.done ∨ c ∈ n.state.lost ∨
      ∃ w ∈ n.state.pool.workers, c ∈ w.inWork

theorem Rows.poolStep (hr : Rows hostname n) (h : PoolStep hostname e n n') : Rows hostname n' := by
  refine ⟨?_, fun pk row hget hbegun t ht => ?_, fun pk row hget hbegun c hc hwritten => ?_⟩
  · rw [h.jobs]
    exact hr.running
  · rw [h.jobs] at hget
    exact Int.le_trans (hr.started pk row hget hbegun t ht) h.clock
  · rw [h.jobs] at hget
    have hstarted := hasStarted_iff.mpr ⟨pk, row, hget, hbegun, Option.mem_def.mp hc⟩
    have hold := (h.written c hwritten).resolve_right fun hnot => hnot hstarted
    rcases hr.begun pk row hget hbegun c hc hold with hdone | hlost | ⟨w, hw, hu⟩
    · exact .inl (h.steps.done c hdone)
    · exact .inr (.inl (h.steps.lost c hlost))
    · rcases h.steps.inWork w hw c hu with hdone | hlost | ⟨w', hw', hu', -⟩
      · exact .inl hdone
      · exact .inr (.inl hlost)
      · exact .inr (.inr ⟨w', hw', hu'⟩)

theorem Rows.jobStep (hr : Rows hostname n) (h : JobStep hostname n n')
    (hrunning : ∀ pk row, n'.jobs.get? pk = some row → row.ours hostname = true →
      row.status = .running → row.begun hostname = true) : Rows hostname n' := by
  refine ⟨hrunning, fun pk row hget hbegun t ht => ?_, fun pk row hget hbegun c hc => ?_⟩
  · rw [h.clock]
    rcases h.back pk row hget hbegun with ⟨old, hold, hbegun', hstarted, -⟩ |
      ⟨w, -, u, -, since, time, -, -, hstarted, -, -, hle⟩
    · exact hr.started pk old hold hbegun' t (hstarted ▸ ht)
    · rw [hstarted] at ht
      exact Option.some.inj ht ▸ hle
  · rw [h.state]
    rcases h.back pk row hget hbegun with ⟨old, hold, hbegun', -, hid⟩ |
      ⟨w, hw, u, hu, since, time, -, hid, -⟩
    · exact hr.begun pk old hold hbegun' c (hid ▸ hc)
    · rw [hid] at hc
      exact fun _ => .inr (.inr ⟨w, hw, Option.some.inj hc ▸ hu⟩)

/-- One row is written, which has begun if it is running. -/
theorem Rows.running_set (hr : Rows hostname n) {pk : ℕ} {row : JobRow}
    (hrow : row.ours hostname = true → row.status = .running → row.begun hostname = true) :
    ∀ p r, (n.jobs.set pk row).get? p = some r → r.ours hostname = true →
      r.status = .running → r.begun hostname = true := by
  intro p r hget
  rcases Dict.of_get?_set hget with ⟨-, rfl⟩ | ⟨-, hget⟩
  · exact hrow
  · exact hr.running p r hget

/-! ### What is kept by all steps -/

/-- What a heartbeat knows by its bound uuids. -/
structure Covers (hostname : String) (n : Node) (u : ℕ) (k : BoundKwargs) : Prop where
  written : u ∈ n.state.written
  time : k.dispatchTime ≤ n.clock
  rest : ∀ c, c ∉ k.activeTaskIds → Over hostname n c ∨ Future hostname n k.dispatchTime c

/-- A row that started by the bound time and is under no bound uuid. -/
def Stale (hostname : String) (n : Node) (k : BoundKwargs) (pk : ℕ) : Prop :=
  ∃ row, n.jobs.get? pk = some row ∧ row.begun hostname = true ∧
    (∃ t ∈ row.started, t ≤ k.dispatchTime) ∧ ∀ c ∈ row.celeryTaskId, c ∉ k.activeTaskIds

/-- A row that is stale, and its message was lost with a dead worker. -/
def Gone (hostname : String) (n : Node) (k : BoundKwargs) (pk : ℕ) : Prop :=
  ∃ row, n.jobs.get? pk = some row ∧ row.begun hostname = true ∧
    (∃ t ∈ row.started, t ≤ k.dispatchTime) ∧
    ∃ c ∈ row.celeryTaskId, c ∈ n.state.lost ∧ c ∉ k.activeTaskIds

structure Later (hostname : String) (n n' : Node) : Prop where
  written : ∀ u ∈ n.state.written, u ∈ n'.state.written
  covers : ∀ {u k}, Covers hostname n u k → Covers hostname n' u k
  stale : ∀ {k pk}, Stale hostname n k pk → Stale hostname n' k pk
  gone : ∀ {k pk}, Gone hostname n k pk → Gone hostname n' k pk

theorem PoolStep.later (h : PoolStep hostname e n n') : Later hostname n n' := by
  refine ⟨h.writtenMono, fun hc => ⟨h.writtenMono _ hc.written, Int.le_trans hc.time h.clock,
    fun c hk => (hc.rest c hk).imp h.over (h.future hc.time)⟩, fun ⟨row, hget, hrow⟩ =>
    ⟨row, h.jobs ▸ hget, hrow⟩, fun ⟨row, hget, hbegun, ht, c, hc, hlost, hk⟩ =>
    ⟨row, h.jobs ▸ hget, hbegun, ht, c, hc, h.steps.lost c hlost, hk⟩⟩

theorem JobStep.later (h : JobStep hostname n n') : Later hostname n n' := by
  refine ⟨fun u hu => h.state ▸ hu, fun hc => ⟨h.state ▸ hc.written, h.clock ▸ hc.time,
    fun c hk => (hc.rest c hk).imp h.over h.future⟩, ?_, ?_⟩
  · rintro k pk ⟨row, hget, hbegun, ht, hc⟩
    obtain ⟨row', hget', hbegun', hstarted, hid⟩ := h.rows pk row hget hbegun
    exact ⟨row', hget', hbegun', hstarted ▸ ht, hid ▸ hc⟩
  · rintro k pk ⟨row, hget, hbegun, ht, c, hc, hlost, hk⟩
    obtain ⟨row', hget', hbegun', hstarted, hid⟩ := h.rows pk row hget hbegun
    exact ⟨row', hget', hbegun', hstarted ▸ ht, c, hid ▸ hc, h.state ▸ hlost, hk⟩

theorem Gone.stale {k : BoundKwargs} {pk : ℕ} (h : Gone hostname n k pk) : Stale hostname n k pk := by
  obtain ⟨row, hget, hbegun, ht, c, hc, -, hk⟩ := h
  refine ⟨row, hget, hbegun, ht, fun c' hc' => ?_⟩
  rwa [Option.some.inj ((Option.mem_def.mp hc').symm.trans hc)]

/-! ### The binding -/

/-- The workers that were asked come before those that are left, and all that a live one of them
holds is bound. -/
structure Binding.Ok (pid : ℕ → ℕ) (n : Node) (b : Binding) : Prop where
  phase : ∃ body q orphaned, n.state.phase = .growing body q orphaned
  written : b.uuid ∈ n.state.written
  unbound : n.bound.get? b.uuid = none
  time : b.kwargs.dispatchTime ≤ n.clock
  rest : b.rest.Pairwise (· < ·)
  order : ∀ w ∈ n.state.pool.workers, w.ident ∉ b.rest → ∀ i ∈ b.rest, w.ident < i
  tasks : ∀ w ∈ n.state.pool.workers, w.ident ∉ b.rest → w.alive = true →
    ∃ ids, b.kwargs.workerTasks.get? (pid w.ident) = some ids ∧ ∀ u ∈ w.held, u ∈ ids

/-- A step of a child while the parent binds. -/
theorem Binding.Ok.poolStep {b : Binding} (hb : b.Ok pid n) (hinv : Inv n.state)
    (h : PoolStep hostname e n n') (hs : exec n.state e = some n'.state) (hgrow : e.isGrow ≠ true)
    (hbound : n'.bound = n.bound) : b.Ok pid n' := by
  obtain ⟨body, q, orphaned, hph⟩ := hb.phase
  obtain ⟨hphase, hspawned, hoffer⟩ := step_of_growing hph hs hgrow
  have hold : ∀ w' ∈ n'.state.pool.workers, ∃ w ∈ n.state.pool.workers, WorkerStep e w w' :=
    fun w' hw' => h.steps.old hinv (hspawned ▸ Nat.lt_irrefl _) hw'
  refine ⟨⟨body, q, orphaned, hphase.trans hph⟩, h.writtenMono _ hb.written, hbound ▸ hb.unbound,
    Int.le_trans hb.time h.clock, hb.rest, fun w' hw' => ?_, fun w' hw' hrest halive => ?_⟩
  · obtain ⟨w, hw, hstep⟩ := hold w' hw'
    rw [hstep.ident]
    exact hb.order w hw
  · obtain ⟨w, hw, hstep⟩ := hold w' hw'
    rw [hstep.ident] at hrest ⊢
    obtain ⟨ids, hids, hheld⟩ := hb.tasks w hw hrest (hstep.alive halive)
    refine ⟨ids, hids, fun u hu => hheld u ((hstep.held u hu).resolve_right ?_)⟩
    rintro ⟨fresh, rfl⟩
    cases hoffer

/-- `add_bind_kwargs` starts with all workers left. -/
theorem Binding.ok_start (hsorted : Sorted s) (hw : n.state.pool.workers = s.pool.workers)
    {body : Body} {q : ℕ} (hph : n.state.phase = .growing body q []) {u : ℕ}
    (hu : u ∈ n.state.written) (hnew : n.bound.get? u = none) :
    Binding.Ok pid n ⟨u, ⟨n.clock, .empty⟩, s.pool.workers.map PoolWorker.ident⟩ := by
  have hrest : ∀ w ∈ n.state.pool.workers, w.ident ∈ s.pool.workers.map PoolWorker.ident :=
    fun w hmem => List.mem_map_of_mem (hw ▸ hmem)
  exact ⟨⟨body, q, [], hph⟩, hu, hnew, Int.le_refl _, hsorted,
    fun w hmem hnot => absurd (hrest w hmem) hnot, fun w hmem hnot => absurd (hrest w hmem) hnot⟩

theorem keys_calculate {w : PoolWorker} (h : w.Ok) :
    w.calculateManagedTasks.managedTasks.keys = w.held :=
  h.calculate.keys

/-- The next worker's tasks are bound; a live worker before it has another pid. -/
theorem Binding.Ok.bind {u i : ℕ} {k : BoundKwargs} {rest : List ℕ}
    (hb : Binding.Ok pid n ⟨u, k, i :: rest⟩) (hinv : Inv n.state) (hpids : PidsApart pid n.state)
    {w : PoolWorker} (hw : w ∈ n.state.pool.workers) (hi : w.ident = i)
    (hstate : n'.state = { n.state with pool := n.state.pool.setWorker w.calculateManagedTasks })
    (hclock : n'.clock = n.clock) (hbound : n'.bound = n.bound) :
    Binding.Ok pid n' ⟨u, ⟨k.dispatchTime,
      k.workerTasks.set (pid i) w.calculateManagedTasks.managedTasks.keys⟩, rest⟩ := by
  obtain ⟨hlt, hrest⟩ := List.pairwise_cons.mp hb.rest
  have hworkers : ∀ v ∈ n'.state.pool.workers, v = w.calculateManagedTasks ∨
      v ∈ n.state.pool.workers ∧ v.ident ≠ i := by
    intro v hv
    rw [hstate] at hv
    obtain ⟨x, hx, rfl⟩ := Keyed.mem_modify.mp hv
    split_ifs with hxi
    · exact .inl rfl
    · exact .inr ⟨hx, fun he => hxi (he.trans hi.symm)⟩
  have hident : w.calculateManagedTasks.ident = i := hi
  have hnot : ∀ {v : PoolWorker}, v.ident ≠ i → v.ident ∉ rest → v.ident ∉ i :: rest :=
    fun hne hmem hcons => (List.mem_cons.mp hcons).elim hne hmem
  refine ⟨?_, ?_, hbound ▸ hb.unbound, hclock ▸ hb.time, hrest, fun v hv hmem j hj => ?_,
    fun v hv hmem halive => ?_⟩
  · rw [hstate]
    exact hb.phase
  · rw [hstate]
    exact hb.written
  · rcases hworkers v hv with rfl | ⟨hv, hne⟩
    · exact hident ▸ hlt j hj
    · exact hb.order v hv (hnot hne hmem) j (List.mem_cons_of_mem i hj)
  · rcases hworkers v hv with rfl | ⟨hv, hne⟩
    · refine ⟨w.held, ?_, fun u hu => hu⟩
      rw [hident, keys_calculate (hinv.pool.ok w hw)]
      exact (Dict.get?_set _ _ _ _).trans (if_pos rfl)
    · have hbefore := hb.order v hv (hnot hne hmem) i List.mem_cons_self
      have hpid : pid v.ident ≠ pid i := hi ▸ hpids v hv w hw (hi.symm ▸ hbefore) halive
      obtain ⟨ids, hids, hheld⟩ := hb.tasks v hv (hnot hne hmem) halive
      exact ⟨ids, (Dict.get?_set _ _ _ _).trans ((if_neg hpid).trans hids), hheld⟩

theorem mem_activeTaskIds {k : BoundKwargs} {c : ℕ} :
    c ∈ k.activeTaskIds ↔ ∃ e ∈ k.workerTasks.entries, c ∈ e.2 :=
  List.mem_flatMap

theorem Gone.bind {k : BoundKwargs} {pk i : ℕ} (h : Gone hostname n k pk) (hinv : Inv n.state)
    {w : PoolWorker} (hw : w ∈ n.state.pool.workers) :
    Gone hostname n ⟨k.dispatchTime,
      k.workerTasks.set i w.calculateManagedTasks.managedTasks.keys⟩ pk := by
  obtain ⟨row, hget, hbegun, ht, c, hc, hlost, hk⟩ := h
  refine ⟨row, hget, hbegun, ht, c, hc, hlost, fun hmem => ?_⟩
  obtain ⟨entry, hentry, hc⟩ := mem_activeTaskIds.mp hmem
  rcases Dict.mem_setEntries hentry with rfl | hentry
  · rw [keys_calculate (hinv.pool.ok w hw)] at hc
    exact (hinv.held_apart hw hc).2 hlost
  · exact hk (mem_activeTaskIds.mpr ⟨entry, hentry, hc⟩)

/-- At the end, a uuid that is not bound is held by no live worker. -/
theorem Binding.Ok.covers {b : Binding} (hb : b.Ok pid n) (hrest : b.rest = [])
    (hrows : Rows hostname n) : Covers hostname n b.uuid b.kwargs := by
  refine ⟨hb.written, hb.time, fun c hc => ?_⟩
  have hheld : ∀ w ∈ n.state.pool.workers, w.alive = true → c ∉ w.held := by
    intro w hw halive hmem
    obtain ⟨ids, hids, hsub⟩ := hb.tasks w hw (hrest ▸ List.not_mem_nil) halive
    exact hc (mem_activeTaskIds.mpr ⟨_, Dict.mem_entries_of_get? hids, hsub c hmem⟩)
  by_cases hstarted : n.hasStarted hostname c
  · refine .inl ?_
    obtain ⟨pk, row, hget, hbegun, hid⟩ := hasStarted_iff.mp hstarted
    by_cases hwritten : c ∈ n.state.written
    · rcases hrows.begun pk row hget hbegun c hid hwritten with hdone | hlost | ⟨w, hw, hu⟩
      · exact .inl hdone
      · exact .inr (.inl hlost)
      · refine .inr (.inr (.inl ⟨w, hw, ?_, hu⟩))
        exact Bool.eq_false_iff.mpr fun halive => hheld w hw halive (mem_held_of_inWork hu)
    · exact .inr (.inr (.inr ⟨hwritten, hstarted⟩))
  · refine .inr ⟨fun pk row hget hbegun hid => ?_, fun w hw halive hu => ?_, fun w hw halive hu => ?_⟩
    · exact absurd (hasStarted_iff.mpr ⟨pk, row, hget, hbegun, hid⟩) hstarted
    · exact absurd hu (hheld w hw halive)
    · exact absurd (mem_held_of_inWork hu) (hheld w hw halive)

end Forail.Dispatch
