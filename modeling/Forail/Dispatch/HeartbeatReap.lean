import Forail.Dispatch.ReaperInvariant

/-! The calls of `reap` in the heartbeats. None of them fails a job whose task a live worker is
running, and each fails the jobs that were owed to it at its dispatch, but for those that it
finds ended. -/

namespace Forail.Dispatch

variable {hostname : String} {pid : ℕ → ℕ} {n n' : Node} {e : Event}

/-! ### The invariant -/

structure Reaps (hostname : String) (n : Node) : Prop where
  bound : ∀ u k, n.bound.get? u = some k → Covers hostname n u k
  calls : ∀ u call, n.calls.get? u = some call →
    ∃ k, n.bound.get? u = some k ∧ ∀ pk ∈ call.todo, Stale hostname n k pk
  owed : ∀ u pks, n.owed.get? u = some pks →
    u ∈ n.state.written ∧ ∀ k, n.bound.get? u = some k → ∀ pk ∈ pks, Gone hostname n k pk
  settled : ∀ u call pks, n.calls.get? u = some call → n.owed.get? u = some pks →
    ∀ pk ∈ pks, pk ∈ call.todo ∨ (u, pk) ∈ n.failed ∨ (u, pk) ∈ n.ended

structure NodeInv (hostname : String) (pid : ℕ → ℕ) (n : Node) : Prop where
  state : Inv n.state
  sorted : Sorted n.state
  pids : PidsApart pid n.state
  rows : Rows hostname n
  reaps : Reaps hostname n
  binding : ∀ b ∈ n.binding, b.Ok pid n ∧
    ∀ pks, n.owed.get? b.uuid = some pks → ∀ pk ∈ pks, Gone hostname n b.kwargs pk

theorem Reaps.frame (h : Reaps hostname n) (hl : Later hostname n n') (hb : n'.bound = n.bound)
    (hc : n'.calls = n.calls) (ho : n'.owed = n.owed) (hf : n'.failed = n.failed)
    (he : n'.ended = n.ended) : Reaps hostname n' := by
  refine ⟨fun u k hget => hl.covers (h.bound u k (hb ▸ hget)), fun u call hget => ?_,
    fun u pks hget => ?_, fun u call pks hget => ?_⟩
  · obtain ⟨k, hk, hstale⟩ := h.calls u call (hc ▸ hget)
    exact ⟨k, hb ▸ hk, fun pk hpk => hl.stale (hstale pk hpk)⟩
  · obtain ⟨hwritten, hgone⟩ := h.owed u pks (ho ▸ hget)
    exact ⟨hl.written u hwritten, fun k hk pk hpk => hl.gone (hgone k (hb ▸ hk) pk hpk)⟩
  · rw [ho, hf, he]
    exact h.settled u call pks (hc ▸ hget)

/-- The call of one heartbeat goes on. -/
theorem Reaps.call (h : Reaps hostname n) (hl : Later hostname n n') {u : ℕ} {k : BoundKwargs}
    {call : ReapCall} (hb : n'.bound = n.bound) (ho : n'.owed = n.owed)
    (hc : n'.calls = n.calls.set u call) (hk : n.bound.get? u = some k)
    (hstale : ∀ pk ∈ call.todo, Stale hostname n k pk)
    (hf : ∀ x ∈ n.failed, x ∈ n'.failed) (he : ∀ x ∈ n.ended, x ∈ n'.ended)
    (hsettled : ∀ pks, n.owed.get? u = some pks →
      ∀ pk ∈ pks, pk ∈ call.todo ∨ (u, pk) ∈ n'.failed ∨ (u, pk) ∈ n'.ended) :
    Reaps hostname n' := by
  refine ⟨fun v k hget => hl.covers (h.bound v k (hb ▸ hget)), fun v call' hget => ?_,
    fun v pks hget => ?_, fun v call' pks hget howed pk hpk => ?_⟩
  · rw [hc] at hget
    rcases Dict.of_get?_set hget with ⟨rfl, rfl⟩ | ⟨-, hget⟩
    · exact ⟨k, hb ▸ hk, fun pk hpk => hl.stale (hstale pk hpk)⟩
    · obtain ⟨k', hk', hstale'⟩ := h.calls v call' hget
      exact ⟨k', hb ▸ hk', fun pk hpk => hl.stale (hstale' pk hpk)⟩
  · obtain ⟨hwritten, hgone⟩ := h.owed v pks (ho ▸ hget)
    exact ⟨hl.written v hwritten, fun k hk pk hpk => hl.gone (hgone k (hb ▸ hk) pk hpk)⟩
  · rw [hc] at hget
    rw [ho] at howed
    rcases Dict.of_get?_set hget with ⟨rfl, rfl⟩ | ⟨-, hget⟩
    · exact hsettled pks howed pk hpk
    · exact (h.settled v call' pks hget howed pk hpk).imp_right (Or.imp (hf _) (he _))

/-- A heartbeat is new: it is neither bound nor called. -/
theorem Reaps.unbound (h : Reaps hostname n) {u : ℕ} (hu : u ∉ n.state.written) :
    n.bound.get? u = none ∧ n.calls.get? u = none := by
  have hbound : n.bound.get? u = none := by
    cases hk : n.bound.get? u with
    | none => rfl
    | some k => exact absurd (h.bound u k hk).written hu
  refine ⟨hbound, ?_⟩
  cases hc : n.calls.get? u with
  | none => rfl
  | some call =>
    obtain ⟨k, hk, -⟩ := h.calls u call hc
    rw [hbound] at hk
    cases hk

/-! ### The steps of the parent -/

theorem NodeInv.of_job (h : NodeInv hostname pid n) (hstep : JobStep hostname n n')
    (hrunning : ∀ pk row, n'.jobs.get? pk = some row → row.ours hostname = true →
      row.status = .running → row.begun hostname = true)
    (hbinding : n'.binding = n.binding) (hbound : n'.bound = n.bound) (howed : n'.owed = n.owed)
    (hreaps : Reaps hostname n') : NodeInv hostname pid n' := by
  refine ⟨hstep.state ▸ h.state, hstep.state ▸ h.sorted, hstep.state ▸ h.pids,
    h.rows.jobStep hstep hrunning, hreaps, fun b hb => ?_⟩
  obtain ⟨hok, hgone⟩ := h.binding b (hbinding ▸ hb)
  refine ⟨?_, fun pks hget pk hpk => hstep.later.gone (hgone pks (howed ▸ hget) pk hpk)⟩
  obtain ⟨hphase, hwritten, hunbound, htime, hrest, horder, htasks⟩ := hok
  rw [← hstep.state] at hphase hwritten horder htasks
  exact ⟨hphase, hwritten, hbound ▸ hunbound, hstep.clock ▸ htime, hrest, horder, htasks⟩

theorem NodeInv.pool (h : NodeInv hostname pid n) {now : ℤ}
    (hs : n.pool hostname pid e now = some n') : NodeInv hostname pid n' := by
  have hstep := Node.pool_step h.state hs
  obtain ⟨s, hexec, hs⟩ := Option.bind_eq_some_iff.mp hs
  obtain ⟨⟨-, -, hgrow, -, hfork⟩, hs⟩ := Option.ite_none_right_eq_some.mp hs
  have hn' := Option.some.inj hs
  have hstate : n'.state = s := hn' ▸ rfl
  have hbinding : n'.binding = n.binding := hn' ▸ rfl
  have howed : n'.owed = n.owed := hn' ▸ rfl
  have hbound : n'.bound = n.bound := hn' ▸ rfl
  have hsteps := WorkerSteps.exec h.state hexec
  rw [← hstate] at hsteps hexec hfork
  refine ⟨h.state.exec hexec, h.sorted.steps h.state hsteps, h.pids.steps h.state hsteps hfork,
    h.rows.poolStep hstep,
    h.reaps.frame hstep.later hbound (hn' ▸ rfl) howed (hn' ▸ rfl) (hn' ▸ rfl), fun b hb => ?_⟩
  rw [hbinding] at hb
  obtain ⟨hok, hgone⟩ := h.binding b hb
  refine ⟨hok.poolStep h.state hstep hexec (fun hg => ?_) hbound,
    fun pks hget pk hpk => hstep.later.gone (hgone pks (howed ▸ hget) pk hpk)⟩
  rw [Option.mem_def.mp hb] at hgrow
  cases hgrow hg

theorem mem_owedAt {pk : ℕ} (hpk : pk ∈ n.owedAt hostname) :
    ∃ row, n.jobs.get? pk = some row ∧ row.status = .running ∧ row.ours hostname = true ∧
      ∃ c ∈ row.celeryTaskId, c ∈ n.state.lost := by
  obtain ⟨entry, hentry, rfl⟩ := List.mem_map.mp hpk
  obtain ⟨hmem, hrow⟩ := List.mem_filter.mp hentry
  rw [decide_eq_true_iff, Option.any_eq_true] at hrow
  obtain ⟨hrunning, hours, c, hc, hlost⟩ := hrow
  exact ⟨entry.2, Dict.get?_of_mem_entries hmem, hrunning, hours, c, hc, of_decide_eq_true hlost⟩

theorem NodeInv.heartbeat (h : NodeInv hostname pid n) {body : Body} {q : ℕ} {now : ℤ}
    (hs : n.heartbeat hostname body q now = some n') : NodeInv hostname pid n' := by
  have hstep := Node.heartbeat_step h.state hs
  obtain ⟨u, hbody, hs⟩ := Option.bind_eq_some_iff.mp hs
  obtain ⟨s, hexec, hs⟩ := Option.bind_eq_some_iff.mp hs
  obtain ⟨⟨hclock, -⟩, hs⟩ := Option.ite_none_right_eq_some.mp hs
  obtain ⟨⟨-, hnew⟩, hs'⟩ := Option.ite_none_right_eq_some.mp hexec
  have hn' := Option.some.inj hs
  have hstate : n'.state = s := hn' ▸ rfl
  have hbound : n'.bound = n.bound := hn' ▸ rfl
  have hcalls : n'.calls = n.calls := hn' ▸ rfl
  have howed : n'.owed = n.owed.set u (n.owedAt hostname) := hn' ▸ rfl
  obtain ⟨hunbound, huncalled⟩ := h.reaps.unbound (hnew u hbody)
  have hwritten : u ∈ n'.state.written := by
    rw [hstate, ← Option.some.inj hs', hbody]
    exact List.mem_append_right _ (List.mem_singleton_self u)
  have hl := hstep.later
  refine ⟨hstate ▸ h.state.exec hexec, hstate ▸ h.sorted.steps h.state (.exec h.state hexec), ?_,
    h.rows.poolStep hstep, ⟨fun v k hget => hl.covers (h.reaps.bound v k (hbound ▸ hget)),
      fun v call hget => ?_, fun v pks hget => ?_, fun v call pks hget hpks => ?_⟩, fun b hb => ?_⟩
  · rw [hstate, ← Option.some.inj hs']
    exact h.pids
  · obtain ⟨k, hk, hstale⟩ := h.reaps.calls v call (hcalls ▸ hget)
    exact ⟨k, hbound ▸ hk, fun pk hpk => hl.stale (hstale pk hpk)⟩
  · rw [howed] at hget
    rw [hbound]
    rcases Dict.of_get?_set hget with ⟨rfl, -⟩ | ⟨-, hget⟩
    · exact ⟨hwritten, fun k hk => absurd (hunbound.symm.trans hk) (by nofun)⟩
    · obtain ⟨hold, hgone⟩ := h.reaps.owed v pks hget
      exact ⟨hl.written v hold, fun k hk pk hpk => hl.gone (hgone k hk pk hpk)⟩
  · rw [hcalls] at hget
    rw [howed] at hpks
    rcases Dict.of_get?_set hpks with ⟨rfl, -⟩ | ⟨-, hpks⟩
    · exact absurd (huncalled.symm.trans hget) (by nofun)
    · have hfailed : n'.failed = n.failed := hn' ▸ rfl
      have hended : n'.ended = n.ended := hn' ▸ rfl
      rw [hfailed, hended]
      exact h.reaps.settled v call pks hget hpks
  · have hb' : b = ⟨u, ⟨n'.clock, .empty⟩, n.state.pool.workers.map PoolWorker.ident⟩ := by
      rw [← hn'] at hb ⊢
      exact (Option.some.inj hb).symm
    subst hb'
    have hphase : n'.state.phase = .growing body q [] := by rw [hstate, ← Option.some.inj hs']
    refine ⟨Binding.ok_start h.sorted ?_ hphase hwritten (hbound ▸ hunbound), fun pks hget pk hpk => ?_⟩
    · rw [hstate, ← Option.some.inj hs']
    · rw [howed, Dict.get?_set, if_pos rfl] at hget
      obtain ⟨row, hrow, hrunning, hours, c, hc, hlost⟩ := mem_owedAt (Option.some.inj hget ▸ hpk)
      have hbegun := h.rows.running pk row hrow hours hrunning
      obtain ⟨t, ht⟩ := Option.isSome_iff_exists.mp (begun_iff.mp hbegun).2
      exact ⟨row, hstep.jobs ▸ hrow, hbegun, ⟨t, ht, Int.le_trans (h.rows.started pk row hrow hbegun t ht)
        hstep.clock⟩, c, hc, hstep.steps.lost c hlost, List.not_mem_nil⟩

theorem NodeInv.bindWorker (h : NodeInv hostname pid n) (hs : n.bindWorker pid = some n') :
    NodeInv hostname pid n' := by
  obtain ⟨⟨u, k, rest⟩, hb, hs⟩ := Option.bind_eq_some_iff.mp hs
  obtain ⟨hok, hgone⟩ := h.binding _ hb
  dsimp only at hs hgone
  split at hs
  · -- the end: the arguments are bound
    have hcovers := hok.covers rfl h.rows
    have huncalled : n.calls.get? u = none := by
      cases hc : n.calls.get? u with
      | none => rfl
      | some call =>
        obtain ⟨k', hk', -⟩ := h.reaps.calls u call hc
        cases hok.unbound.symm.trans hk'
    have hn' := Option.some.inj hs
    have hstep : JobStep hostname n n' :=
      jobStep_of_eq (hn' ▸ rfl) (hn' ▸ rfl) (hn' ▸ rfl) (hn' ▸ rfl)
    have hl := hstep.later
    rw [← hn'] at hstep hl ⊢
    refine ⟨h.state, h.sorted, h.pids, h.rows.jobStep hstep h.rows.running,
      ⟨fun v k' hget => ?_, fun v call hget => ?_, fun v pks hget => ?_, h.reaps.settled⟩,
      fun b hb => by cases hb⟩
    · rcases Dict.of_get?_set hget with ⟨rfl, rfl⟩ | ⟨-, hget⟩
      · exact hl.covers hcovers
      · exact hl.covers (h.reaps.bound v k' hget)
    · obtain ⟨k', hk', hstale⟩ := h.reaps.calls v call hget
      refine ⟨k', (Dict.get?_set _ _ _ _).trans ((if_neg fun hv => ?_).trans hk'), hstale⟩
      rw [hv, huncalled] at hget
      cases hget
    · obtain ⟨hwritten, hold⟩ := h.reaps.owed v pks hget
      refine ⟨hwritten, fun k' hk' pk hpk => ?_⟩
      rcases Dict.of_get?_set hk' with ⟨rfl, rfl⟩ | ⟨-, hk'⟩
      · exact hgone pks hget pk hpk
      · exact hold k' hk' pk hpk
  · next i rest =>
    obtain ⟨w, hfind, hs⟩ := Option.bind_eq_some_iff.mp hs
    obtain ⟨hw, hi⟩ := AutoscalePool.find_some hfind
    have hn' := Option.some.inj hs
    have hstate : n'.state = { n.state with
        pool := n.state.pool.setWorker w.calculateManagedTasks } := hn' ▸ rfl
    have hbound : n'.bound = n.bound := hn' ▸ rfl
    have hclock : n'.clock = n.clock := hn' ▸ rfl
    have howed : n'.owed = n.owed := hn' ▸ rfl
    have hstep : PoolStep hostname .cleanup n n' :=
      calculate_step h.state hw hstate (hn' ▸ rfl) hclock (hn' ▸ rfl)
    have hsteps := hstep.steps
    have hspawned : ¬ n.state.pool.spawned < n'.state.pool.spawned := by
      rw [hstate]
      exact Nat.lt_irrefl _
    refine ⟨hstate ▸ h.state.calculate hw, h.sorted.steps h.state hsteps,
      h.pids.steps h.state hsteps fun hlt => absurd hlt hspawned, h.rows.poolStep hstep,
      h.reaps.frame hstep.later hbound (hn' ▸ rfl) howed (hn' ▸ rfl) (hn' ▸ rfl), fun b hb' => ?_⟩
    have hb'' : b = ⟨u, ⟨k.dispatchTime,
        k.workerTasks.set (pid i) w.calculateManagedTasks.managedTasks.keys⟩, rest⟩ := by
      rw [← hn'] at hb'
      exact (Option.some.inj hb').symm
    subst hb''
    refine ⟨hok.bind h.state h.pids hw hi hstate hclock hbound, fun pks hget pk hpk => ?_⟩
    exact hstep.later.gone ((hgone pks (howed ▸ hget) pk hpk).bind h.state hw)

/-! ### The rows and the calls -/

theorem heartbeatOf_some {i u : ℕ} {k : BoundKwargs} (h : n.heartbeatOf i = some (u, k)) :
    n.bound.get? u = some k := by
  obtain ⟨w, -, h⟩ := Option.bind_eq_some_iff.mp h
  obtain ⟨m, -, h⟩ := Option.bind_eq_some_iff.mp h
  obtain ⟨k', hk, h⟩ := Option.bind_eq_some_iff.mp h
  obtain ⟨-, h⟩ := Option.ite_none_right_eq_some.mp h
  obtain ⟨rfl, rfl⟩ := Prod.mk.inj (Option.some.inj h)
  exact hk

theorem callOf_some {i u : ℕ} {call : ReapCall} (h : n.callOf i = some (u, call)) :
    n.calls.get? u = some call := by
  obtain ⟨⟨v, k⟩, -, h⟩ := Option.bind_eq_some_iff.mp h
  obtain ⟨call', hcall, h⟩ := Option.bind_eq_some_iff.mp h
  obtain ⟨-, h⟩ := Option.ite_none_left_eq_some.mp h
  obtain ⟨rfl, rfl⟩ := Prod.mk.inj (Option.some.inj h)
  exact hcall

theorem NodeInv.start (h : NodeInv hostname pid n) {i pk : ℕ} {job : JobRow} {time : ℤ}
    (hs : n.start hostname i pk job time = some n') : NodeInv hostname pid n' := by
  have hstep := Node.start_step hs
  obtain ⟨w, -, hs⟩ := Option.bind_eq_some_iff.mp hs
  obtain ⟨m, -, hs⟩ := Option.bind_eq_some_iff.mp hs
  obtain ⟨since, -, hs⟩ := Option.bind_eq_some_iff.mp hs
  obtain ⟨-, hs⟩ := Option.ite_none_right_eq_some.mp hs
  split at hs
  · obtain ⟨⟨-, hours⟩, hs⟩ := Option.ite_none_right_eq_some.mp hs
    have hn' := Option.some.inj hs
    refine h.of_job hstep ?_ (hn' ▸ rfl) (hn' ▸ rfl) (hn' ▸ rfl)
      (h.reaps.frame hstep.later (hn' ▸ rfl) (hn' ▸ rfl) (hn' ▸ rfl) (hn' ▸ rfl) (hn' ▸ rfl))
    rw [← hn']
    exact h.rows.running_set fun _ _ => begun_iff.mpr ⟨hours, rfl⟩
  · have hn' := Option.some.inj hs
    refine h.of_job hstep ?_ (hn' ▸ rfl) (hn' ▸ rfl) (hn' ▸ rfl)
      (h.reaps.frame hstep.later (hn' ▸ rfl) (hn' ▸ rfl) (hn' ▸ rfl) (hn' ▸ rfl) (hn' ▸ rfl))
    rw [← hn']
    exact h.rows.running_set fun hours _ => begun_iff.mpr ⟨hours, rfl⟩

theorem NodeInv.store (h : NodeInv hostname pid n) {pk : ℕ} {job : JobRow}
    (hs : n.store hostname pk job = some n') : NodeInv hostname pid n' := by
  have hstep := Node.store_step hs
  obtain ⟨hw, hs⟩ := Option.ite_none_right_eq_some.mp hs
  have hn' := Option.some.inj hs
  refine h.of_job hstep ?_ (hn' ▸ rfl) (hn' ▸ rfl) (hn' ▸ rfl)
    (h.reaps.frame hstep.later (hn' ▸ rfl) (hn' ▸ rfl) (hn' ▸ rfl) (hn' ▸ rfl) (hn' ▸ rfl))
  rw [← hn']
  refine h.rows.running_set fun hours hrunning => ?_
  unfold Writable at hw
  split at hw
  · next row hold =>
    rw [hw]
    exact (Option.filter_eq_some_iff.mp hold).2
  · exact absurd hrunning (hw hours).2

theorem reapable_iff {row : JobRow} {k : BoundKwargs} : row.reapable hostname k = true ↔
    row.status = .running ∧ row.ours hostname = true ∧ (∃ t ∈ row.started, t ≤ k.dispatchTime) ∧
      ∀ c ∈ row.celeryTaskId, c ∉ k.activeTaskIds := by
  simp only [JobRow.reapable, decide_eq_true_iff, Option.any_eq_true, Option.all_eq_true]
  rfl

theorem NodeInv.reap (h : NodeInv hostname pid n) {i : ℕ} (hs : n.reap hostname i = some n') :
    NodeInv hostname pid n' := by
  obtain ⟨⟨u, k⟩, hof, hs⟩ := Option.bind_eq_some_iff.mp hs
  have hk := heartbeatOf_some hof
  dsimp only at hs
  split at hs
  · cases hs
  · have hn' := Option.some.inj hs
    have hstep : JobStep hostname n n' :=
      jobStep_of_eq (hn' ▸ rfl) (hn' ▸ rfl) (hn' ▸ rfl) (hn' ▸ rfl)
    have hl := hstep.later
    rw [← hn'] at hstep hl ⊢
    refine h.of_job hstep h.rows.running rfl rfl rfl (h.reaps.call hl rfl rfl rfl hk (fun pk hpk => ?_)
      (fun _ hx => hx) (fun _ hx => List.mem_append_left _ hx) fun pks hpks pk hpk => ?_)
    · obtain ⟨entry, hentry, rfl⟩ := List.mem_map.mp hpk
      obtain ⟨hmem, hrow⟩ := List.mem_filter.mp hentry
      obtain ⟨hrunning, hours, ht, hc⟩ := reapable_iff.mp hrow
      have hget := Dict.get?_of_mem_entries hmem
      exact ⟨entry.2, hget, h.rows.running _ _ hget hours hrunning, ht, hc⟩
    · refine or_iff_not_imp_left.mpr fun hnot => .inr (List.mem_append_right _ ?_)
      rw [hpks]
      exact List.mem_map_of_mem (List.mem_filter.mpr ⟨hpk, decide_eq_true hnot⟩)

/-- The call goes on to the next row when it has failed the first one or found it ended. -/
theorem NodeInv.advance (h : NodeInv hostname pid n) {u pk : ℕ} {pks : List ℕ} {call call' : ReapCall}
    (hget : n.calls.get? u = some call) (htodo : call.todo = pk :: pks)
    (hstep : JobStep hostname n n')
    (hrunning : ∀ p row, n'.jobs.get? p = some row → row.ours hostname = true →
      row.status = .running → row.begun hostname = true)
    (hbinding : n'.binding = n.binding) (hb : n'.bound = n.bound) (ho : n'.owed = n.owed)
    (hc : n'.calls = n.calls.set u call') (hf : ∀ x ∈ n.failed, x ∈ n'.failed)
    (he : ∀ x ∈ n.ended, x ∈ n'.ended)
    (hnext : call'.todo = pk :: pks ∨
      call'.todo = pks ∧ ((u, pk) ∈ n'.failed ∨ (u, pk) ∈ n'.ended)) :
    NodeInv hostname pid n' := by
  obtain ⟨k, hk, hstale⟩ := h.reaps.calls u call hget
  rw [htodo] at hstale
  refine h.of_job hstep hrunning hbinding hb ho (h.reaps.call hstep.later hb ho hc hk
    (fun p hp => ?_) hf he fun ps hps p hp => ?_)
  · rcases hnext with heq | ⟨heq, -⟩
    · exact hstale p (heq ▸ hp)
    · exact hstale p (List.mem_cons_of_mem pk (heq ▸ hp))
  · rcases h.reaps.settled u call ps hget hps p hp with hmem | hmem | hmem
    · rw [htodo] at hmem
      rcases hnext with heq | ⟨heq, hdone⟩
      · exact .inl (heq ▸ hmem)
      · rcases List.mem_cons.mp hmem with rfl | hmem
        · exact .inr hdone
        · exact .inl (heq ▸ hmem)
    · exact .inr (.inl (hf _ hmem))
    · exact .inr (.inr (he _ hmem))

theorem NodeInv.refresh (h : NodeInv hostname pid n) {i : ℕ} (hs : n.refresh i = some n') :
    NodeInv hostname pid n' := by
  obtain ⟨⟨u, call⟩, hof, hs⟩ := Option.bind_eq_some_iff.mp hs
  have hget := callOf_some hof
  dsimp only at hs
  split at hs
  · next pk pks htodo hrefreshed =>
    obtain ⟨row, hrow, hs⟩ := Option.bind_eq_some_iff.mp hs
    split_ifs at hs
    · have hn' := Option.some.inj hs
      have hstep : JobStep hostname n n' :=
        jobStep_of_eq (hn' ▸ rfl) (hn' ▸ rfl) (hn' ▸ rfl) (hn' ▸ rfl)
      rw [← hn'] at hstep ⊢
      exact h.advance hget htodo hstep h.rows.running rfl rfl rfl rfl (fun _ hx => hx)
        (fun _ hx => hx) (.inl rfl)
    · have hn' := Option.some.inj hs
      have hstep : JobStep hostname n n' :=
        jobStep_of_eq (hn' ▸ rfl) (hn' ▸ rfl) (hn' ▸ rfl) (hn' ▸ rfl)
      rw [← hn'] at hstep ⊢
      exact h.advance hget htodo hstep h.rows.running rfl rfl rfl rfl (fun _ hx => hx)
        (fun _ hx => List.mem_append_left _ hx)
        (.inr ⟨rfl, .inr (List.mem_append_right _ (List.mem_singleton_self _))⟩)
  · cases hs

/-- What `save` does. -/
theorem Node.save_eq {i : ℕ} (hs : n.save i = some n') : ∃ u pk pks row, ∃ call : ReapCall,
    n.callOf i = some (u, call) ∧ call.todo = pk :: pks ∧ n.jobs.get? pk = some row ∧
    n' = { n with
      jobs := n.jobs.set pk { row with status := .failed }
      calls := n.calls.set u ⟨pks, false⟩
      failed := n.failed ++ [(u, pk)] } := by
  obtain ⟨⟨u, call⟩, hof, hs⟩ := Option.bind_eq_some_iff.mp hs
  dsimp only at hs
  split at hs
  · next pk pks htodo _ =>
    obtain ⟨row, hrow, hs⟩ := Option.bind_eq_some_iff.mp hs
    exact ⟨u, pk, pks, row, call, hof, htodo, hrow, (Option.some.inj hs).symm⟩
  · cases hs

theorem NodeInv.save (h : NodeInv hostname pid n) {i : ℕ} (hs : n.save i = some n') :
    NodeInv hostname pid n' := by
  have hstep : JobStep hostname n n' := Node.save_step hs
  obtain ⟨u, pk, pks, row, call, hof, htodo, hrow, rfl⟩ := Node.save_eq hs
  exact h.advance (callOf_some hof) htodo hstep (h.rows.running_set fun _ hstatus => by cases hstatus)
    rfl rfl rfl rfl (fun _ hx => List.mem_append_left _ hx) (fun _ hx => hx)
    (.inr ⟨rfl, .inl (List.mem_append_right _ (List.mem_singleton_self _))⟩)

theorem NodeInv.raise (h : NodeInv hostname pid n) {i : ℕ} (hs : n.raise i = some n') :
    NodeInv hostname pid n' := by
  obtain ⟨call, -, hs⟩ := Option.bind_eq_some_iff.mp hs
  have hn' := Option.some.inj hs
  have hstep : JobStep hostname n n' :=
    jobStep_of_eq (hn' ▸ rfl) (hn' ▸ rfl) (hn' ▸ rfl) (hn' ▸ rfl)
  rw [← hn'] at hstep ⊢
  exact h.of_job hstep h.rows.running rfl rfl rfl (h.reaps.frame hstep.later rfl rfl rfl rfl rfl)

theorem NodeInv.exec (h : NodeInv hostname pid n) {e : NodeEvent}
    (hs : n.exec hostname pid e = some n') : NodeInv hostname pid n' := by
  cases e with
  | pool e now => exact h.pool hs
  | heartbeat body q now => exact h.heartbeat hs
  | bindWorker => exact h.bindWorker hs
  | start i pk job time => exact h.start (show n.start hostname i pk job time = some n' from hs)
  | store pk job => exact h.store hs
  | reap i => exact h.reap hs
  | refresh i => exact h.refresh hs
  | save i => exact h.save hs
  | raise i => exact h.raise hs

theorem sorted_initWorkers (minWorkers maxWorkers : ℕ) (timeout : ℤ) :
    ((AutoscalePool.initWorkers minWorkers maxWorkers timeout).workers.map
      PoolWorker.ident).Pairwise (· < ·) := by
  have hsorted : ∀ m : ℕ, ∀ p : AutoscalePool, p.workers = [] →
      ((Nat.repeat AutoscalePool.up m p).workers.map PoolWorker.ident).Pairwise (· < ·) ∧
      ∀ w ∈ (Nat.repeat AutoscalePool.up m p).workers,
        w.ident < (Nat.repeat AutoscalePool.up m p).spawned := by
    intro m p hp
    induction m with
    | zero =>
      rw [Nat.repeat, hp]
      exact ⟨List.Pairwise.nil, by nofun⟩
    | succ m ih =>
      rw [Nat.repeat]
      rcases (Nat.repeat AutoscalePool.up m p).up_workers with heq | ⟨hworkers, hspawned, -⟩
      · rwa [heq]
      · rw [hworkers, hspawned, List.map_append]
        refine ⟨List.pairwise_append.mpr ⟨ih.1, List.pairwise_singleton _ _, fun i hi j hj => ?_⟩,
          fun w hw => ?_⟩
        · obtain ⟨w, hw, rfl⟩ := List.mem_map.mp hi
          rw [List.mem_singleton.mp hj]
          exact ih.2 w hw
        · rcases List.mem_append.mp hw with hw | hw
          · exact Nat.lt_succ_of_lt (ih.2 w hw)
          · rw [List.mem_singleton.mp hw]
            exact Nat.lt_succ_self _
  exact (hsorted minWorkers _ rfl).1

theorem nodeInv_init (h : (node hostname pid).init n) : NodeInv hostname pid n := by
  obtain ⟨s, clock, jobs, hs, hpids, rfl, hjobs⟩ := h
  obtain ⟨minWorkers, maxWorkers, timeout, -, hs'⟩ := id hs
  refine ⟨inv_init hs, ?_, hpids, ⟨fun pk row hget hours hrunning => ?_, fun pk row hget hbegun => ?_,
    fun pk row _ _ c _ hwritten => ?_⟩, ⟨by nofun, by nofun, by nofun, by nofun⟩, by nofun⟩
  · rw [Sorted, Node.initial, hs']
    exact sorted_initWorkers minWorkers maxWorkers timeout
  · exact absurd hrunning (hjobs pk row hget hours).1
  · exact (hjobs pk row hget (begun_iff.mp hbegun).1).2
  · rw [Node.initial, hs'] at hwritten
    cases hwritten

theorem nodeInv_of_reachable (h : (node hostname pid).Reachable n) : NodeInv hostname pid n :=
  h.invariant (fun _ => nodeInv_init) fun _ _ _ _ hinv hs => hinv.exec hs

/-! ### What the heartbeat fails -/

/-- A live process, of the pool or retired, runs the message. -/
def Node.Runs (n : Node) (u : ℕ) : Prop :=
  ∃ w ∈ n.state.pool.workers ++ n.state.retired, w.alive = true ∧ ∃ m ∈ w.running, m.uuid = u

/-- A stale row is not that of a message which a live process runs. -/
theorem NodeInv.not_runs (h : NodeInv hostname pid n) {u pk : ℕ} {k : BoundKwargs} {row : JobRow}
    (hk : n.bound.get? u = some k) (hstale : Stale hostname n k pk) (hget : n.jobs.get? pk = some row) :
    ∀ c ∈ row.celeryTaskId, ¬ n.Runs c := by
  rintro c hc ⟨w, hw, halive, m, hm, rfl⟩
  obtain ⟨row', hget', hbegun, ⟨t, ht, hle⟩, hout⟩ := hstale
  obtain rfl := Option.some.inj (hget.symm.trans hget')
  have hwork : m.uuid ∈ w.inWork := by
    rw [PoolWorker.inWork, Option.mem_def.mp hm]
    exact List.mem_singleton_self _
  rcases List.mem_append.mp hw with hw | hw
  · rcases (h.reaps.bound u k hk).rest m.uuid (hout _ hc) with hover | hfuture
    · exact hover.not_running h.state hw halive hwork
    · exact absurd (hfuture.rows pk row hget hbegun hc t ht) (Int.not_lt.mpr hle)
  · have hheld := mem_held_of_inWork hwork
    rw [h.state.retired w hw] at hheld
    cases hheld

theorem NodeInv.save_not_runs (h : NodeInv hostname pid n) {i : ℕ} (hs : n.save i = some n') :
    ∃ u pk row, n'.failed = n.failed ++ [(u, pk)] ∧ n.jobs.get? pk = some row ∧
      n'.jobs = n.jobs.set pk { row with status := .failed } ∧
      ∀ c ∈ row.celeryTaskId, ¬ n.Runs c := by
  obtain ⟨u, pk, pks, row, call, hof, htodo, hrow, rfl⟩ := Node.save_eq hs
  obtain ⟨k, hk, hstale⟩ := h.reaps.calls u call (callOf_some hof)
  rw [htodo] at hstale
  exact ⟨u, pk, row, rfl, hrow, rfl, h.not_runs hk (hstale pk List.mem_cons_self) hrow⟩

theorem save_ended {i : ℕ} (hs : n.save i = some n') : n'.ended = n.ended := by
  obtain ⟨u, pk, pks, row, call, -, -, -, rfl⟩ := Node.save_eq hs
  rfl

/-- A row that was owed and is not in the query has ended: nothing else keeps it out. -/
theorem NodeInv.reap_ended (h : NodeInv hostname pid n) {i : ℕ} (hs : n.reap hostname i = some n') :
    n'.failed = n.failed ∧ ∀ u pk, (u, pk) ∈ n'.ended → (u, pk) ∈ n.ended ∨
      ∃ row, n.jobs.get? pk = some row ∧ row.status ≠ .running := by
  obtain ⟨⟨v, k⟩, hof, hs⟩ := Option.bind_eq_some_iff.mp hs
  have hk := heartbeatOf_some hof
  dsimp only at hs
  split at hs
  · cases hs
  · rw [← Option.some.inj hs]
    refine ⟨rfl, fun u pk hmem => (List.mem_append.mp hmem).imp_right fun hmem => ?_⟩
    obtain ⟨p, hp, he⟩ := List.mem_map.mp hmem
    obtain ⟨rfl, rfl⟩ := Prod.mk.inj he
    obtain ⟨hpk, hnot⟩ := List.mem_filter.mp hp
    cases howed : n.owed.get? v with
    | none =>
      rw [howed] at hpk
      cases hpk
    | some pks =>
      rw [howed] at hpk
      obtain ⟨row, hget, hbegun, ht, hc⟩ := ((h.reaps.owed v pks howed).2 k hk p hpk).stale
      refine ⟨row, hget, fun hrunning => of_decide_eq_true hnot ?_⟩
      have hrow := reapable_iff.mpr ⟨hrunning, (begun_iff.mp hbegun).1, ht, hc⟩
      exact List.mem_map.mpr
        ⟨(p, row), List.mem_filter.mpr ⟨Dict.mem_entries_of_get? hget, hrow⟩, rfl⟩

theorem refresh_ended {i : ℕ} (hs : n.refresh i = some n') :
    n'.failed = n.failed ∧ ∀ u pk, (u, pk) ∈ n'.ended → (u, pk) ∈ n.ended ∨
      ∃ row, n.jobs.get? pk = some row ∧ row.status ≠ .running := by
  obtain ⟨⟨v, call⟩, -, hs⟩ := Option.bind_eq_some_iff.mp hs
  dsimp only at hs
  split at hs
  · obtain ⟨row, hrow, hs⟩ := Option.bind_eq_some_iff.mp hs
    split_ifs at hs with hstatus
    · rw [← Option.some.inj hs]
      exact ⟨rfl, fun u pk hmem => .inl hmem⟩
    · rw [← Option.some.inj hs]
      refine ⟨rfl, fun u pk hmem => (List.mem_append.mp hmem).imp_right fun hmem => ?_⟩
      obtain ⟨rfl, rfl⟩ := Prod.mk.inj (List.mem_singleton.mp hmem)
      exact ⟨row, hrow, fun hrunning => hstatus (.inl hrunning)⟩
  · cases hs

/-- The other steps leave the jobs that heartbeats failed or found ended. -/
theorem frame_of_step {e : NodeEvent} (hs : n.exec hostname pid e = some n') :
    (n'.failed = n.failed ∧ n'.ended = n.ended) ∨
      ∃ i, n.reap hostname i = some n' ∨ n.refresh i = some n' ∨ n.save i = some n' := by
  cases e with
  | reap i => exact .inr ⟨i, .inl hs⟩
  | refresh i => exact .inr ⟨i, .inr (.inl hs)⟩
  | save i => exact .inr ⟨i, .inr (.inr hs)⟩
  | pool e now =>
    obtain ⟨s, -, hs⟩ := Option.bind_eq_some_iff.mp hs
    obtain ⟨-, hs⟩ := Option.ite_none_right_eq_some.mp hs
    exact .inl (Option.some.inj hs ▸ ⟨rfl, rfl⟩)
  | heartbeat body q now =>
    obtain ⟨u, -, hs⟩ := Option.bind_eq_some_iff.mp hs
    obtain ⟨s, -, hs⟩ := Option.bind_eq_some_iff.mp hs
    obtain ⟨-, hs⟩ := Option.ite_none_right_eq_some.mp hs
    exact .inl (Option.some.inj hs ▸ ⟨rfl, rfl⟩)
  | bindWorker =>
    obtain ⟨b, -, hs⟩ := Option.bind_eq_some_iff.mp hs
    split at hs
    · exact .inl (Option.some.inj hs ▸ ⟨rfl, rfl⟩)
    · obtain ⟨w, -, hs⟩ := Option.bind_eq_some_iff.mp hs
      exact .inl (Option.some.inj hs ▸ ⟨rfl, rfl⟩)
  | start i pk job time =>
    obtain ⟨w, -, hs⟩ := Option.bind_eq_some_iff.mp hs
    obtain ⟨m, -, hs⟩ := Option.bind_eq_some_iff.mp hs
    obtain ⟨since, -, hs⟩ := Option.bind_eq_some_iff.mp hs
    obtain ⟨-, hs⟩ := Option.ite_none_right_eq_some.mp hs
    split at hs
    · obtain ⟨-, hs⟩ := Option.ite_none_right_eq_some.mp hs
      exact .inl (Option.some.inj hs ▸ ⟨rfl, rfl⟩)
    · exact .inl (Option.some.inj hs ▸ ⟨rfl, rfl⟩)
  | store pk job =>
    obtain ⟨-, hs⟩ := Option.ite_none_right_eq_some.mp hs
    exact .inl (Option.some.inj hs ▸ ⟨rfl, rfl⟩)
  | raise i =>
    obtain ⟨call, -, hs⟩ := Option.bind_eq_some_iff.mp hs
    exact .inl (Option.some.inj hs ▸ ⟨rfl, rfl⟩)

/-- While rows are left, the call can go on. -/
theorem NodeInv.call_goes_on (h : NodeInv hostname pid n) {i u : ℕ} {call : ReapCall}
    (hof : n.callOf i = some (u, call)) (htodo : call.todo ≠ []) :
    ∃ n', n.refresh i = some n' ∨ n.save i = some n' := by
  obtain ⟨pk, pks, hcons⟩ := List.exists_cons_of_ne_nil htodo
  obtain ⟨todo, refreshed⟩ := call
  subst hcons
  obtain ⟨k, hk, hstale⟩ := h.reaps.calls u _ (callOf_some hof)
  obtain ⟨row, hrow, -⟩ := hstale pk List.mem_cons_self
  cases refreshed with
  | true =>
    exact ⟨_, .inr (by simp only [Node.save, hof, hrow, Option.bind_eq_bind, Option.bind_some]; rfl)⟩
  | false =>
    by_cases hstatus : row.status = .running ∨ row.status = .waiting
    · exact ⟨_, .inl (by simp only [Node.refresh, hof, hrow, Option.bind_eq_bind, Option.bind_some,
        if_pos hstatus]; rfl)⟩
    · exact ⟨_, .inl (by simp only [Node.refresh, hof, hrow, Option.bind_eq_bind, Option.bind_some,
        if_neg hstatus]; rfl)⟩

end Forail.Dispatch
