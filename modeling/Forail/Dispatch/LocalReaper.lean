import Forail.Dispatch.Heartbeat
import Forail.Dispatch.Recovery
import Forail.Dispatch.WorkerSteps

/-! The local reaper. A uuid outside the bound ones is over when the binding ends, so that no live
worker runs its message again, or its jobs start after the time that was bound. -/

namespace Forail.Dispatch

variable {hostname : String} {pid : ℕ → ℕ} {n n' : Node} {s s' : State} {e : Event}

/-! ### The dispatcher -/

/-- A child's step or the end of `add_bind_kwargs` are all that can follow its start. -/
theorem step_of_growing {body : Body} {q : ℕ} {orphaned : List Body}
    (hph : s.phase = .growing body q orphaned) (hs : exec s e = some s') (hgrow : e.isGrow ≠ true) :
    s'.phase = s.phase ∧ s'.pool.spawned = s.pool.spawned ∧ e.isOffer = false := by
  cases e with
  | write body q =>
    obtain ⟨⟨hidle, -⟩, -⟩ := Option.ite_none_right_eq_some.mp hs
    rw [hph] at hidle
    cases hidle
  | grow order => exact absurd rfl hgrow
  | offer fresh | cleanup | visit jobs | check now | requeue idx =>
    simp [exec, hph] at hs
  | take i | finish i | die i =>
    obtain ⟨w, -, hb⟩ := Option.bind_eq_some_iff.mp hs
    obtain ⟨w', -, he⟩ := Option.bind_eq_some_iff.mp hb
    rw [← Option.some.inj he]
    exact ⟨rfl, rfl, rfl⟩

/-- Messages come in by `write` and `put`. -/
theorem mem_written (hs : exec s e = some s') {u : ℕ} :
    (u ∈ s.written → u ∈ s'.written) ∧ (u ∈ s'.written → u ∈ s.written ∨ u ∈ e.uuids) := by
  have hsame : s'.written = s.written →
      (u ∈ s.written → u ∈ s'.written) ∧ (u ∈ s'.written → u ∈ s.written ∨ u ∈ e.uuids) :=
    fun h => h ▸ ⟨id, .inl⟩
  cases e with
  | write body q =>
    obtain ⟨-, hs⟩ := Option.ite_none_right_eq_some.mp hs
    rw [← Option.some.inj hs]
    exact ⟨List.mem_append_left _, List.mem_append.mp⟩
  | offer fresh =>
    have hput (w : PoolWorker) (body : Body) (orphaned : List Body) :
        (u ∈ s.written → u ∈ (deliver s w body fresh orphaned).written) ∧
        (u ∈ (deliver s w body fresh orphaned).written → u ∈ s.written ∨ u ∈ (Event.offer fresh).uuids) := by
      rw [deliver]
      dsimp only
      split_ifs
      · exact ⟨List.mem_append_left _, List.mem_append.mp⟩
      · exact ⟨id, .inl⟩
    simp only [exec] at hs
    split at hs
    · split_ifs at hs
      split at hs
      · obtain ⟨w, -, hb⟩ := Option.bind_eq_some_iff.mp hs
        split_ifs at hb
        · rw [← Option.some.inj hb]
          exact ⟨id, .inl⟩
        · rw [← Option.some.inj hb]
          exact hput _ _ _
      · split at hs
        · rw [← Option.some.inj hs]
          exact hput _ _ _
        · rw [← Option.some.inj hs]
          exact ⟨id, .inl⟩
    · cases hs
  | grow order | requeue idx =>
    simp only [exec] at hs
    split at hs
    · split_ifs at hs <;> exact hsame (by rw [← Option.some.inj hs])
    · cases hs
  | cleanup =>
    obtain ⟨-, hs⟩ := Option.ite_none_right_eq_some.mp hs
    exact hsame (by rw [← Option.some.inj hs])
  | visit jobs =>
    simp only [exec] at hs
    split at hs
    · obtain ⟨w, -, hb⟩ := Option.bind_eq_some_iff.mp hs
      split_ifs at hb <;> exact hsame (congrArg State.written (Option.some.inj hb)).symm
    · cases hs
  | check now =>
    simp only [exec] at hs
    split at hs
    · obtain ⟨w, -, hb⟩ := Option.bind_eq_some_iff.mp hs
      refine hsame ?_
      rw [← Option.some.inj hb, keep]
      dsimp only
      split
      · rfl
      · split <;> rfl
    · cases hs
  | take i | finish i | die i =>
    obtain ⟨w, -, hb⟩ := Option.bind_eq_some_iff.mp hs
    obtain ⟨w', -, he⟩ := Option.bind_eq_some_iff.mp hb
    exact hsame (by rw [← Option.some.inj he])

def Sorted (s : State) : Prop := (s.pool.workers.map PoolWorker.ident).Pairwise (· < ·)

theorem Sorted.steps (h : Sorted s) (hinv : Inv s) (hsteps : WorkerSteps e s s') : Sorted s' := by
  refine List.Pairwise.sublist hsteps.idents (List.pairwise_append.mpr ⟨h, ?_, fun i hi j hj => ?_⟩)
  · split_ifs
    · exact List.pairwise_singleton _ _
    · exact List.Pairwise.nil
  · obtain ⟨w, hw, rfl⟩ := List.mem_map.mp hi
    split_ifs at hj
    · rw [List.mem_singleton.mp hj]
      exact hinv.pool.spawned w hw
    · cases hj

/-- Nothing was spawned: every worker was there before. -/
theorem WorkerSteps.old (h : WorkerSteps e s s') (hinv : Inv s)
    (hs : ¬ s.pool.spawned < s'.pool.spawned) {w' : PoolWorker} (hw' : w' ∈ s'.pool.workers) :
    ∃ w ∈ s.pool.workers, WorkerStep e w w' := by
  refine (h.back w' hw').resolve_right fun hnew => ?_
  have hmem := h.idents.subset (List.mem_map_of_mem hw')
  rw [if_neg hs, List.append_nil] at hmem
  obtain ⟨w, hw, hident⟩ := List.mem_map.mp hmem
  have hlt := hinv.pool.spawned w hw
  rw [hident, hnew] at hlt
  exact Nat.lt_irrefl _ hlt

theorem PidsApart.steps (h : PidsApart pid s) (hinv : Inv s) (hsteps : WorkerSteps e s s')
    (hfork : s.pool.spawned < s'.pool.spawned → ∀ w ∈ s.pool.workers, w.alive = true →
      pid w.ident ≠ pid s.pool.spawned) : PidsApart pid s' := by
  intro w hw w' hw' hlt halive
  have hold : ∀ {v v' : PoolWorker}, v ∈ s.pool.workers → WorkerStep e v w → v' ∈ s.pool.workers →
      WorkerStep e v' w' → pid w.ident ≠ pid w'.ident := by
    intro v v' hv hstep hv' hstep'
    rw [hstep.ident, hstep'.ident] at hlt ⊢
    exact h v hv v' hv' hlt (hstep.alive halive)
  by_cases hspawned : s.pool.spawned < s'.pool.spawned
  · rcases hsteps.back w hw with ⟨v, hv, hstep⟩ | rfl
    · rcases hsteps.back w' hw' with ⟨v', hv', hstep'⟩ | rfl
      · exact hold hv hstep hv' hstep'
      · rw [hstep.ident]
        exact hfork hspawned v hv (hstep.alive halive)
    · -- no worker is younger than the new one
      rcases hsteps.back w' hw' with ⟨v', hv', hstep'⟩ | rfl
      · have hlt' := hinv.pool.spawned v' hv'
        rw [hstep'.ident] at hlt
        exact absurd (Nat.lt_trans hlt' hlt) (Nat.lt_irrefl _)
      · exact absurd hlt (Nat.lt_irrefl _)
  · obtain ⟨v, hv, hstep⟩ := hsteps.old hinv hspawned hw
    obtain ⟨v', hv', hstep'⟩ := hsteps.old hinv hspawned hw'
    exact hold hv hstep hv' hstep'

/-! ### What is over and what is to come -/

/-- No live worker runs the message, now or later. -/
def Over (hostname : String) (n : Node) (u : ℕ) : Prop :=
  u ∈ n.state.done ∨ u ∈ n.state.lost ∨
    (∃ w ∈ n.state.pool.workers, w.alive = false ∧ u ∈ w.inWork) ∨
    u ∉ n.state.written ∧ n.hasStarted hostname u

/-- The jobs of the message start after a time. -/
structure Future (hostname : String) (n : Node) (t : ℤ) (u : ℕ) : Prop where
  rows : ∀ pk row, n.jobs.get? pk = some row → row.begun hostname = true →
    row.celeryTaskId = some u → ∀ t' ∈ row.started, t < t'
  held : ∀ w ∈ n.state.pool.workers, w.alive = true → u ∈ w.held → t < n.clock
  work : ∀ w ∈ n.state.pool.workers, w.alive = true → u ∈ w.inWork → ∀ t' ∈ n.taken.get? u, t < t'

theorem hasStarted_iff {u : ℕ} : n.hasStarted hostname u ↔
    ∃ pk row, n.jobs.get? pk = some row ∧ row.begun hostname = true ∧ row.celeryTaskId = some u := by
  refine ⟨fun ⟨e, he, hrow⟩ => ⟨e.1, e.2, Dict.get?_of_mem_entries he, hrow⟩, ?_⟩
  rintro ⟨pk, row, hget, hrow⟩
  exact ⟨(pk, row), Dict.mem_entries_of_get? hget, hrow⟩

/-- Two workers do not hold one message. -/
theorem Inv.held_unique (h : Inv s) {w w' : PoolWorker} (hw : w ∈ s.pool.workers)
    (hw' : w' ∈ s.pool.workers) {u : ℕ} (hu : u ∈ w.held) (hu' : u ∈ w'.held) : w = w' := by
  by_contra hne
  have hrem := h.pool.heldCount_removeWorker hw u
  have hmem : w' ∈ (s.pool.removeWorker w.ident).workers :=
    Keyed.mem_remove.mpr ⟨hw', fun hi => hne (Keyed.eq_of_key h.pool.idents hw hw' hi.symm)⟩
  have hle := AutoscalePool.count_le_heldCount hmem u
  have hone := List.nodup_iff_count_le_one.mp h.written u
  have hplace := h.place u
  have hpos := List.count_pos_iff.mpr hu
  have hpos' := List.count_pos_iff.mpr hu'
  omega

theorem mem_held_of_inWork {w : PoolWorker} {u : ℕ} (hu : u ∈ w.inWork) : u ∈ w.held :=
  List.mem_append_left _ hu

theorem Inv.written_of_held (h : Inv s) {w : PoolWorker} (hw : w ∈ s.pool.workers) {u : ℕ}
    (hu : u ∈ w.held) : u ∈ s.written ∧ u ∉ s.done := by
  have hle := AutoscalePool.count_le_heldCount hw u
  have hplace := h.place u
  have hpos := List.count_pos_iff.mpr hu
  refine ⟨List.count_pos_iff.mp (by omega), fun hdone => ?_⟩
  have hdone := List.count_pos_iff.mpr hdone
  have hone := List.nodup_iff_count_le_one.mp h.written u
  omega

theorem Over.not_running {u : ℕ} (h : Over hostname n u) (hinv : Inv n.state) {w : PoolWorker}
    (hw : w ∈ n.state.pool.workers) (ha : w.alive = true) : u ∉ w.inWork := by
  intro hu
  have hheld := mem_held_of_inWork hu
  rcases h with hdone | hlost | ⟨w', hw', hdead, hu'⟩ | ⟨hwritten, -⟩
  · exact (hinv.written_of_held hw hheld).2 hdone
  · exact (hinv.held_apart hw hheld).2 hlost
  · have heq := hinv.held_unique hw hw' hheld (mem_held_of_inWork hu')
    rw [heq, hdead] at ha
    cases ha
  · exact hwritten (hinv.written_of_held hw hheld).1

/-! ### Steps of the dispatcher and of the jobs -/

/-- A step of the dispatcher, with the jobs as they were. -/
structure PoolStep (hostname : String) (e : Event) (n n' : Node) : Prop where
  steps : WorkerSteps e n.state n'.state
  writtenMono : ∀ u ∈ n.state.written, u ∈ n'.state.written
  written : ∀ u ∈ n'.state.written, u ∈ n.state.written ∨ ¬ n.hasStarted hostname u
  jobs : n'.jobs = n.jobs
  clock : n.clock ≤ n'.clock
  offer : e.isOffer = true → n.clock < n'.clock
  taken : ∀ u t, n'.taken.get? u = some t → n.taken.get? u = some t ∨ t = n'.clock
  takes : ∀ w ∈ n'.state.pool.workers, e = .take w.ident → ∀ u ∈ w.inWork,
    n'.taken.get? u = some n'.clock

theorem PoolStep.over (h : PoolStep hostname e n n') {u : ℕ} (ho : Over hostname n u) :
    Over hostname n' u := by
  rcases ho with hdone | hlost | ⟨w, hw, hdead, hu⟩ | ⟨hwritten, hstarted⟩
  · exact .inl (h.steps.done u hdone)
  · exact .inr (.inl (h.steps.lost u hlost))
  · rcases h.steps.inWork w hw u hu with hdone | hlost | ⟨w', hw', hu', hdead'⟩
    · exact .inl hdone
    · exact .inr (.inl hlost)
    · exact .inr (.inr (.inl ⟨w', hw', hdead' hdead, hu'⟩))
  · refine .inr (.inr (.inr ⟨fun hu => ?_, ?_⟩))
    · exact (h.written u hu).elim hwritten fun hnot => hnot hstarted
    · rw [Node.hasStarted, h.jobs]
      exact hstarted

theorem PoolStep.future (h : PoolStep hostname e n n') {t : ℤ} {u : ℕ} (ht : t ≤ n.clock)
    (hf : Future hostname n t u) : Future hostname n' t u := by
  have hheld : ∀ w' ∈ n'.state.pool.workers, w'.alive = true → u ∈ w'.held →
      t < n.clock ∨ e.isOffer = true := by
    intro w' hw' halive hu
    rcases h.steps.back w' hw' with ⟨w, hw, hstep⟩ | rfl
    · rcases hstep.held u hu with hu | ⟨fresh, rfl⟩
      · exact .inl (hf.held w hw (hstep.alive halive) hu)
      · exact .inr rfl
    · cases hu
  have hclock : ∀ w' ∈ n'.state.pool.workers, w'.alive = true → u ∈ w'.held → t < n'.clock :=
    fun w' hw' halive hu => (hheld w' hw' halive hu).elim
      (fun hlt => Int.lt_of_lt_of_le hlt h.clock) fun hoffer => Int.lt_of_le_of_lt ht (h.offer hoffer)
  refine ⟨fun pk row hget => hf.rows pk row (h.jobs ▸ hget), hclock, fun w' hw' halive hu t' ht' => ?_⟩
  rcases h.taken u t' ht' with hold | rfl
  · rcases h.steps.back w' hw' with ⟨w, hw, hstep⟩ | rfl
    · rcases hstep.inWork u hu with hu' | ⟨he, -⟩
      · exact hf.work w hw (hstep.alive halive) hu' t' hold
      · have hnow := h.takes w' hw' (hstep.ident ▸ he) u hu
        rw [Option.mem_def.mp ht'] at hnow
        rw [Option.some.inj hnow]
        exact hclock w' hw' halive (mem_held_of_inWork hu)
    · cases hu
  · exact hclock w' hw' halive (mem_held_of_inWork hu)

/-- A write of one row, with the dispatcher as it was. A row that has begun keeps its start; one
that begins is that of a message in work in a live worker, at a time since it was taken. -/
structure JobStep (hostname : String) (n n' : Node) : Prop where
  state : n'.state = n.state
  clock : n'.clock = n.clock
  taken : n'.taken = n.taken
  rows : ∀ pk row, n.jobs.get? pk = some row → row.begun hostname = true →
    ∃ row', n'.jobs.get? pk = some row' ∧ row'.begun hostname = true ∧
      row'.started = row.started ∧ row'.celeryTaskId = row.celeryTaskId
  back : ∀ pk row', n'.jobs.get? pk = some row' → row'.begun hostname = true →
    (∃ row, n.jobs.get? pk = some row ∧ row.begun hostname = true ∧
      row'.started = row.started ∧ row'.celeryTaskId = row.celeryTaskId) ∨
    ∃ w ∈ n.state.pool.workers, ∃ u ∈ w.inWork, ∃ since time, w.alive = true ∧
      row'.celeryTaskId = some u ∧ row'.started = some time ∧ n.taken.get? u = some since ∧
      since ≤ time ∧ time ≤ n.clock

theorem JobStep.over (h : JobStep hostname n n') {u : ℕ} (ho : Over hostname n u) :
    Over hostname n' u := by
  rw [Over, h.state]
  refine ho.imp_right (Or.imp_right (Or.imp_right (And.imp_right fun hstarted => ?_)))
  obtain ⟨pk, row, hget, hbegun, hid⟩ := hasStarted_iff.mp hstarted
  obtain ⟨row', hget', hbegun', -, hid'⟩ := h.rows pk row hget hbegun
  exact hasStarted_iff.mpr ⟨pk, row', hget', hbegun', hid'.trans hid⟩

theorem JobStep.future (h : JobStep hostname n n') {t : ℤ} {u : ℕ} (hf : Future hostname n t u) :
    Future hostname n' t u := by
  refine ⟨fun pk row' hget' hbegun' hid t' ht' => ?_, ?_, ?_⟩
  · rcases h.back pk row' hget' hbegun' with ⟨row, hget, hbegun, hstarted, hid'⟩ |
      ⟨w, hw, v, hv, since, time, halive, hv', hstarted, htaken, hsince, -⟩
    · exact hf.rows pk row hget hbegun (hid'.symm.trans hid) t' (hstarted ▸ ht')
    · obtain rfl := Option.some.inj (hv'.symm.trans hid)
      rw [hstarted] at ht'
      obtain rfl := Option.some.inj ht'
      exact Int.lt_of_lt_of_le (hf.work w hw halive hv since htaken) hsince
  · rw [h.state, h.clock]
    exact hf.held
  · rw [h.state, h.taken]
    exact hf.work

/-! ### The steps of the node -/

theorem Node.pool_step (hinv : Inv n.state) {now : ℤ} (hs : n.pool hostname pid e now = some n') :
    PoolStep hostname e n n' := by
  obtain ⟨s, hexec, hs⟩ := Option.bind_eq_some_iff.mp hs
  obtain ⟨⟨hclock, hoffer, -, hnew, -⟩, hs⟩ := Option.ite_none_right_eq_some.mp hs
  rw [← Option.some.inj hs]
  refine ⟨.exec hinv hexec, fun u => (mem_written hexec).1, fun u hu => ?_, rfl, hclock, hoffer,
    fun u t ht => ?_, fun w hw he u hu => ?_⟩
  · exact ((mem_written hexec).2 hu).imp_right fun hmem => hnew u hmem
  · dsimp only at ht
    split at ht
    · exact (Dict.of_get?_set ht).elim (fun h => .inr h.2) fun h => .inl h.2
    · exact .inl ht
  · have hfind : s.pool.find w.ident = some w :=
      Keyed.find_of_mem (hinv.exec hexec).pool.idents hw
    rw [PoolWorker.inWork, Option.mem_toList] at hu
    have htaken : takenBy s e = some u := by
      rw [he, takenBy, hfind]
      exact hu
    dsimp only
    rw [htaken]
    exact (Dict.get?_set _ _ _ _).trans (if_pos rfl)

theorem Node.heartbeat_step (hinv : Inv n.state) {body : Body} {q : ℕ} {now : ℤ}
    (hs : n.heartbeat hostname body q now = some n') : PoolStep hostname (.write body q) n n' := by
  obtain ⟨v, hbody, hs⟩ := Option.bind_eq_some_iff.mp hs
  obtain ⟨s, hexec, hs⟩ := Option.bind_eq_some_iff.mp hs
  obtain ⟨⟨hclock, hnew⟩, hs⟩ := Option.ite_none_right_eq_some.mp hs
  rw [← Option.some.inj hs]
  refine ⟨.exec hinv hexec, fun u => (mem_written hexec).1, fun u hu => ?_, rfl, hclock,
    (by nofun), fun u t ht => .inl ht, (by nofun)⟩
  refine ((mem_written hexec).2 hu).imp_right fun hmem => ?_
  rw [Event.uuids, hbody] at hmem
  exact List.mem_singleton.mp hmem ▸ hnew

/-- The parent reads what a worker has finished. -/
theorem calculate_step (hinv : Inv n.state) {w : PoolWorker} (hw : w ∈ n.state.pool.workers)
    (hstate : n'.state = { n.state with pool := n.state.pool.setWorker w.calculateManagedTasks })
    (hjobs : n'.jobs = n.jobs) (hclock : n'.clock = n.clock) (htaken : n'.taken = n.taken) :
    PoolStep hostname .cleanup n n' := by
  refine ⟨?_, fun u hu => hstate ▸ hu, fun u hu => .inl ?_, hjobs, hclock ▸ Int.le_refl _,
    (by nofun), fun u t ht => .inl (htaken ▸ ht), (by nofun)⟩
  · rw [hstate]
    exact .setWorker hinv hw rfl (workerStep_of_eq rfl rfl rfl rfl) (fun u hu => hu) rfl
      fun u hu => .inr ⟨hu, id⟩
  · rw [hstate] at hu
    exact hu

theorem Inv.calculate (h : Inv s) {w : PoolWorker} (hw : w ∈ s.pool.workers) :
    Inv { s with pool := s.pool.setWorker w.calculateManagedTasks } :=
  h.setWorker hw (h.pool.ok w hw).calculate rfl rfl (by nofun)

/-- No row is written. -/
theorem jobStep_of_eq (hstate : n'.state = n.state) (hclock : n'.clock = n.clock)
    (htaken : n'.taken = n.taken) (hjobs : n'.jobs = n.jobs) : JobStep hostname n n' :=
  ⟨hstate, hclock, htaken, fun _ row hget hbegun => ⟨row, hjobs ▸ hget, hbegun, rfl, rfl⟩,
    fun _ row hget hbegun => .inl ⟨row, hjobs ▸ hget, hbegun, rfl, rfl⟩⟩

/-- A write of one row. -/
theorem jobStep_set {pk : ℕ} {row' : JobRow} (hstate : n'.state = n.state)
    (hclock : n'.clock = n.clock) (htaken : n'.taken = n.taken) (hjobs : n'.jobs = n.jobs.set pk row')
    (hkeep : ∀ row, n.jobs.get? pk = some row → row.begun hostname = true →
      row'.begun hostname = true ∧ row'.started = row.started ∧ row'.celeryTaskId = row.celeryTaskId)
    (hnew : row'.begun hostname = true →
      (∃ row, n.jobs.get? pk = some row ∧ row.begun hostname = true) ∨
      ∃ w ∈ n.state.pool.workers, ∃ u ∈ w.inWork, ∃ since time, w.alive = true ∧
        row'.celeryTaskId = some u ∧ row'.started = some time ∧ n.taken.get? u = some since ∧
        since ≤ time ∧ time ≤ n.clock) : JobStep hostname n n' := by
  refine ⟨hstate, hclock, htaken, fun p row hget hbegun => ?_, fun p row hget hbegun => ?_⟩
  · rw [hjobs, Dict.get?_set]
    split_ifs with hp
    · subst hp
      exact ⟨row', rfl, hkeep row hget hbegun⟩
    · exact ⟨row, hget, hbegun, rfl, rfl⟩
  · rw [hjobs] at hget
    rcases Dict.of_get?_set hget with ⟨rfl, rfl⟩ | ⟨-, hget⟩
    · rcases hnew hbegun with ⟨old, hold, hbegun'⟩ | hwork
      · exact .inl ⟨old, hold, hbegun', (hkeep old hold hbegun').2⟩
      · exact .inr hwork
    · exact .inl ⟨row, hget, hbegun, rfl, rfl⟩

theorem begun_iff {row : JobRow} :
    row.begun hostname = true ↔ row.ours hostname = true ∧ row.started.isSome = true := by
  rw [JobRow.begun, decide_eq_true_iff]

theorem Node.start_step {i pk : ℕ} {job : JobRow} {time : ℤ}
    (hs : n.start hostname i pk job time = some n') : JobStep hostname n n' := by
  obtain ⟨w, hfind, hs⟩ := Option.bind_eq_some_iff.mp hs
  obtain ⟨m, hrun, hs⟩ := Option.bind_eq_some_iff.mp hs
  obtain ⟨since, hsince, hs⟩ := Option.bind_eq_some_iff.mp hs
  obtain ⟨⟨halive, hle, hclock⟩, hs⟩ := Option.ite_none_right_eq_some.mp hs
  have hwork : m.uuid ∈ w.inWork := by
    rw [PoolWorker.inWork, hrun]
    exact List.mem_singleton_self _
  have hmem := (AutoscalePool.find_some hfind).1
  split at hs
  · next row hget =>
    obtain ⟨⟨hid, hours⟩, hs⟩ := Option.ite_none_right_eq_some.mp hs
    rw [← Option.some.inj hs]
    refine jobStep_set rfl rfl rfl rfl (fun old hold hbegun => ?_) fun _ => ?_
    · obtain rfl := Option.some.inj (hget.symm.trans hold)
      obtain ⟨s, hstarted⟩ := Option.isSome_iff_exists.mp (begun_iff.mp hbegun).2
      refine ⟨begun_iff.mpr ⟨hours, rfl⟩, ?_, rfl⟩
      rw [hstarted]
      rfl
    · cases hstarted : row.started with
      | some s => exact .inl ⟨row, hget, begun_iff.mpr ⟨hours, hstarted ▸ rfl⟩⟩
      | none => exact .inr ⟨w, hmem, m.uuid, hwork, since, time, halive, hid, rfl, hsince, hle, hclock⟩
  · next hget =>
    rw [← Option.some.inj hs]
    refine jobStep_set rfl rfl rfl rfl (fun old hold => ?_) fun _ =>
      .inr ⟨w, hmem, m.uuid, hwork, since, time, halive, rfl, rfl, hsince, hle, hclock⟩
    rw [hget] at hold
    cases hold

theorem Node.store_step {pk : ℕ} {job : JobRow} (hs : n.store hostname pk job = some n') :
    JobStep hostname n n' := by
  obtain ⟨hw, hs⟩ := Option.ite_none_right_eq_some.mp hs
  rw [← Option.some.inj hs]
  unfold Writable at hw
  split at hw
  · next row hold =>
    obtain ⟨hget, hbegun⟩ := Option.filter_eq_some_iff.mp hold
    refine jobStep_set rfl rfl rfl rfl (fun old hget' _ => ?_) fun _ => .inl ⟨row, hget, hbegun⟩
    obtain rfl := Option.some.inj (hget.symm.trans hget')
    rw [hw]
    exact ⟨hbegun, rfl, rfl⟩
  · next hnone =>
    refine jobStep_set rfl rfl rfl rfl (fun old hget hbegun => ?_) fun hbegun => ?_
    · rw [hget, Option.filter_some, if_pos hbegun] at hnone
      cases hnone
    · obtain ⟨hours, hstarted⟩ := begun_iff.mp hbegun
      rw [(hw hours).1] at hstarted
      cases hstarted

theorem Node.save_step {i : ℕ} (hs : n.save i = some n') : JobStep hostname n n' := by
  obtain ⟨⟨u, call⟩, -, hs⟩ := Option.bind_eq_some_iff.mp hs
  dsimp only at hs
  split at hs
  · obtain ⟨row, hget, hs⟩ := Option.bind_eq_some_iff.mp hs
    rw [← Option.some.inj hs]
    refine jobStep_set rfl rfl rfl rfl (fun old hget' hbegun => ?_) fun hbegun => .inl ⟨row, hget, hbegun⟩
    obtain rfl := Option.some.inj (hget.symm.trans hget')
    exact ⟨hbegun, rfl, rfl⟩
  · cases hs

end Forail.Dispatch
