import Forail.Dispatch.PoolInvariant
import Mathlib.Algebra.GroupWithZero.Nat

/-! Crash recovery. In every run of the pool each message written is in exactly one place.
What `cleanup` reaps, however, is the first managed task of a dead worker, and that is the
message in work only if the child had taken one: a child that dies before it takes its next
message leaves it in the queue, and the message is reaped and requeued. -/

namespace Forail.Dispatch

open Keyed

/-! ### The places of a message -/

namespace State

/-- How often a message is in the queues of the workers. -/
def waiting (s : State) (u : ℕ) : ℕ := (s.pool.workers.map fun w => w.queued.count u).sum

def beingRun (s : State) (u : ℕ) : ℕ :=
  (s.pool.workers.map fun w => if w.alive then w.inWork.count u else 0).sum

/-- Run by a child that died, whether `cleanup` has seen it yet or not. -/
def died (s : State) (u : ℕ) : ℕ :=
  (s.pool.workers.map fun w => if w.alive then 0 else w.inWork.count u).sum + s.lost.count u

/-- In the hands of the parent, that is in a running call of `write` or `cleanup`. -/
def inHand (s : State) (u : ℕ) : ℕ := s.phase.hand.count u

end State

variable {s s' : State}

theorem heldCount_eq (p : AutoscalePool) (u : ℕ) : p.heldCount u =
    (p.workers.map fun w => w.queued.count u).sum +
      (p.workers.map fun w => if w.alive then w.inWork.count u else 0).sum +
      (p.workers.map fun w => if w.alive then 0 else w.inWork.count u).sum := by
  simp only [AutoscalePool.heldCount, PoolWorker.held, List.count_append]
  induction p.workers with
  | nil => rfl
  | cons w ws ih =>
    simp only [List.map_cons, List.sum_cons, ih]
    split_ifs <;> omega

theorem Inv.located (h : Inv s) {u : ℕ} (hu : u ∈ s.written) :
    s.waiting u + s.beingRun u + s.done.count u + s.died u + s.inHand u = 1 := by
  have hplace := h.place u
  rw [List.count_eq_one_of_mem h.written hu, heldCount_eq] at hplace
  simp only [State.waiting, State.beingRun, State.died, State.inHand]
  omega

theorem initWorkers_ok {minWorkers : ℕ} (hmin : 0 < minWorkers) (maxWorkers : ℕ) (timeout : ℤ) :
    (AutoscalePool.initWorkers minWorkers maxWorkers timeout).Ok ∧
      ∀ u, (AutoscalePool.initWorkers minWorkers maxWorkers timeout).heldCount u = 0 := by
  rw [AutoscalePool.initWorkers]
  generalize hp : (⟨[], minWorkers, max minWorkers maxWorkers, timeout, 0, 0, 0⟩ : AutoscalePool) = p
  have hok : p.Ok := by
    rw [← hp]
    exact ⟨List.nodup_nil, fun w hw => (by cases hw), fun w hw => (by cases hw), hmin,
      Nat.le_max_left _ _⟩
  have hzero : ∀ u, p.heldCount u = 0 := fun u => by
    rw [← hp]
    rfl
  generalize minWorkers = n
  induction n with
  | zero => exact ⟨hok, hzero⟩
  | succ n ih => exact ⟨ih.1.up, fun u => (AutoscalePool.heldCount_up _ u).trans (ih.2 u)⟩

theorem finished_initWorkers (minWorkers maxWorkers : ℕ) (timeout : ℤ) :
    ∀ w ∈ (AutoscalePool.initWorkers minWorkers maxWorkers timeout).workers, w.finished = [] := by
  rw [AutoscalePool.initWorkers]
  generalize max minWorkers maxWorkers = m
  generalize hp : (⟨[], minWorkers, m, timeout, 0, 0, 0⟩ : AutoscalePool) = p
  have hnil : p.workers = [] := by rw [← hp]
  generalize minWorkers = n
  induction n with
  | zero =>
    intro w hw
    rw [Nat.repeat, hnil] at hw
    cases hw
  | succ n ih =>
    intro w hw
    rcases AutoscalePool.mem_up hw with hw | rfl
    · exact ih w hw
    · rfl

theorem inv_init (h : dispatcher.init s) : Inv s := by
  obtain ⟨minWorkers, maxWorkers, timeout, hmin, rfl⟩ := h
  obtain ⟨hok, hzero⟩ := initWorkers_ok hmin maxWorkers timeout
  refine ⟨hok, fun w hw u hu => ?_, List.nodup_nil, hzero, fun ho => ?_, fun w hw => ?_⟩
  · rw [finished_initWorkers _ _ _ w hw] at hu
    cases hu
  · cases ho
  · cases hw

theorem inv_of_reachable (h : dispatcher.Reachable s) : Inv s :=
  h.invariant (fun _ => inv_init) fun _ _ _ _ hi hs => hi.exec hs

/-! ### Reaping -/

/-- The calls of `reap_job` for a dead worker. -/
def reapCalls (w : PoolWorker) (jobs : List ℕ) : List (ℕ × ℕ) :=
  (w.currentTask.1.map fun t => jobs.map fun j => (t.message.uuid, j)).getD []

/-- The dead worker was running its first managed task, or it has none, or no job is
registered under the uuid of that task. -/
def PoolWorker.Attributed (w : PoolWorker) (jobs : List ℕ) : Prop :=
  w.running.isSome = true ∨ w.queued = [] ∨ jobs = []

/-- A dead worker that `cleanup` comes to must be attributed; other steps are free. -/
def Attributed (s : State) : Event → Prop
  | .visit jobs => ∀ i rest orphaned w, s.phase = .scanning (i :: rest) orphaned →
      s.pool.find i = some w → w.alive = true ∨ w.Attributed jobs
  | _ => True

theorem mem_reapCalls {w : PoolWorker} (h : w.Ok) {jobs : List ℕ} {c : ℕ × ℕ} :
    c ∈ reapCalls w jobs ↔ w.held.head? = some c.1 ∧ c.2 ∈ jobs := by
  rw [reapCalls, ← h.currentTask]
  cases w.currentTask.1 with
  | none => simp
  | some t =>
    rw [Option.map_some, Option.map_some, Option.getD_some, List.mem_map, Option.some.injEq]
    constructor
    · rintro ⟨j, hj, rfl⟩
      exact ⟨rfl, hj⟩
    · rintro ⟨hu, hj⟩
      exact ⟨c.2, hj, by rw [hu]⟩

theorem inWork_of_running {w : PoolWorker} (h : w.running.isSome = true) :
    ∃ u, w.inWork = [u] ∧ w.held.head? = some u := by
  obtain ⟨m, hm⟩ := Option.isSome_iff_exists.mp h
  exact ⟨m.uuid, by simp [PoolWorker.inWork, hm], by simp [PoolWorker.held, PoolWorker.inWork, hm]⟩

theorem inWork_of_not_running {w : PoolWorker} (h : ¬ w.running.isSome = true) :
    w.inWork = [] ∧ w.held = w.queued := by
  rw [Option.not_isSome_iff_eq_none] at h
  exact ⟨by simp [PoolWorker.inWork, h], by simp [PoolWorker.held, PoolWorker.inWork, h]⟩

/-- The reaped messages are those in work, if and only if the worker is attributed. -/
theorem reapCalls_inWork_iff {w : PoolWorker} (h : w.Ok) {jobs : List ℕ} :
    (∀ c ∈ reapCalls w jobs, c.1 ∈ w.inWork) ↔ w.Attributed jobs := by
  by_cases hr : w.running.isSome = true
  · obtain ⟨u, hu, hhead⟩ := inWork_of_running hr
    refine ⟨fun _ => .inl hr, fun _ c hc => ?_⟩
    rw [mem_reapCalls h, hhead] at hc
    rw [hu, ← Option.some.inj hc.1]
    exact List.mem_singleton_self u
  · obtain ⟨hw, hheld⟩ := inWork_of_not_running hr
    simp only [mem_reapCalls h, hw, hheld, PoolWorker.Attributed, hr]
    cases w.queued with
    | nil => simp
    | cons u us =>
      cases jobs with
      | nil => simp
      | cons j js =>
        apply iff_of_false
        · exact fun hall => List.not_mem_nil (hall (u, j) ⟨rfl, List.mem_cons_self⟩)
        · simp

/-- A message that a worker holds is not in the hands of the parent and not lost. -/
theorem Inv.held_apart (h : Inv s) {w : PoolWorker} (hw : w ∈ s.pool.workers) {u : ℕ}
    (hu : u ∈ w.held) : u ∉ s.phase.hand ∧ u ∉ s.lost := by
  have hplace := h.place u
  have hone := List.nodup_iff_count_le_one.mp h.written u
  have hle := AutoscalePool.count_le_heldCount hw u
  have hpos := List.count_pos_iff.mpr hu
  constructor <;> intro hm <;> have hm := List.count_pos_iff.mpr hm <;> omega

/-- The message in work is not in the queue. -/
theorem Inv.inWork_apart (h : Inv s) {w : PoolWorker} (hw : w ∈ s.pool.workers) {u : ℕ}
    (hu : u ∈ w.inWork) : u ∉ w.queued := by
  intro hm
  have hplace := h.place u
  have hone := List.nodup_iff_count_le_one.mp h.written u
  have hle := AutoscalePool.count_le_heldCount hw u
  rw [PoolWorker.held, List.count_append] at hle
  have hu := List.count_pos_iff.mpr hu
  have hm := List.count_pos_iff.mpr hm
  omega

/-- The parent is in the loop of `cleanup` that looks at the workers. -/
def Phase.isScanning : Phase → Bool
  | .scanning .. | .checking .. => true
  | _ => false

structure ReapInv (s : State) : Prop where
  reaps : ∀ c ∈ s.reaps, c.1 ∈ s.lost
  passReaped : ∀ u ∈ s.passReaped, u ∈ s.lost
  passRequeued : s.phase.isScanning = true → ∀ u ∈ s.passRequeued, u ∈ s.phase.hand
  apart : ∀ u ∈ s.passReaped, u ∉ s.passRequeued

/-- A step outside the scan of `cleanup` changes neither list of the pass. -/
theorem ReapInv.frame (h : ReapInv s) (hr : s'.reaps = s.reaps) (hl : s'.lost = s.lost)
    (hp : s'.passReaped = s.passReaped) (hq : s'.passRequeued = s.passRequeued)
    (hscan : s'.phase.isScanning = true → s.phase.isScanning = true ∧ s'.phase.hand = s.phase.hand) :
    ReapInv s' := by
  refine ⟨hr ▸ hl ▸ h.reaps, hp ▸ hl ▸ h.passReaped, fun hsc => ?_, hp ▸ hq ▸ h.apart⟩
  obtain ⟨hs, hhand⟩ := hscan hsc
  rw [hq, hhand]
  exact h.passRequeued hs

theorem isScanning_requeue (orphaned : List Body) :
    (Phase.requeue orphaned).isScanning = false := by
  cases orphaned <;> rfl

/-- Only `cleanup` and its visits touch the bookkeeping of the pass. -/
theorem ReapInv.other (h : ReapInv s) {e : Event} (hs : exec s e = some s')
    (hc : e ≠ .cleanup) (hv : ∀ jobs, e ≠ .visit jobs) : ReapInv s' := by
  have hoff : ∀ {p q : Prop}, (Phase.idle.isScanning = true) → p ∧ q := fun h => by cases h
  cases e with
  | cleanup => exact absurd rfl hc
  | visit jobs => exact absurd rfl (hv jobs)
  | write body q =>
    simp only [exec] at hs
    split_ifs at hs
    rw [← Option.some.inj hs]
    exact h.frame rfl rfl rfl rfl hoff
  | grow order =>
    simp only [exec] at hs
    split at hs
    · split_ifs at hs
      rw [← Option.some.inj hs]
      exact h.frame rfl rfl rfl rfl hoff
    · cases hs
  | offer fresh =>
    have hdel : ∀ w body orphaned, ReapInv (deliver s w body fresh orphaned) :=
      fun w body orphaned => h.frame rfl rfl rfl rfl fun hsc => by
        rw [deliver, isScanning_requeue] at hsc
        cases hsc
    simp only [exec] at hs
    split at hs
    · split_ifs at hs
      split at hs
      · obtain ⟨w, -, hb⟩ := Option.bind_eq_some_iff.mp hs
        split_ifs at hb
        · rw [← Option.some.inj hb]
          exact h.frame rfl rfl rfl rfl hoff
        · rw [← Option.some.inj hb]
          exact hdel _ _ _
      · split at hs
        · rw [← Option.some.inj hs]
          exact hdel _ _ _
        · rw [← Option.some.inj hs]
          refine h.frame rfl rfl rfl rfl fun hsc => ?_
          rw [isScanning_requeue] at hsc
          cases hsc
    · cases hs
  | check now =>
    simp only [exec] at hs
    split at hs
    · next i rest orphaned hph =>
      obtain ⟨w, -, hb⟩ := Option.bind_eq_some_iff.mp hs
      have hscan : s.phase.isScanning = true ∧
          (Phase.scan rest orphaned).hand = s.phase.hand := by
        rw [hph, Phase.hand_scan]
        exact ⟨rfl, rfl⟩
      rw [← Option.some.inj hb, keep]
      dsimp only
      split
      · exact h.frame rfl rfl rfl rfl fun _ => hscan
      · split
        · exact h.frame rfl rfl rfl rfl fun _ => hscan
        · exact h.frame rfl rfl rfl rfl fun _ => hscan
    · cases hs
  | requeue idx =>
    simp only [exec] at hs
    split at hs
    · split_ifs at hs <;>
        · rw [← Option.some.inj hs]
          exact h.frame rfl rfl rfl rfl hoff
    · cases hs
  | take i | finish i | die i =>
    obtain ⟨w, -, hb⟩ := Option.bind_eq_some_iff.mp hs
    obtain ⟨w', -, he⟩ := Option.bind_eq_some_iff.mp hb
    rw [← Option.some.inj he]
    exact h.frame rfl rfl rfl rfl fun hsc => ⟨hsc, rfl⟩

theorem ReapInv.cleanup (h : ReapInv s) (hs : exec s .cleanup = some s') : ReapInv s' := by
  simp only [exec] at hs
  split_ifs at hs
  rw [← Option.some.inj hs]
  exact ⟨h.reaps, fun u hu => (by cases hu), fun _ u hu => (by cases hu), fun u hu => (by cases hu)⟩

/-- An attributed worker: what is reaped was in work, what is requeued was in its queue. -/
theorem ReapInv.recover (h : ReapInv s) (hi : Inv s) {w : PoolWorker} (hw : w ∈ s.pool.workers)
    (hdead : w.alive = false) {i : ℕ} {rest : List ℕ} {orphaned : List Body}
    (hph : s.phase = .scanning (i :: rest) orphaned) {jobs : List ℕ} (hatt : w.Attributed jobs) :
    ReapInv (recover s w rest orphaned jobs) := by
  have hcalls := (reapCalls_inWork_iff (hi.pool.ok w hw)).mpr hatt
  have horph : w.currentTask.2.orphanedTasks.1.filterMap Body.uuid = w.queued :=
    PoolWorker.orphanedTasks_uuids hdead
  have hreaped : ∀ u ∈ (reapCalls w jobs).map Prod.fst, u ∈ w.inWork := fun u hu => by
    obtain ⟨c, hc, rfl⟩ := List.mem_map.mp hu
    exact hcalls c hc
  have hheld : ∀ u, u ∈ w.inWork ∨ u ∈ w.queued → u ∈ w.held := fun u hu => List.mem_append.mpr hu
  have hold := h.passRequeued (by rw [hph]; rfl)
  refine ⟨fun c hc => ?_, fun u hu => ?_, fun _ u hu => ?_, fun u hu hu' => ?_⟩
  · rcases List.mem_append.mp hc with hc | hc
    · exact List.mem_append_left _ (h.reaps c hc)
    · exact List.mem_append_right _ (hcalls c hc)
  · rcases List.mem_append.mp hu with hu | hu
    · exact List.mem_append_left _ (h.passReaped u hu)
    · exact List.mem_append_right _ (hreaped u hu)
  · rw [Dispatch.recover, Phase.hand_scan, List.filterMap_append]
    rcases List.mem_append.mp hu with hu | hu
    · have hin := hold u hu
      rw [hph] at hin
      exact List.mem_append_left _ hin
    · exact List.mem_append_right _ hu
  · have hu'' : u ∈ s.passRequeued ∨ u ∈ w.queued := by
      rw [← horph]
      exact List.mem_append.mp hu'
    rcases List.mem_append.mp hu with hu | hu <;> rcases hu'' with hq | hq
    · exact h.apart u hu hq
    · exact (hi.held_apart hw (hheld u (.inr hq))).2 (h.passReaped u hu)
    · exact (hi.held_apart hw (hheld u (.inl (hreaped u hu)))).1 (hold u hq)
    · exact hi.inWork_apart hw (hreaped u hu) hq

theorem ReapInv.visit (h : ReapInv s) (hi : Inv s) {jobs : List ℕ}
    (hs : exec s (.visit jobs) = some s') (hatt : Attributed s (.visit jobs)) : ReapInv s' := by
  simp only [exec] at hs
  split at hs
  · next i rest orphaned hph =>
    obtain ⟨w, hf, hb⟩ := Option.bind_eq_some_iff.mp hs
    obtain ⟨hw, -⟩ := AutoscalePool.find_some hf
    split_ifs at hb with ha
    · rw [← Option.some.inj hb]
      refine h.frame rfl rfl rfl rfl fun _ => ?_
      rw [hph]
      exact ⟨rfl, rfl⟩
    · rw [← Option.some.inj hb]
      have hdead : w.alive = false := by simpa using ha
      exact h.recover hi hw hdead hph ((hatt i rest orphaned w hph hf).resolve_left ha)
  · cases hs

theorem reapInv_of_reachable (h : (dispatcher.restrict Attributed).Reachable s) : ReapInv s := by
  apply h.invariant
  · rintro s ⟨minWorkers, maxWorkers, timeout, -, rfl⟩
    exact ⟨fun c hc => (by cases hc), fun u hu => (by cases hu), fun hsc => (by cases hsc),
      fun u hu => (by cases hu)⟩
  · intro s e s' hr hi hs
    obtain ⟨hstep, hatt⟩ := hs
    have hinv := inv_of_reachable hr.of_restrict
    by_cases hc : e = .cleanup
    · subst hc
      exact hi.cleanup hstep
    · by_cases hv : ∃ jobs, e = .visit jobs
      · obtain ⟨jobs, rfl⟩ := hv
        exact hi.visit hinv hstep hatt
      · exact hi.other hstep hc (fun jobs he => hv ⟨jobs, he⟩)

theorem attributed_iff {i : ℕ} {rest : List ℕ} {orphaned : List Body} {w : PoolWorker}
    (hph : s.phase = .scanning (i :: rest) orphaned) (hf : s.pool.find i = some w)
    (jobs : List ℕ) : Attributed s (.visit jobs) ↔ w.alive = true ∨ w.Attributed jobs := by
  refine ⟨fun h => h i rest orphaned w hph hf, fun h i' rest' orphaned' w' hph' hf' => ?_⟩
  rw [hph] at hph'
  obtain ⟨he, -⟩ := Phase.scanning.inj hph'
  rw [← (List.cons.inj he).1, hf] at hf'
  exact Option.some.inj hf' ▸ h

theorem inHand_recover {w : PoolWorker} (hdead : w.alive = false) (rest : List ℕ)
    (orphaned : List Body) (jobs : List ℕ) (u : ℕ) :
    (recover s w rest orphaned jobs).inHand u =
      (orphaned.filterMap Body.uuid).count u + w.queued.count u := by
  have horph : w.currentTask.2.orphanedTasks.1.filterMap Body.uuid = w.queued :=
    PoolWorker.orphanedTasks_uuids hdead
  rw [State.inHand, recover]
  dsimp only
  rw [Phase.hand_scan, List.filterMap_append, horph, List.count_append]

/-- The dead worker's calls are right exactly when it is attributed. -/
theorem recover_iff (h : Inv s) {w : PoolWorker} (hw : w ∈ s.pool.workers)
    (hdead : w.alive = false) {i : ℕ} {rest : List ℕ} {orphaned : List Body}
    (hph : s.phase = .scanning (i :: rest) orphaned) (jobs : List ℕ) :
    (∀ c ∈ reapCalls w jobs, 0 < (recover s w rest orphaned jobs).died c.1 ∧
      (recover s w rest orphaned jobs).inHand c.1 = 0) ↔ w.Attributed jobs := by
  have hok := h.pool.ok w hw
  simp only [inHand_recover hdead, ← reapCalls_inWork_iff hok]
  constructor
  · intro hall c hc
    -- the current task is held, and not in the queue since that is requeued
    have hheld : c.1 ∈ w.held := List.mem_of_head? ((mem_reapCalls hok).mp hc).1
    exact (List.mem_append.mp hheld).resolve_right
      (List.count_eq_zero.mp (Nat.eq_zero_of_add_eq_zero (hall c hc).2).2)
  · intro hall c hc
    have hin := hall c hc
    have hapart := (h.held_apart hw (List.mem_append_left _ hin)).1
    rw [hph] at hapart
    have hhand : (orphaned.filterMap Body.uuid).count c.1 = 0 := List.count_eq_zero.mpr hapart
    refine ⟨?_, by rw [hhand, List.count_eq_zero.mpr (h.inWork_apart hw hin)]⟩
    have hpos := List.count_pos_iff.mpr hin
    rw [State.died, recover]
    dsimp only
    rw [List.count_append]
    omega

/-- A visit reaps only a message in work, and none that it requeues, exactly when the worker
is attributed. -/
theorem visit_iff (h : Inv s) {jobs : List ℕ} (hs : exec s (.visit jobs) = some s') :
    ∃ calls, s'.reaps = s.reaps ++ calls ∧
      ((∀ c ∈ calls, 0 < s'.died c.1 ∧ s'.inHand c.1 = 0) ↔ Attributed s (.visit jobs)) := by
  simp only [exec] at hs
  split at hs
  · next i rest orphaned hph =>
    obtain ⟨w, hf, hb⟩ := Option.bind_eq_some_iff.mp hs
    obtain ⟨hw, -⟩ := AutoscalePool.find_some hf
    rw [attributed_iff hph hf]
    split_ifs at hb with ha <;> rw [← Option.some.inj hb]
    · exact ⟨[], (List.append_nil _).symm, iff_of_true (fun c hc => (by cases hc)) (.inl ha)⟩
    · have hdead : w.alive = false := by simpa using ha
      refine ⟨reapCalls w jobs, rfl, ?_⟩
      rw [recover_iff h hw hdead hph, or_iff_right ha]
  · cases hs

/-! ### All runs -/

/-- In every run each message is in exactly one place, in the hands of the parent only inside
`write` or `cleanup`. In runs whose dead workers are attributed, what is reaped was run by
a child that died and is not requeued in the same `cleanup`. From any reachable state a
visit keeps to this exactly when its worker is attributed. -/
theorem recovery_of_attributed {s : State} (h : dispatcher.Reachable s) :
    (∀ u ∈ s.written,
      s.waiting u + s.beingRun u + s.done.count u + s.died u + s.inHand u = 1 ∧
      (s.phase = .idle → s.inHand u = 0)) ∧
    ((dispatcher.restrict Attributed).Reachable s →
      (∀ c ∈ s.reaps, 0 < s.died c.1) ∧ ∀ u ∈ s.passReaped, u ∉ s.passRequeued) ∧
    ∀ jobs s', dispatcher.step s (.visit jobs) s' → ∃ calls, s'.reaps = s.reaps ++ calls ∧
      ((∀ c ∈ calls, 0 < s'.died c.1 ∧ s'.inHand c.1 = 0) ↔ Attributed s (.visit jobs)) := by
  have hinv := inv_of_reachable h
  refine ⟨fun u hu => ⟨hinv.located hu, fun hidle => ?_⟩, fun hatt => ?_, fun jobs s' hs =>
    visit_iff hinv hs⟩
  · rw [State.inHand, hidle]
    rfl
  · have hreap := reapInv_of_reachable hatt
    refine ⟨fun c hc => ?_, hreap.apart⟩
    have hpos := List.count_pos_iff.mpr (hreap.reaps c hc)
    rw [State.died]
    omega

/-! One worker and one message, whose job is registered under its uuid. -/

def onePool : State := ⟨.initWorkers 1 1 0, .idle, [], [], [], [], [], [], [], []⟩

theorem onePool_init : dispatcher.init onePool := ⟨1, 1, 0, Nat.one_pos, rfl⟩

/-- The child dies before it takes the message, which is reaped and requeued. -/
theorem untaken_message_reaped : ¬ ∀ s, dispatcher.Reachable s →
    (∀ c ∈ s.reaps, 0 < s.died c.1) ∧ ∀ u ∈ s.passReaped, u ∉ s.passRequeued := by
  intro h
  have hrun : System.runAll exec onePool [.write ⟨some 1, "", []⟩ 0, .grow [0], .offer 0, .die 0,
      .cleanup, .visit [7]] = some _ := rfl
  have hbad := h _ (System.Reachable.runAll (fun _ _ _ _ hs => hs) (.init onePool_init) hrun)
  exact hbad.2 1 (by decide) (by decide)

/-- The child dies while it runs the message, which is reaped only. -/
theorem taken_message_reaped : ∃ s : State, (1, 7) ∈ s.reaps ∧ 0 < s.died 1 ∧ s.waiting 1 = 0 := by
  have hrun : System.runAll exec onePool [.write ⟨some 1, "", []⟩ 0, .grow [0], .offer 0, .take 0,
      .die 0, .cleanup] = some _ := rfl
  have hbefore := System.Reachable.runAll (S := dispatcher.restrict Attributed)
    (fun e he _ _ hs => ⟨hs, by revert e; simp [Attributed]⟩) (.init onePool_init) hrun
  have hafter : (dispatcher.restrict Attributed).Reachable _ :=
    .step (e := .visit [7]) hbefore ⟨rfl, (attributed_iff rfl rfl _).mpr (.inr (.inl rfl))⟩
  obtain ⟨hplaces, hreaped, -⟩ := recovery_of_attributed hafter.of_restrict
  have hplace := (hplaces 1 (by decide)).1
  have hdied := (hreaped hafter).1 (1, 7) (by decide)
  have hrest : ∀ {a b c d e : ℕ}, a + b + c + d + e = 1 → 0 < d → a = 0 := by omega
  exact ⟨_, by decide, hdied, hrest hplace hdied⟩

end Forail.Dispatch
