import Forail.Dispatch.AutoscalePool
import Mathlib.Algebra.GroupWithZero.Nat

/-! What the steps of the dispatcher keep: the workers of the pool are distinct and in order,
and every message written is counted once among those held by the workers, finished, lost
with a dead child, and in the hands of the parent. -/

namespace Forail.Dispatch

open Keyed

namespace AutoscalePool

structure Ok (p : AutoscalePool) : Prop where
  idents : (p.workers.map PoolWorker.ident).Nodup
  spawned : ∀ w ∈ p.workers, w.ident < p.spawned
  ok : ∀ w ∈ p.workers, w.Ok
  minPos : 0 < p.minWorkers
  minLe : p.minWorkers ≤ p.maxWorkers

/-- How often the workers of the pool hold a message. -/
def heldCount (p : AutoscalePool) (u : ℕ) : ℕ := (p.workers.map fun w => w.held.count u).sum

variable {p : AutoscalePool} {w w' : PoolWorker}

theorem find_some {i : ℕ} (h : p.find i = some w) : w ∈ p.workers ∧ w.ident = i :=
  Keyed.find_some h

theorem up_workers (p : AutoscalePool) :
    p.up = p ∨ (p.up.workers = p.workers ++ [.start p.spawned] ∧ p.up.spawned = p.spawned + 1 ∧
      p.up.minWorkers = p.minWorkers ∧ p.up.maxWorkers = p.maxWorkers) := by
  rw [up]
  split_ifs
  · exact .inl rfl
  · exact .inr ⟨rfl, rfl, rfl, rfl⟩

theorem Ok.up (h : p.Ok) : p.up.Ok := by
  rcases p.up_workers with he | ⟨hw, hs, hmin, hmax⟩
  · rwa [he]
  · have hlt : ∀ w ∈ p.up.workers, w.ident < p.up.spawned := fun w hm => by
      rw [hw, List.mem_append, List.mem_singleton] at hm
      rw [hs]
      rcases hm with hm | rfl
      · exact Nat.lt_succ_of_lt (h.spawned w hm)
      · exact Nat.lt_succ_self _
    refine ⟨?_, hlt, fun w hm => ?_, hmin ▸ h.minPos, hmin ▸ hmax ▸ h.minLe⟩
    · rw [hw, List.map_append, List.nodup_append]
      refine ⟨h.idents, List.nodup_singleton _, fun i hi j hj => ?_⟩
      obtain ⟨w, hm, rfl⟩ := List.mem_map.mp hi
      rw [List.mem_singleton.mp hj]
      exact Nat.ne_of_lt (h.spawned w hm)
    · rw [hw, List.mem_append, List.mem_singleton] at hm
      rcases hm with hm | rfl
      · exact h.ok w hm
      · exact PoolWorker.ok_start _

theorem mem_up (hm : w ∈ p.up.workers) : w ∈ p.workers ∨ w = .start p.spawned := by
  rcases p.up_workers with he | ⟨hw, -⟩
  · exact .inl (he ▸ hm)
  · rwa [hw, List.mem_append, List.mem_singleton] at hm

theorem heldCount_up (p : AutoscalePool) (u : ℕ) : p.up.heldCount u = p.heldCount u := by
  rcases p.up_workers with he | ⟨hw, -⟩
  · rw [he]
  · rw [heldCount, hw, List.map_append, List.sum_append]
    rfl

/-- The pool below the minimum is not full. -/
theorem Ok.up_ne_nil (h : p.Ok) (hn : p.workers.length < p.minWorkers) : p.up.workers ≠ [] := by
  have hfull : p.full = false := by
    have hlt := Nat.lt_of_lt_of_le hn h.minLe
    rw [full, beq_eq_false_iff_ne]
    omega
  simp [AutoscalePool.up, hfull]

theorem up_ne_nil (hp : p.workers ≠ []) : p.up.workers ≠ [] := by
  rcases p.up_workers with he | ⟨hw, -⟩
  · rwa [he]
  · simp [hw]

theorem shouldGrow_eq (p : AutoscalePool) : p.shouldGrow.2 = p ∨ p.shouldGrow.2 =
    { p with workers := p.workers.map PoolWorker.calculateManagedTasks } := by
  rw [shouldGrow]
  split_ifs
  · exact .inl rfl
  · exact .inr rfl

theorem Ok.shouldGrow (h : p.Ok) : p.shouldGrow.2.Ok := by
  rcases p.shouldGrow_eq with he | he <;> rw [he]
  · exact h
  · refine ⟨?_, fun w hm => ?_, fun w hm => ?_, h.minPos, h.minLe⟩
    · rw [List.map_map]
      exact h.idents
    · obtain ⟨v, hv, rfl⟩ := List.mem_map.mp hm
      exact h.spawned v hv
    · obtain ⟨v, hv, rfl⟩ := List.mem_map.mp hm
      exact (h.ok v hv).calculate

theorem heldCount_shouldGrow (p : AutoscalePool) (u : ℕ) :
    p.shouldGrow.2.heldCount u = p.heldCount u := by
  rcases p.shouldGrow_eq with he | he <;> rw [he]
  rw [heldCount, List.map_map]
  rfl

theorem Ok.grown (h : p.Ok) : p.grown.Ok := by
  rw [AutoscalePool.grown]
  split_ifs
  · exact h.shouldGrow.up
  · exact h.shouldGrow

theorem heldCount_grown (p : AutoscalePool) (u : ℕ) : p.grown.heldCount u = p.heldCount u := by
  rw [grown]
  split_ifs
  · rw [heldCount_up, heldCount_shouldGrow]
  · exact heldCount_shouldGrow p u

/-- After growing there is a worker for the message. -/
theorem Ok.grown_ne_nil (h : p.Ok) : p.grown.workers ≠ [] := by
  by_cases hn : p.workers.length < p.minWorkers
  · rw [AutoscalePool.grown, AutoscalePool.shouldGrow, if_pos hn]
    exact h.up_ne_nil hn
  · have hne : p.shouldGrow.2.workers ≠ [] := fun he => by
      rw [AutoscalePool.shouldGrow, if_neg hn] at he
      rw [List.map_eq_nil_iff.mp he] at hn
      exact hn h.minPos
    rw [AutoscalePool.grown]
    split_ifs
    · exact AutoscalePool.up_ne_nil hne
    · exact hne

theorem finished_grown {u : ℕ} (hw : w ∈ p.grown.workers) (hu : u ∈ w.finished) :
    ∃ v ∈ p.workers, u ∈ v.finished := by
  have hgrow : ∀ w ∈ p.shouldGrow.2.workers, u ∈ w.finished → ∃ v ∈ p.workers, u ∈ v.finished := by
    intro w hw hu
    rcases p.shouldGrow_eq with he | he <;> rw [he] at hw
    · exact ⟨w, hw, hu⟩
    · obtain ⟨v, -, rfl⟩ := List.mem_map.mp hw
      cases hu
  rw [grown] at hw
  split_ifs at hw
  · rcases mem_up hw with hw | rfl
    · exact hgrow w hw hu
    · cases hu
  · exact hgrow w hw hu

theorem preferred_mem {q : ℕ} (h : p.preferred q = some w) : w ∈ p.workers := by
  rw [preferred] at h
  split_ifs at h
  · exact List.mem_of_getElem? h
  · exact List.mem_of_head? h

theorem preferred_none {q : ℕ} (h : p.preferred q = none) : p.workers = [] := by
  rw [preferred] at h
  split_ifs at h with hq
  · rw [List.getElem?_eq_none_iff] at h
    omega
  · exact List.head?_eq_none_iff.mp h

theorem mem_setWorker {v : PoolWorker} (h : v ∈ (p.setWorker w').workers) :
    v = w' ∨ v ∈ p.workers := by
  obtain ⟨x, hx, rfl⟩ := mem_modify.mp h
  split_ifs
  · exact .inl rfl
  · exact .inr hx

theorem setWorker_ne_nil (hp : p.workers ≠ []) : (p.setWorker w').workers ≠ [] := by
  simpa [setWorker, Keyed.modify] using hp

theorem Ok.setWorker (h : p.Ok) (hw : w ∈ p.workers) (hok : w'.Ok) (hi : w'.ident = w.ident) :
    (p.setWorker w').Ok := by
  have hkey : (p.setWorker w').workers.map PoolWorker.ident = p.workers.map PoolWorker.ident := by
    rw [AutoscalePool.setWorker, Keyed.modify, List.map_map]
    apply List.map_congr_left
    intro x _
    rw [Function.comp_apply]
    split_ifs with hx
    · exact hx.symm
    · rfl
  refine ⟨hkey ▸ h.idents, fun v hv => ?_, fun v hv => ?_, h.minPos, h.minLe⟩
  · rcases mem_setWorker hv with rfl | hv
    · exact hi ▸ h.spawned w hw
    · exact h.spawned v hv
  · rcases mem_setWorker hv with rfl | hv
    · exact hok
    · exact h.ok v hv

theorem Ok.heldCount_setWorker (h : p.Ok) (hw : w ∈ p.workers) (w' : PoolWorker)
    (hi : w'.ident = w.ident) (u : ℕ) :
    (p.setWorker w').heldCount u + w.held.count u = p.heldCount u + w'.held.count u := by
  obtain ⟨l₁, l₂, hl, hm, -⟩ := split_of_mem h.idents hw
  rw [heldCount, heldCount, AutoscalePool.setWorker, hi, hm, hl]
  simp only [List.map_append, List.map_cons, List.sum_append, List.sum_cons]
  omega

theorem Ok.removeWorker (h : p.Ok) (i : ℕ) : (p.removeWorker i).Ok where
  idents := nodup_remove h.idents i
  spawned w hw := h.spawned w (mem_remove.mp hw).1
  ok w hw := h.ok w (mem_remove.mp hw).1
  minPos := h.minPos
  minLe := h.minLe

theorem Ok.heldCount_removeWorker (h : p.Ok) (hw : w ∈ p.workers) (u : ℕ) :
    (p.removeWorker w.ident).heldCount u + w.held.count u = p.heldCount u := by
  obtain ⟨l₁, l₂, hl, -, hr⟩ := split_of_mem h.idents hw
  rw [heldCount, heldCount, AutoscalePool.removeWorker, hr, hl]
  simp only [List.map_append, List.map_cons, List.sum_append, List.sum_cons]
  omega

theorem count_le_heldCount (hw : w ∈ p.workers) (u : ℕ) : w.held.count u ≤ p.heldCount u := by
  obtain ⟨l₁, l₂, hl⟩ := List.append_of_mem hw
  rw [heldCount, hl]
  simp only [List.map_append, List.map_cons, List.sum_append, List.sum_cons]
  omega

end AutoscalePool

@[simp] theorem Phase.hand_requeue (orphaned : List Body) :
    (Phase.requeue orphaned).hand = orphaned.filterMap Body.uuid := by
  cases orphaned <;> rfl

@[simp] theorem Phase.hand_scan (rest : List ℕ) (orphaned : List Body) :
    (Phase.scan rest orphaned).hand = orphaned.filterMap Body.uuid := by
  cases rest with
  | nil => exact hand_requeue orphaned
  | cons i rest => rfl

/-- The parent is in the loop of `write`. -/
def Phase.isOffering : Phase → Bool
  | .offering .. => true
  | _ => false

theorem Phase.isOffering_scan (rest : List ℕ) (orphaned : List Body) :
    (Phase.scan rest orphaned).isOffering = false := by
  cases rest <;> cases orphaned <;> rfl

structure Inv (s : State) : Prop where
  pool : s.pool.Ok
  finished : ∀ w ∈ s.pool.workers, ∀ u ∈ w.finished, u ∈ s.done
  written : s.written.Nodup
  place : ∀ u, s.pool.heldCount u + s.done.count u + s.lost.count u + s.phase.hand.count u =
    s.written.count u
  offering : s.phase.isOffering = true → s.pool.workers ≠ []
  retired : ∀ w ∈ s.retired, w.held = []

variable {s s' : State}

/-! ### Steps of the parent -/

theorem Inv.setPhase (h : Inv s) {phase : Phase} (hhand : phase.hand = s.phase.hand)
    (hoff : phase.isOffering = true → s.pool.workers ≠ []) : Inv { s with phase := phase } :=
  ⟨h.pool, h.finished, h.written, fun u => hhand ▸ h.place u, hoff, h.retired⟩

/-- A worker's record changes, but neither what it holds nor what it reported. -/
theorem Inv.setWorker (h : Inv s) {w w' : PoolWorker} (hw : w ∈ s.pool.workers)
    (hok : w'.Ok) (hi : w'.ident = w.ident) (hheld : w'.held = w.held)
    (hfin : ∀ u ∈ w'.finished, u ∈ w.finished) : Inv { s with pool := s.pool.setWorker w' } where
  pool := h.pool.setWorker hw hok hi
  finished v hv u hu := by
    rcases AutoscalePool.mem_setWorker hv with rfl | hv
    · exact h.finished w hw u (hfin u hu)
    · exact h.finished v hv u hu
  written := h.written
  place u := by
    have hset := h.pool.heldCount_setWorker hw w' hi u
    have hplace := h.place u
    rw [hheld] at hset
    dsimp only
    omega
  offering ho := AutoscalePool.setWorker_ne_nil (h.offering ho)
  retired := h.retired

theorem Inv.write (h : Inv s) {body : Body} {q : ℕ} (hs : exec s (.write body q) = some s') :
    Inv s' := by
  simp only [exec] at hs
  split_ifs at hs with hc
  obtain ⟨hidle, hnew⟩ := hc
  rw [← Option.some.inj hs]
  refine ⟨h.pool, h.finished, ?_, fun u => ?_, fun ho => ?_, h.retired⟩
  · rw [List.nodup_append]
    refine ⟨h.written, by cases body.uuid <;> simp, fun u hu v hv he => ?_⟩
    exact hnew v (by simpa using hv) (he ▸ hu)
  · have hplace := h.place u
    rw [hidle] at hplace
    simp only [Phase.hand, List.count_append, List.filterMap_nil, List.count_nil] at hplace ⊢
    omega
  · cases ho

theorem Inv.grow (h : Inv s) {order : List ℕ} (hs : exec s (.grow order) = some s') : Inv s' := by
  simp only [exec] at hs
  split at hs
  · next body q orphaned hph =>
    split_ifs at hs
    rw [← Option.some.inj hs]
    refine ⟨h.pool.grown, fun w hw u hu => ?_, h.written, fun u => ?_, fun _ => h.pool.grown_ne_nil,
      h.retired⟩
    · obtain ⟨v, hv, hsub⟩ := AutoscalePool.finished_grown hw hu
      exact h.finished v hv u hsub
    · have hplace := h.place u
      rw [hph, ← AutoscalePool.heldCount_grown] at hplace
      exact hplace
  · cases hs

/-- `put` moves the message of `write` from the hand to the worker. -/
theorem Inv.deliver (h : Inv s) {body : Body} {q : ℕ} {order : List ℕ} {orphaned : List Body}
    (hph : s.phase = .offering body q order orphaned) {fresh : ℕ}
    (hfresh : ¬ (body.uuid = none ∧ fresh ∈ s.written)) {w w' : PoolWorker}
    (hw : w ∈ s.pool.workers) (hok : w'.Ok) (hi : w'.ident = w.ident) (hheld : w'.held = w.held)
    (hfin : ∀ u ∈ w'.finished, u ∈ w.finished) : Inv (deliver s w' body fresh orphaned) := by
  have hone := fun u => List.nodup_iff_count_le_one.mp h.written u
  have hplace := h.place
  rw [hph] at hplace
  simp only [Phase.hand, List.count_append] at hplace
  -- the uuid is in the hand, or in no place at all
  have hnone : s.pool.heldCount (body.stamp fresh).uuid = 0 ∧
      s.done.count (body.stamp fresh).uuid = 0 := by
    have hp := hplace (body.stamp fresh).uuid
    have h1 := hone (body.stamp fresh).uuid
    cases hu : body.uuid with
    | some v =>
      simp only [Body.stamp, hu, Option.getD_some, Option.toList_some, List.count_singleton_self]
        at hp h1 ⊢
      omega
    | none =>
      have h0 := List.count_eq_zero.mpr fun hm => hfresh ⟨hu, hm⟩
      simp only [Body.stamp, hu, Option.getD_none] at hp ⊢
      omega
  have hwritten : ∀ u, [(body.stamp fresh).uuid].count u + s.written.count u =
      body.uuid.toList.count u +
        (if body.uuid = none then s.written ++ [fresh] else s.written).count u := fun u => by
    cases hu : body.uuid with
    | some v => simp [Body.stamp, hu]
    | none =>
      rw [if_pos rfl, List.count_append]
      simp only [Body.stamp, hu, Option.getD_none, Option.toList_none, List.count_nil]
      omega
  have hheld0 : (body.stamp fresh).uuid ∉ w'.held := by
    have hle := AutoscalePool.count_le_heldCount hw (body.stamp fresh).uuid
    rw [hnone.1] at hle
    rw [hheld]
    exact List.count_eq_zero.mp (Nat.le_zero.mp hle)
  have hdone0 : (body.stamp fresh).uuid ∉ w'.finished := fun hm =>
    List.count_eq_zero.mp hnone.2 (h.finished w hw _ (hfin _ hm))
  refine ⟨h.pool.setWorker hw (hok.put hdone0 hheld0) hi, fun v hv u hu => ?_, ?_, fun u => ?_,
    fun ho => ?_, h.retired⟩
  · rcases AutoscalePool.mem_setWorker hv with rfl | hv
    · cases hu
    · exact h.finished v hv u hu
  · show (if body.uuid = none then s.written ++ [fresh] else s.written).Nodup
    split_ifs with hu
    · exact List.nodup_append.mpr ⟨h.written, List.nodup_singleton _, fun a ha b hb hab =>
        hfresh ⟨hu, List.mem_singleton.mp hb ▸ hab ▸ ha⟩⟩
    · exact h.written
  · have hset := h.pool.heldCount_setWorker hw (w'.put (body.stamp fresh)) hi u
    rw [PoolWorker.held_put, hheld, List.count_append] at hset
    have hp := hplace u
    have hwr := hwritten u
    simp only [Dispatch.deliver, Phase.hand_requeue]
    omega
  · have hoff : ∀ l, (Phase.requeue l).isOffering = false := fun l => Phase.isOffering_scan [] l
    rw [Dispatch.deliver, hoff] at ho
    cases ho

theorem Inv.offer (h : Inv s) {fresh : ℕ} (hs : exec s (.offer fresh) = some s') : Inv s' := by
  simp only [exec] at hs
  split at hs
  · next body q order orphaned hph =>
    split_ifs at hs with hfresh
    split at hs
    · next i order =>
      obtain ⟨w, hf, hb⟩ := Option.bind_eq_some_iff.mp hs
      obtain ⟨hw, -⟩ := AutoscalePool.find_some hf
      have hok := (h.pool.ok w hw).calculate
      split_ifs at hb
      · rw [← Option.some.inj hb]
        have hset := h.setWorker hw hok rfl rfl (fun u hu => by cases hu)
        apply hset.setPhase
        · rw [hph]
          rfl
        · exact fun _ => hset.offering (by rw [hph]; rfl)
      · rw [← Option.some.inj hb]
        exact h.deliver hph hfresh hw hok rfl rfl (fun u hu => by cases hu)
    · split at hs
      · next w hpref =>
        have hw : w ∈ s.pool.workers := AutoscalePool.preferred_mem hpref
        rw [← Option.some.inj hs]
        exact h.deliver hph hfresh hw (h.pool.ok w hw) rfl rfl (fun u hu => hu)
      · next hpref =>
        have hne := h.offering (by rw [hph]; rfl)
        exact absurd (AutoscalePool.preferred_none hpref) hne
  · cases hs

theorem Inv.cleanup (h : Inv s) (hs : exec s .cleanup = some s') : Inv s' := by
  simp only [exec] at hs
  split_ifs at hs with hidle
  rw [← Option.some.inj hs]
  refine ⟨h.pool, h.finished, h.written, fun u => ?_, fun ho => ?_, h.retired⟩
  · have hplace := h.place u
    rw [hidle] at hplace
    rw [Phase.hand_scan]
    exact hplace
  · rw [Phase.isOffering_scan] at ho
    cases ho

/-- The messages of the dead worker go to the hand, the one in work is lost. -/
theorem Inv.recover (h : Inv s) {w : PoolWorker} (hw : w ∈ s.pool.workers)
    (hdead : w.alive = false) {rest : List ℕ} {orphaned : List Body}
    (hhand : s.phase.hand = orphaned.filterMap Body.uuid) (jobs : List ℕ) :
    Inv (recover s w rest orphaned jobs) where
  pool := h.pool.removeWorker w.ident
  finished v hv := h.finished v (mem_remove.mp hv).1
  written := h.written
  place u := by
    have hplace := h.place u
    have hrem := h.pool.heldCount_removeWorker hw u
    have horph : w.currentTask.2.orphanedTasks.1.filterMap Body.uuid = w.queued :=
      PoolWorker.orphanedTasks_uuids hdead
    rw [PoolWorker.held, List.count_append] at hrem
    rw [hhand] at hplace
    simp only [Dispatch.recover, Phase.hand_scan, List.filterMap_append, horph, List.count_append]
    omega
  offering ho := by
    rw [Dispatch.recover, Phase.isOffering_scan] at ho
    cases ho
  retired := h.retired

theorem Inv.visit (h : Inv s) {jobs : List ℕ} (hs : exec s (.visit jobs) = some s') : Inv s' := by
  simp only [exec] at hs
  split at hs
  · next i rest orphaned hph =>
    obtain ⟨w, hf, hb⟩ := Option.bind_eq_some_iff.mp hs
    obtain ⟨hw, -⟩ := AutoscalePool.find_some hf
    split_ifs at hb with ha
    · rw [← Option.some.inj hb]
      apply h.setPhase
      · rw [hph]
        rfl
      · exact fun ho => by cases ho
    · rw [← Option.some.inj hb]
      exact h.recover hw (by simpa using ha) (by rw [hph]; rfl) jobs
  · cases hs

/-- A worker that is retired or whose timeout is checked keeps its messages; a retired one
has none. -/
theorem Inv.keep (h : Inv s) {w : PoolWorker} (hw : w ∈ s.pool.workers) {rest : List ℕ}
    {orphaned : List Body} (hhand : s.phase.hand = orphaned.filterMap Body.uuid) (now : ℤ) :
    Inv (keep s w rest orphaned now) := by
  have hok := h.pool.ok w hw
  have hphase : ∀ {s : State}, Inv s → s.phase.hand = orphaned.filterMap Body.uuid →
      Inv { s with phase := .scan rest orphaned } := fun h hhand => by
    apply h.setPhase
    · rw [Phase.hand_scan, hhand]
    · rw [Phase.isOffering_scan]
      exact fun ho => by cases ho
  rw [Dispatch.keep]
  dsimp only
  split
  next hidle =>
    have hnil : w.held = [] := by
      rw [hok.busy] at hidle
      simpa using (Bool.and_eq_true_iff.mp hidle).1
    have hp := hphase h hhand
    refine ⟨h.pool.removeWorker w.ident, fun v hv => h.finished v (mem_remove.mp hv).1, h.written,
      fun u => ?_, fun ho => ?_, fun v hv => ?_⟩
    · have hplace := hp.place u
      have hrem := h.pool.heldCount_removeWorker hw u
      rw [hnil, List.count_nil, Nat.add_zero] at hrem
      rw [hrem]
      exact hplace
    · rw [Phase.isOffering_scan] at ho
      cases ho
    · rcases List.mem_append.mp hv with hv | hv
      · exact h.retired v hv
      · rw [List.mem_singleton.mp hv]
        simpa [PoolWorker.held, PoolWorker.inWork, PoolWorker.queued, PoolWorker.quit,
          PoolWorker.busy, PoolWorker.calculateManagedTasks, Item.message?] using hnil
  split
  · obtain ⟨hi, hheld, hfin⟩ :=
      w.calculateManagedTasks.checkTimeout_frame s.pool.taskManagerTimeout now
    have hset := h.setWorker hw (hok.calculate.checkTimeout s.pool.taskManagerTimeout now) hi hheld
      (fun u hu => by rw [hfin] at hu; cases hu)
    have hp := hphase hset hhand
    exact ⟨hp.pool, hp.finished, hp.written, hp.place, hp.offering, hp.retired⟩
  · have hset := h.setWorker hw hok.calculate rfl rfl (fun u hu => by cases hu)
    exact hphase hset hhand

theorem Inv.check (h : Inv s) {now : ℤ} (hs : exec s (.check now) = some s') : Inv s' := by
  simp only [exec] at hs
  split at hs
  · next i rest orphaned hph =>
    obtain ⟨w, hf, hb⟩ := Option.bind_eq_some_iff.mp hs
    obtain ⟨hw, -⟩ := AutoscalePool.find_some hf
    rw [← Option.some.inj hb]
    exact h.keep hw (by rw [hph]; rfl) now
  · cases hs

theorem Inv.requeue (h : Inv s) {idx : ℕ} (hs : exec s (.requeue idx) = some s') : Inv s' := by
  simp only [exec] at hs
  split at hs
  · next body orphaned hph =>
    have hspawn : Inv { s with pool := if s.pool.workers.isEmpty then s.pool.up else s.pool } := by
      split_ifs
      · refine ⟨h.pool.up, fun w hw u hu => ?_, h.written, fun u => ?_, fun ho => ?_, h.retired⟩
        · rcases AutoscalePool.mem_up hw with hw | rfl
          · exact h.finished w hw u hu
          · cases hu
        · rw [AutoscalePool.heldCount_up]
          exact h.place u
        · exact AutoscalePool.up_ne_nil (h.offering ho)
      · exact h
    generalize (if s.pool.workers.isEmpty = true then s.pool.up else s.pool) = pool at hs hspawn
    split_ifs at hs
    rw [← Option.some.inj hs]
    apply hspawn.setPhase
    · rw [hph]
      cases hu : body.uuid <;> simp [Phase.hand, hu]
    · exact fun ho => by cases ho
  · cases hs

/-! ### Steps of a child -/

theorem Inv.take (h : Inv s) {i : ℕ} (hs : exec s (.take i) = some s') : Inv s' := by
  obtain ⟨w, hf, hb⟩ := Option.bind_eq_some_iff.mp hs
  obtain ⟨w', ht, he⟩ := Option.bind_eq_some_iff.mp hb
  obtain ⟨hw, -⟩ := AutoscalePool.find_some hf
  obtain ⟨-, hheld, r, q, a, hw'⟩ := PoolWorker.take_eq ht
  rw [← Option.some.inj he]
  exact h.setWorker hw ((h.pool.ok w hw).take ht) (hw' ▸ rfl) hheld (fun u hu => by rwa [hw'] at hu)

theorem Inv.die (h : Inv s) {i : ℕ} (hs : exec s (.die i) = some s') : Inv s' := by
  obtain ⟨w, hf, hb⟩ := Option.bind_eq_some_iff.mp hs
  obtain ⟨w', hd, he⟩ := Option.bind_eq_some_iff.mp hb
  obtain ⟨hw, -⟩ := AutoscalePool.find_some hf
  rw [← Option.some.inj he]
  have hw' := PoolWorker.die_eq hd
  exact h.setWorker hw ((h.pool.ok w hw).die hd) (hw' ▸ rfl) (hw' ▸ rfl) (fun u hu => by rwa [hw'] at hu)

theorem Inv.finish (h : Inv s) {i : ℕ} (hs : exec s (.finish i) = some s') : Inv s' := by
  obtain ⟨w, hf, hb⟩ := Option.bind_eq_some_iff.mp hs
  obtain ⟨⟨u, w'⟩, hd, he⟩ := Option.bind_eq_some_iff.mp hb
  obtain ⟨hw, -⟩ := AutoscalePool.find_some hf
  obtain ⟨hheld, hw'⟩ := PoolWorker.finish_eq hd
  have hi : w'.ident = w.ident := hw' ▸ rfl
  rw [← Option.some.inj he]
  refine ⟨h.pool.setWorker hw ((h.pool.ok w hw).finish hd) hi, fun v hv x hx => ?_, h.written,
    fun x => ?_, fun ho => AutoscalePool.setWorker_ne_nil (h.offering ho), h.retired⟩
  · rcases AutoscalePool.mem_setWorker hv with rfl | hv
    · rw [hw'] at hx
      exact (List.mem_append.mp hx).elim (fun hx => List.mem_append_left _ (h.finished w hw x hx))
        (List.mem_append_right _)
    · exact List.mem_append_left _ (h.finished v hv x hx)
  · have hset := h.pool.heldCount_setWorker hw w' hi x
    have hplace := h.place x
    rw [hheld, List.count_cons] at hset
    simp only [List.count_append, List.count_singleton]
    omega

theorem Inv.exec (h : Inv s) {e : Event} (hs : exec s e = some s') : Inv s' := by
  cases e with
  | write body q => exact h.write hs
  | grow order => exact h.grow hs
  | offer fresh => exact h.offer hs
  | cleanup => exact h.cleanup hs
  | visit jobs => exact h.visit hs
  | check now => exact h.check hs
  | requeue idx => exact h.requeue hs
  | take i => exact h.take hs
  | finish i => exact h.finish hs
  | die i => exact h.die hs

end Forail.Dispatch
