import Forail.Dispatch.PoolInvariant

/-! What a step of the dispatcher does to the single workers. Those of the new pool were there
before or are new; only `put` gives a worker a message, only `take` starts one, and a message in
work stays so until it is finished or its dead worker is cleaned up. -/

namespace Forail.Dispatch

open Keyed

/-- A worker before and after a step. -/
structure WorkerStep (e : Event) (w w' : PoolWorker) : Prop where
  ident : w'.ident = w.ident
  alive : w'.alive = true → w.alive = true
  held : ∀ u ∈ w'.held, u ∈ w.held ∨ ∃ fresh, e = .offer fresh
  inWork : ∀ u ∈ w'.inWork, u ∈ w.inWork ∨ e = .take w.ident ∧ w'.alive = true

/-- What a step keeps of the workers. -/
structure WorkerSteps (e : Event) (s s' : State) : Prop where
  done : ∀ u ∈ s.done, u ∈ s'.done
  lost : ∀ u ∈ s.lost, u ∈ s'.lost
  back : ∀ w' ∈ s'.pool.workers,
    (∃ w ∈ s.pool.workers, WorkerStep e w w') ∨ w' = .start s.pool.spawned
  inWork : ∀ w ∈ s.pool.workers, ∀ u ∈ w.inWork, u ∈ s'.done ∨ u ∈ s'.lost ∨
    ∃ w' ∈ s'.pool.workers, u ∈ w'.inWork ∧ (w.alive = false → w'.alive = false)
  spawned : s.pool.spawned ≤ s'.pool.spawned
  idents : (s'.pool.workers.map PoolWorker.ident).Sublist
    (s.pool.workers.map PoolWorker.ident ++
      if s.pool.spawned < s'.pool.spawned then [s.pool.spawned] else [])

variable {e : Event} {s s' : State}

theorem WorkerStep.refl (e : Event) (w : PoolWorker) : WorkerStep e w w :=
  ⟨rfl, id, fun _ h => .inl h, fun _ h => .inl h⟩

/-- The parent looks at the finished messages of a worker. -/
theorem workerStep_of_eq {w w' : PoolWorker} (hi : w'.ident = w.ident) (ha : w'.alive = w.alive)
    (hr : w'.running = w.running) (hq : w'.queue = w.queue) : WorkerStep e w w' := by
  have hwork : w'.inWork = w.inWork := by rw [PoolWorker.inWork, hr, PoolWorker.inWork]
  have hheld : w'.held = w.held := by
    rw [PoolWorker.held, hwork, PoolWorker.queued, hq, PoolWorker.held, PoolWorker.queued]
  exact ⟨hi, fun h => ha ▸ h, fun u hu => .inl (hheld ▸ hu), fun u hu => .inl (hwork ▸ hu)⟩

/-- All workers stay, and a new one may come. -/
theorem WorkerSteps.map (f : PoolWorker → PoolWorker) (hf : ∀ w, WorkerStep e w (f w))
    (hwork : ∀ w, (f w).inWork = w.inWork ∧ (f w).alive = w.alive)
    (hp : s'.pool.workers = s.pool.workers.map f ∧ s'.pool.spawned = s.pool.spawned ∨
      s'.pool.workers = s.pool.workers.map f ++ [.start s.pool.spawned] ∧
        s'.pool.spawned = s.pool.spawned + 1)
    (hd : s'.done = s.done) (hl : s'.lost = s.lost) : WorkerSteps e s s' := by
  have hidents : (s.pool.workers.map f).map PoolWorker.ident = s.pool.workers.map PoolWorker.ident := by
    rw [List.map_map]
    exact List.map_congr_left fun w _ => (hf w).ident
  have hmem : ∀ w ∈ s.pool.workers, f w ∈ s'.pool.workers := by
    intro w hw
    rcases hp with ⟨hworkers, -⟩ | ⟨hworkers, -⟩
    · exact hworkers ▸ List.mem_map_of_mem hw
    · exact hworkers ▸ List.mem_append_left _ (List.mem_map_of_mem hw)
  have hold : ∀ w' ∈ s.pool.workers.map f, ∃ w ∈ s.pool.workers, WorkerStep e w w' := by
    intro w' hw'
    obtain ⟨w, hw, rfl⟩ := List.mem_map.mp hw'
    exact ⟨w, hw, hf w⟩
  refine ⟨fun u hu => hd ▸ hu, fun u hu => hl ▸ hu, fun w' hw' => ?_, fun w hw u hu =>
    .inr (.inr ⟨f w, hmem w hw, (hwork w).1 ▸ hu, fun ha => (hwork w).2.trans ha⟩), ?_, ?_⟩
  · rcases hp with ⟨hworkers, -⟩ | ⟨hworkers, -⟩ <;> rw [hworkers] at hw'
    · exact .inl (hold w' hw')
    · rw [List.mem_append, List.mem_singleton] at hw'
      exact hw'.imp_left (hold w')
  · rcases hp with ⟨-, hspawned⟩ | ⟨-, hspawned⟩ <;> omega
  · rcases hp with ⟨hworkers, -⟩ | ⟨hworkers, hspawned⟩ <;> rw [hworkers]
    · rw [hidents]
      exact List.sublist_append_left _ _
    · rw [List.map_append, hidents, hspawned, if_pos (Nat.lt_succ_self _)]
      exact List.Sublist.refl _

/-- The workers of the pool do not change. -/
theorem WorkerSteps.of_eq (hp : s'.pool = s.pool) (hd : s'.done = s.done) (hl : s'.lost = s.lost) :
    WorkerSteps e s s' :=
  .map id (fun w => .refl e w) (fun _ => ⟨rfl, rfl⟩) (.inl ⟨by rw [hp, List.map_id], by rw [hp]⟩) hd hl

theorem keys_setWorker {p : AutoscalePool} (w : PoolWorker) :
    (p.setWorker w).workers.map PoolWorker.ident = p.workers.map PoolWorker.ident := by
  rw [AutoscalePool.setWorker, Keyed.modify, List.map_map]
  refine List.map_congr_left fun x _ => ?_
  rw [Function.comp_apply]
  split_ifs with hx
  · exact hx.symm
  · rfl

/-- One worker changes. -/
theorem WorkerSteps.setWorker (h : Inv s) {w w' : PoolWorker} (hw : w ∈ s.pool.workers)
    (hp : s'.pool = s.pool.setWorker w') (hstep : WorkerStep e w w')
    (hd : ∀ u ∈ s.done, u ∈ s'.done) (hl : s'.lost = s.lost)
    (hwork : ∀ u ∈ w.inWork, u ∈ s'.done ∨ u ∈ w'.inWork ∧ (w.alive = false → w'.alive = false)) :
    WorkerSteps e s s' := by
  have hself : w' ∈ s'.pool.workers := by
    rw [hp]
    exact mem_modify.mpr ⟨w, hw, (if_pos hstep.ident.symm).symm⟩
  refine ⟨hd, fun u hu => hl ▸ hu, fun v hv => ?_, fun v hv u hu => ?_, hp ▸ Nat.le_refl _, ?_⟩
  · rw [hp] at hv
    rcases AutoscalePool.mem_setWorker hv with rfl | hv
    · exact .inl ⟨w, hw, hstep⟩
    · exact .inl ⟨v, hv, .refl e v⟩
  · by_cases hi : v.ident = w'.ident
    · obtain rfl := eq_of_key h.pool.idents hv hw (hi.trans hstep.ident)
      rcases hwork u hu with hdone | ⟨hu, halive⟩
      · exact .inl hdone
      · exact .inr (.inr ⟨w', hself, hu, halive⟩)
    · refine .inr (.inr ⟨v, ?_, hu, id⟩)
      rw [hp]
      exact mem_modify.mpr ⟨v, hv, (if_neg hi).symm⟩
  · rw [hp, keys_setWorker]
    exact List.sublist_append_left _ _

/-- One worker is removed, with its message in work in `lost`. -/
theorem WorkerSteps.removeWorker (h : Inv s) {w : PoolWorker} (hw : w ∈ s.pool.workers)
    (hp : s'.pool = s.pool.removeWorker w.ident) (hd : s'.done = s.done)
    (hl : ∀ u ∈ s.lost, u ∈ s'.lost) (hwork : ∀ u ∈ w.inWork, u ∈ s'.lost) : WorkerSteps e s s' := by
  refine ⟨fun u hu => hd ▸ hu, hl, fun v hv => ?_, fun v hv u hu => ?_, hp ▸ Nat.le_refl _, ?_⟩
  · rw [hp] at hv
    exact .inl ⟨v, (mem_remove.mp hv).1, .refl e v⟩
  · by_cases hi : v.ident = w.ident
    · obtain rfl := eq_of_key h.pool.idents hv hw hi
      exact .inr (.inl (hwork u hu))
    · refine .inr (.inr ⟨v, ?_, hu, id⟩)
      rw [hp]
      exact mem_remove.mpr ⟨hv, hi⟩
  · rw [hp]
    exact (List.filter_sublist.map _).trans (List.sublist_append_left _ _)

theorem WorkerSteps.up (hp : s'.pool = s.pool.up) (hd : s'.done = s.done) (hl : s'.lost = s.lost) :
    WorkerSteps e s s' := by
  rcases s.pool.up_workers with he | ⟨hworkers, hspawned, -⟩
  · exact .of_eq (hp.trans he) hd hl
  · refine .map id (fun w => .refl e w) (fun _ => ⟨rfl, rfl⟩) (.inr ⟨?_, hp ▸ hspawned⟩) hd hl
    rw [hp, hworkers, List.map_id]

theorem WorkerSteps.grown (hp : s'.pool = s.pool.grown) (hd : s'.done = s.done)
    (hl : s'.lost = s.lost) : WorkerSteps e s s' := by
  have hup (p : AutoscalePool) : (p.up.workers = p.workers ∧ p.up.spawned = p.spawned) ∨
      p.up.workers = p.workers ++ [.start p.spawned] ∧ p.up.spawned = p.spawned + 1 := by
    rcases p.up_workers with he | ⟨hworkers, hspawned, -⟩
    · rw [he]
      exact .inl ⟨rfl, rfl⟩
    · exact .inr ⟨hworkers, hspawned⟩
  have hgrown : s.pool.grown = s.pool.shouldGrow.2 ∨ s.pool.grown = s.pool.shouldGrow.2.up := by
    rw [AutoscalePool.grown]
    split_ifs
    · exact .inr rfl
    · exact .inl rfl
  obtain ⟨f, hf, hworkers, hspawned⟩ : ∃ f : PoolWorker → PoolWorker,
      (∀ w, f w = w ∨ f w = w.calculateManagedTasks) ∧
      s.pool.shouldGrow.2.workers = s.pool.workers.map f ∧
      s.pool.shouldGrow.2.spawned = s.pool.spawned := by
    rcases s.pool.shouldGrow_eq with he | he <;> rw [he]
    · exact ⟨id, fun _ => .inl rfl, (List.map_id _).symm, rfl⟩
    · exact ⟨PoolWorker.calculateManagedTasks, fun _ => .inr rfl, rfl, rfl⟩
  refine .map f (fun w => ?_) (fun w => ?_) ?_ hd hl
  · rcases hf w with h | h <;> rw [h]
    · exact .refl e w
    · exact workerStep_of_eq rfl rfl rfl rfl
  · rcases hf w with h | h <;> rw [h] <;> exact ⟨rfl, rfl⟩
  · rw [hp, ← hworkers, ← hspawned]
    rcases hgrown with h | h <;> rw [h]
    · exact .inl ⟨rfl, rfl⟩
    · exact hup _

/-! ### The steps -/

theorem WorkerSteps.offer (h : Inv s) {fresh : ℕ} (hs : exec s (.offer fresh) = some s') :
    WorkerSteps (.offer fresh) s s' := by
  have hput : ∀ {w w' : PoolWorker} (body : Body) (orphaned : List Body), w ∈ s.pool.workers →
      w'.ident = w.ident → w'.alive = w.alive → w'.running = w.running →
      WorkerSteps (.offer fresh) s (deliver s w' body fresh orphaned) := by
    intro w w' body orphaned hw hi ha hr
    have hwork : (w'.put (body.stamp fresh)).inWork = w.inWork := by
      rw [PoolWorker.inWork, PoolWorker.inWork, ← hr]
      rfl
    refine .setWorker h hw rfl ⟨hi, fun halive => ha ▸ halive, fun u _ => .inr ⟨fresh, rfl⟩,
      fun u hu => .inl (hwork ▸ hu)⟩ (fun u hu => hu) rfl fun u hu => .inr ⟨hwork ▸ hu, ?_⟩
    exact fun halive => ha.trans halive
  simp only [exec] at hs
  split at hs
  · split_ifs at hs
    split at hs
    · obtain ⟨w, hf, hb⟩ := Option.bind_eq_some_iff.mp hs
      obtain ⟨hw, -⟩ := AutoscalePool.find_some hf
      split_ifs at hb
      · rw [← Option.some.inj hb]
        exact .setWorker h hw rfl (workerStep_of_eq rfl rfl rfl rfl) (fun u hu => hu) rfl
          fun u hu => .inr ⟨hu, id⟩
      · rw [← Option.some.inj hb]
        exact hput _ _ hw rfl rfl rfl
    · split at hs
      · next w hpref =>
        rw [← Option.some.inj hs]
        exact hput _ _ (AutoscalePool.preferred_mem hpref) rfl rfl rfl
      · rw [← Option.some.inj hs]
        exact .of_eq rfl rfl rfl
  · cases hs

theorem WorkerSteps.visit (h : Inv s) {jobs : List ℕ} (hs : exec s (.visit jobs) = some s') :
    WorkerSteps (.visit jobs) s s' := by
  simp only [exec] at hs
  split at hs
  · obtain ⟨w, hf, hb⟩ := Option.bind_eq_some_iff.mp hs
    obtain ⟨hw, -⟩ := AutoscalePool.find_some hf
    split_ifs at hb
    · rw [← Option.some.inj hb]
      exact .of_eq rfl rfl rfl
    · rw [← Option.some.inj hb]
      exact .removeWorker h hw rfl rfl (fun u hu => List.mem_append_left _ hu)
        fun u hu => List.mem_append_right _ hu
  · cases hs

theorem checkTimeout_child (w : PoolWorker) (timeout now : ℤ) :
    (w.checkTimeout timeout now).2.ident = w.ident ∧ (w.checkTimeout timeout now).2.alive = w.alive ∧
      (w.checkTimeout timeout now).2.running = w.running ∧
      (w.checkTimeout timeout now).2.queue = w.queue := by
  unfold PoolWorker.checkTimeout
  cases hcur : w.currentTask with
  | mk current w' =>
    have hw' : w' = w.calculateManagedTasks := congrArg Prod.snd hcur.symm
    subst hw'
    cases current with
    | none => exact ⟨rfl, rfl, rfl, rfl⟩
    | some t =>
      dsimp only
      split_ifs <;> exact ⟨rfl, rfl, rfl, rfl⟩

theorem WorkerSteps.check (h : Inv s) {now : ℤ} (hs : exec s (.check now) = some s') :
    WorkerSteps (.check now) s s' := by
  simp only [exec] at hs
  split at hs
  · obtain ⟨w, hf, hb⟩ := Option.bind_eq_some_iff.mp hs
    obtain ⟨hw, -⟩ := AutoscalePool.find_some hf
    rw [← Option.some.inj hb, keep]
    dsimp only
    split
    next hidle =>
      have hnil : w.held = [] := by
        rw [(h.pool.ok w hw).busy] at hidle
        simpa using (Bool.and_eq_true_iff.mp hidle).1
      refine .removeWorker h hw rfl rfl (fun u hu => hu) fun u hu => ?_
      have hheld : u ∈ w.held := List.mem_append_left _ hu
      rw [hnil] at hheld
      cases hheld
    split
    · obtain ⟨hi, ha, hr, hq⟩ := checkTimeout_child w.calculateManagedTasks s.pool.taskManagerTimeout now
      refine .setWorker h hw rfl (workerStep_of_eq hi ha hr hq) (fun u hu => hu) rfl
        fun u hu => .inr ⟨?_, fun halive => ha.trans halive⟩
      rw [PoolWorker.inWork] at hu ⊢
      exact hr ▸ hu
    · exact .setWorker h hw rfl (workerStep_of_eq rfl rfl rfl rfl) (fun u hu => hu) rfl
        fun u hu => .inr ⟨hu, id⟩
  · cases hs

theorem WorkerSteps.take (h : Inv s) {i : ℕ} (hs : exec s (.take i) = some s') :
    WorkerSteps (.take i) s s' := by
  obtain ⟨w, hf, hb⟩ := Option.bind_eq_some_iff.mp hs
  obtain ⟨w', ht, he⟩ := Option.bind_eq_some_iff.mp hb
  obtain ⟨hw, rfl⟩ := AutoscalePool.find_some hf
  obtain ⟨halive, hheld, r, q, a, hw'⟩ := PoolWorker.take_eq ht
  have hidle : w.running = none := by
    rw [PoolWorker.take] at ht
    split_ifs at ht with hc
    exact hc.2
  have hnone : w.inWork = [] := by
    rw [PoolWorker.inWork, hidle]
    rfl
  have hrunning : ∀ u ∈ w'.inWork, w'.alive = true := by
    intro u hu
    rw [PoolWorker.take, if_pos ⟨halive, hidle⟩] at ht
    split at ht
    · cases ht
    · cases ht
      exact halive
    · cases ht
      rw [show ({ w with alive := false, queue := _ } : PoolWorker).inWork = w.inWork from rfl,
        hnone] at hu
      cases hu
  rw [← Option.some.inj he]
  refine .setWorker h hw rfl ⟨hw' ▸ rfl, fun _ => halive, fun u hu => .inl (hheld ▸ hu),
    fun u hu => .inr ⟨rfl, hrunning u hu⟩⟩ (fun u hu => hu) rfl fun u hu => ?_
  rw [hnone] at hu
  cases hu

theorem WorkerSteps.finish (h : Inv s) {i : ℕ} (hs : exec s (.finish i) = some s') :
    WorkerSteps (.finish i) s s' := by
  obtain ⟨w, hf, hb⟩ := Option.bind_eq_some_iff.mp hs
  obtain ⟨⟨u, w'⟩, hd, he⟩ := Option.bind_eq_some_iff.mp hb
  obtain ⟨hw, -⟩ := AutoscalePool.find_some hf
  obtain ⟨hheld, hw'⟩ := PoolWorker.finish_eq hd
  have hnone : w'.inWork = [] := by
    rw [hw']
    rfl
  have hwork : ∀ v ∈ w.inWork, v = u := by
    unfold PoolWorker.finish at hd
    split at hd
    · next m _ hr =>
      obtain ⟨rfl, -⟩ := Prod.mk.inj (Option.some.inj hd)
      intro v hv
      rw [PoolWorker.inWork, hr] at hv
      exact List.mem_singleton.mp hv
    · cases hd
  rw [← Option.some.inj he]
  refine .setWorker h hw rfl ⟨hw' ▸ rfl, fun ha => (by rwa [hw'] at ha), fun v hv => .inl ?_, fun v hv => ?_⟩
    (fun v hv => List.mem_append_left _ hv) rfl fun v hv => .inl ?_
  · rw [hheld]
    exact List.mem_cons_of_mem u hv
  · rw [hnone] at hv
    cases hv
  · rw [hwork v hv]
    exact List.mem_append_right _ (List.mem_singleton_self u)

theorem WorkerSteps.die (h : Inv s) {i : ℕ} (hs : exec s (.die i) = some s') :
    WorkerSteps (.die i) s s' := by
  obtain ⟨w, hf, hb⟩ := Option.bind_eq_some_iff.mp hs
  obtain ⟨w', hd, he⟩ := Option.bind_eq_some_iff.mp hb
  obtain ⟨hw, -⟩ := AutoscalePool.find_some hf
  have hw' := PoolWorker.die_eq hd
  rw [← Option.some.inj he]
  subst hw'
  exact .setWorker h hw rfl ⟨rfl, nofun, fun u hu => .inl hu, fun u hu => .inl hu⟩
    (fun u hu => hu) rfl fun u hu => .inr ⟨hu, fun _ => rfl⟩

theorem WorkerSteps.exec (h : Inv s) (hs : exec s e = some s') : WorkerSteps e s s' := by
  cases e with
  | write body q =>
    simp only [Dispatch.exec] at hs
    split_ifs at hs
    rw [← Option.some.inj hs]
    exact .of_eq rfl rfl rfl
  | grow order =>
    simp only [Dispatch.exec] at hs
    split at hs
    · split_ifs at hs
      rw [← Option.some.inj hs]
      exact .grown rfl rfl rfl
    · cases hs
  | offer fresh => exact .offer h hs
  | cleanup =>
    simp only [Dispatch.exec] at hs
    split_ifs at hs
    rw [← Option.some.inj hs]
    exact .of_eq rfl rfl rfl
  | visit jobs => exact .visit h hs
  | check now => exact .check h hs
  | requeue idx =>
    simp only [Dispatch.exec] at hs
    split at hs
    · split_ifs at hs
      · rw [← Option.some.inj hs]
        exact .up rfl rfl rfl
      · rw [← Option.some.inj hs]
        exact .of_eq rfl rfl rfl
    · cases hs
  | take i => exact .take h hs
  | finish i => exact .finish h hs
  | die i => exact .die h hs

end Forail.Dispatch
