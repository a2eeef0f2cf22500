import Forail.Scheduler.DependencyPass

/-! The pass as one list of checks. The function of each kind of task is a series of checks,
each of which chooses between the latest update of a project or source and a new one; a check
leaves the latest update of its own project or source to be linked and touches no other. -/

namespace Forail.Scheduler.DependencyPass

open DependencyManager

/-! ### One check -/

section Check
variable {site : Site}

theorem Db.latest_origin {db : Db} {o : Origin} {u : Row} (h : db.latest o = some u) :
    u.origin = o := by
  cases o with
  | project p =>
    have hu := List.find?_some h
    simp only [Bool.and_eq_true, decide_eq_true_eq] at hu
    exact hu.1
  | inventorySource s =>
    have hu := List.find?_some (show db.rows.find? _ = some u from h)
    exact of_decide_eq_true hu

theorem Db.latest_forget (db : Db) (o : Origin) :
    (db.latest o).map Row.toUpdate = db.forget.latest o := by
  cases o <;>
    simp [Db.latest, Db.forget, DependencyManager.Db.latest, Db.updates, List.find?_map,
      Function.comp_def]

@[simp] theorem Db.latest_tick (db : Db) (o : Origin) : db.tick.latest o = db.latest o := by
  cases o <;> rfl

theorem Db.latest_createUpdate (db : Db) (started : Bool) (o o' : Origin) :
    (db.createUpdate started o).2.latest o' =
      if o' = o then some (db.createUpdate started o).1 else db.latest o' := by
  by_cases h : o' = o
  · subst h
    cases o' <;> simp [Db.latest, Db.createUpdate]
  · have hne : ¬ o = o' := fun he => h he.symm
    cases o' <;> simp [Db.latest, Db.createUpdate, h, hne]

/-- What a check does: a new update of its project or source, or the latest one. -/
theorem getOrCreateUpdate_cases {db db' : Db} {o : Origin} {cacheTimeout : ℕ} {u : Row}
    (h : getOrCreateUpdate site db o cacheTimeout = some (u, db')) :
    (shouldUpdateAgain ((db.latest o).map Row.toUpdate) cacheTimeout (site.tzNow db.ticks) =
        some true ∧ u = (db.tick.createUpdate (site.signalStart o) o).1 ∧
          db' = (db.tick.createUpdate (site.signalStart o) o).2) ∨
      (shouldUpdateAgain ((db.latest o).map Row.toUpdate) cacheTimeout (site.tzNow db.ticks) =
        some false ∧ db.latest o = some u ∧ db' = db.tick) := by
  obtain ⟨again, hagain, hu⟩ := Option.bind_eq_some_iff.mp h
  cases again with
  | true =>
    have hpair : db.tick.createUpdate (site.signalStart o) o = (u, db') := Option.some.inj hu
    exact .inl ⟨hagain, by rw [hpair], by rw [hpair]⟩
  | false =>
    obtain ⟨v, hv, he⟩ := Option.map_eq_some_iff.mp hu
    cases he
    exact .inr ⟨hagain, hv, rfl⟩

/-- The latest update afterwards is the one chosen. -/
theorem getOrCreateUpdate_latest {db db' : Db} {o : Origin} {cacheTimeout : ℕ} {u : Row}
    (h : getOrCreateUpdate site db o cacheTimeout = some (u, db')) : db'.latest o = some u := by
  rcases getOrCreateUpdate_cases h with ⟨-, rfl, rfl⟩ | ⟨-, hu, rfl⟩
  · rw [Db.latest_createUpdate, if_pos rfl]
  · rw [Db.latest_tick, hu]

theorem getOrCreateUpdate_frame {db db' : Db} {o o' : Origin} {cacheTimeout : ℕ} {u : Row}
    (h : getOrCreateUpdate site db o cacheTimeout = some (u, db')) (hne : o' ≠ o) :
    db'.latest o' = db.latest o' := by
  rcases getOrCreateUpdate_cases h with ⟨-, -, rfl⟩ | ⟨-, -, rfl⟩
  · rw [Db.latest_createUpdate, if_neg hne, Db.latest_tick]
  · exact Db.latest_tick db o'

end Check

/-! ### The checks of one task -/

/-- The checks for a list of projects and sources with their timeouts, one after the other. -/
def collect (site : Site) : List (Origin × ℕ) → Db → Option (List Row × Db)
  | [], db => some ([], db)
  | c :: cs, db => do
    let (u, db) ← getOrCreateUpdate site db c.1 c.2
    let (us, db) ← collect site cs db
    some (u :: us, db)

section Collect
variable {site : Site} {cs : List (Origin × ℕ)} {db db' : Db} {us : List Row}

theorem collect_cons {c : Origin × ℕ} (h : collect site (c :: cs) db = some (us, db')) :
    ∃ u d vs, getOrCreateUpdate site db c.1 c.2 = some (u, d) ∧
      collect site cs d = some (vs, db') ∧ us = u :: vs := by
  obtain ⟨⟨u, d⟩, hu, h⟩ := Option.bind_eq_some_iff.mp h
  obtain ⟨⟨vs, d'⟩, hvs, h⟩ := Option.bind_eq_some_iff.mp h
  cases h
  exact ⟨u, d, vs, hu, hvs, rfl⟩

theorem collect_frame (h : collect site cs db = some (us, db')) {o : Origin}
    (ho : o ∉ cs.map Prod.fst) : db'.latest o = db.latest o := by
  induction cs generalizing db us with
  | nil =>
    cases h
    rfl
  | cons c cs ih =>
    obtain ⟨u, d, vs, hu, hvs, rfl⟩ := collect_cons h
    rw [List.map_cons, List.mem_cons, not_or] at ho
    rw [ih hvs ho.2, getOrCreateUpdate_frame hu ho.1]

/-- Each project or source checked has its latest update among those chosen. -/
theorem collect_latest (h : collect site cs db = some (us, db')) {o : Origin}
    (ho : o ∈ cs.map Prod.fst) : ∃ u ∈ us, db'.latest o = some u := by
  induction cs generalizing db us with
  | nil => exact absurd ho List.not_mem_nil
  | cons c cs ih =>
    obtain ⟨u, d, vs, hu, hvs, rfl⟩ := collect_cons h
    by_cases hlater : o ∈ cs.map Prod.fst
    · obtain ⟨v, hv, hlatest⟩ := ih hvs hlater
      exact ⟨v, List.mem_cons_of_mem _ hv, hlatest⟩
    · rw [List.map_cons, List.mem_cons] at ho
      obtain rfl := ho.resolve_right hlater
      exact ⟨u, List.mem_cons_self, by rw [collect_frame hvs hlater, getOrCreateUpdate_latest hu]⟩

theorem collect_append (cs cs' : List (Origin × ℕ)) (db : Db) :
    collect site (cs ++ cs') db = (do
      let (us, db) ← collect site cs db
      let (us', db) ← collect site cs' db
      some (us ++ us', db)) := by
  induction cs generalizing db with
  | nil =>
    simp only [List.nil_append, collect, Option.bind_eq_bind, Option.bind_some]
    cases collect site cs' db <;> rfl
  | cons c cs ih => simp [collect, ih, Option.bind_assoc]

end Collect

section Step
variable {cache : Cache} {site : Site}

theorem getOrCreateProjectUpdate_eq (db : Db) (projectId : Option ℕ) :
    getOrCreateProjectUpdate cache site db projectId =
      collect site (wantedProject cache projectId) db := by
  unfold getOrCreateProjectUpdate wantedProject
  cases projectId.bind cache.allProjects.get? with
  | none => rfl
  | some project => simp [collect]

theorem genDepForSources_eq (alreadyUpdated : Option (List ℕ)) (ss : List InventorySource) (db : Db) :
    genDepForSources site alreadyUpdated ss db =
      collect site (wantedSources alreadyUpdated ss) db := by
  induction ss generalizing db with
  | nil => rfl
  | cons s ss ih =>
    rw [genDepForSources]
    split_ifs with hs
    · rw [ih]
      simp [wantedSources, hs]
    · simp only [wantedSources, Bool.not_eq_true] at ih hs ⊢
      simp [hs, collect, ih]

/-- Every kind of task makes its checks and then adds the updates chosen. -/
theorem generateStep_eq (r : Run) (t : PendingTask) :
    generateStep cache site r t =
      (collect site (wanted cache t) r.db).map fun d => r.addDependencies t d.1 d.2 := by
  unfold generateStep wanted
  cases t.kind with
  | job projectId inventoryId alreadyUpdated =>
    simp only [genDepForJob, getOrCreateProjectUpdate_eq, genDepForSources_eq, collect_append]
    cases collect site (wantedProject cache projectId) r.db with
    | none => rfl
    | some d =>
      simp only [Option.bind_eq_bind, Option.bind_some]
      cases collect site (wantedSources alreadyUpdated (cachedSources cache inventoryId)) d.2 <;> rfl
  | inventoryUpdate source inventorySource =>
    simp only [genDepForInventoryUpdate]
    split_ifs with hs
    · cases inventorySource with
      | none => rfl
      | some invsrc =>
        simp only [getOrCreateProjectUpdate_eq, Option.bind_some]
        cases collect site (wantedProject cache invsrc.sourceProjectId) r.db <;> rfl
    · rfl
  | other => rfl

theorem addDependencies_db (r : Run) (t : PendingTask) (us : List Row) (db : Db) :
    (r.addDependencies t us db).db = db := by
  unfold Run.addDependencies
  split_ifs <;> rfl

theorem addDependencies_dependencies (r : Run) (t : PendingTask) (us : List Row) (db : Db) :
    (r.addDependencies t us db).dependencies = r.dependencies ++ us := by
  unfold Run.addDependencies
  split_ifs with hu
  · rw [List.isEmpty_iff.mp hu, List.append_nil]
  · rfl

theorem addDependencies_links (r : Run) (t : PendingTask) (us : List Row) (db : Db) :
    r.links ⊆ (r.addDependencies t us db).links ∧
      ∀ u ∈ us, (t, u) ∈ (r.addDependencies t us db).links := by
  unfold Run.addDependencies
  split_ifs with hu
  · rw [List.isEmpty_iff.mp hu]
    exact ⟨List.Subset.refl _, fun u hu => absurd hu List.not_mem_nil⟩
  · exact ⟨List.subset_append_left _ _, fun u hu => List.mem_append_right _
      (List.mem_map_of_mem (List.mem_append_right _ hu))⟩

/-! ### The checks of one call -/

/-- The checks of a list of tasks. -/
def checksOf (cache : Cache) (tasks : List PendingTask) : List (Origin × ℕ) :=
  tasks.flatMap (wanted cache)

/-- The loop makes the checks of its tasks; its rows and dependencies are theirs. -/
theorem generate_collect {tasks : List PendingTask} {r r' : Run}
    (h : tasks.foldlM (generateStep cache site) r = some r') :
    ∃ us, collect site (checksOf cache tasks) r.db = some (us, r'.db) ∧
      r'.dependencies = r.dependencies ++ us := by
  induction tasks generalizing r with
  | nil =>
    cases h
    exact ⟨[], rfl, (List.append_nil _).symm⟩
  | cons t tasks ih =>
    rw [List.foldlM_cons, generateStep_eq] at h
    obtain ⟨r₁, hr₁, h⟩ := Option.bind_eq_some_iff.mp h
    obtain ⟨⟨us, db⟩, hc, rfl⟩ := Option.map_eq_some_iff.mp hr₁
    obtain ⟨vs, hvs, hdeps⟩ := ih h
    rw [addDependencies_db] at hvs
    rw [addDependencies_dependencies, List.append_assoc] at hdeps
    refine ⟨us ++ vs, ?_, hdeps⟩
    rw [checksOf, List.flatMap_cons, collect_append, hc]
    simp only [Option.bind_eq_bind, Option.bind_some]
    rw [show collect site (tasks.flatMap (wanted cache)) db = some (vs, r'.db) from hvs]
    rfl

theorem generate_of_collect {tasks : List PendingTask} {r : Run} {us : List Row} {db : Db}
    (h : collect site (checksOf cache tasks) r.db = some (us, db)) :
    ∃ r', tasks.foldlM (generateStep cache site) r = some r' := by
  induction tasks generalizing r us with
  | nil => exact ⟨r, rfl⟩
  | cons t tasks ih =>
    rw [checksOf, List.flatMap_cons, collect_append] at h
    obtain ⟨⟨vs, d⟩, hvs, h⟩ := Option.bind_eq_some_iff.mp h
    obtain ⟨⟨ws, d'⟩, hws, he⟩ := Option.bind_eq_some_iff.mp h
    cases he
    have hstep : generateStep cache site r t = some (r.addDependencies t vs d) := by
      rw [generateStep_eq, hvs, Option.map_some]
    have hrest : collect site (checksOf cache tasks) (r.addDependencies t vs d).db =
        some (ws, db) := by
      rw [addDependencies_db]
      exact hws
    rw [List.foldlM_cons, hstep]
    exact ih hrest

theorem generate_links {tasks : List PendingTask} {r r' : Run}
    (h : tasks.foldlM (generateStep cache site) r = some r') : r.links ⊆ r'.links := by
  induction tasks generalizing r with
  | nil =>
    cases h
    exact List.Subset.refl _
  | cons t tasks ih =>
    rw [List.foldlM_cons, generateStep_eq] at h
    obtain ⟨r₁, hr₁, h⟩ := Option.bind_eq_some_iff.mp h
    obtain ⟨d, -, rfl⟩ := Option.map_eq_some_iff.mp hr₁
    exact List.Subset.trans (addDependencies_links r t d.1 d.2).1 (ih h)

/-- Right after the task's turn it is linked to the latest update of everything it checks. -/
theorem generate_linked {before after : List PendingTask} {t : PendingTask} {r r' : Run}
    (h : (before ++ t :: after).foldlM (generateStep cache site) r = some r') :
    ∃ turn, (before ++ [t]).foldlM (generateStep cache site) r = some turn ∧
      ∀ o ∈ (wanted cache t).map Prod.fst, ∃ u, turn.db.latest o = some u ∧ (t, u) ∈ r'.links := by
  rw [List.append_cons, List.foldlM_append] at h
  obtain ⟨turn, hturn, hafter⟩ := Option.bind_eq_some_iff.mp h
  refine ⟨turn, hturn, fun o ho => ?_⟩
  rw [List.foldlM_append] at hturn
  obtain ⟨r₁, -, hstep⟩ := Option.bind_eq_some_iff.mp hturn
  have hstep : generateStep cache site r₁ t = some turn := by simpa using hstep
  rw [generateStep_eq] at hstep
  obtain ⟨⟨us, db⟩, hc, rfl⟩ := Option.map_eq_some_iff.mp hstep
  obtain ⟨u, hu, hlatest⟩ := collect_latest hc ho
  rw [addDependencies_db]
  exact ⟨u, hlatest, generate_links hafter ((addDependencies_links r₁ t us db).2 u hu)⟩

end Step

/-! ### Without refusals

Where `signal_start` accepts every update, the loop is that of the single call. -/

section Accepting
variable {site : Site} (haccepts : ∀ o, site.signalStart o = true)

def Run.forget (r : Run) : DependencyManager.Run where
  db := r.db.forget
  dependencies := r.dependencies.map Row.toUpdate
  links := r.links.map fun link => (link.1, link.2.toUpdate)

include haccepts

theorem getOrCreateUpdate_forget (db : Db) (o : Origin) (cacheTimeout : ℕ) :
    (getOrCreateUpdate site db o cacheTimeout).map (fun d => (d.1.toUpdate, d.2.forget)) =
      DependencyManager.getOrCreateUpdate site.tzNow db.forget o cacheTimeout := by
  have hticks : db.forget.ticks = db.ticks := rfl
  unfold getOrCreateUpdate DependencyManager.getOrCreateUpdate
  rw [Db.latest_forget, hticks]
  cases shouldUpdateAgain (db.forget.latest o) cacheTimeout (site.tzNow db.ticks) with
  | none => rfl
  | some again =>
    cases again with
    | true =>
      rw [haccepts]
      rfl
    | false =>
      rw [← Db.latest_forget]
      cases db.latest o <;> rfl

theorem collect_forget (cs : List (Origin × ℕ)) (db : Db) :
    (collect site cs db).map (fun d => (d.1.map Row.toUpdate, d.2.forget)) =
      DependencyManager.collect site.tzNow cs db.forget := by
  induction cs generalizing db with
  | nil => rfl
  | cons c cs ih =>
    rw [collect, DependencyManager.collect, ← getOrCreateUpdate_forget haccepts]
    cases getOrCreateUpdate site db c.1 c.2 with
    | none => rfl
    | some d =>
      simp only [Option.bind_eq_bind, Option.bind_some, Option.map_some, ← ih]
      cases collect site cs d.2 <;> rfl

theorem generateStep_forget (cache : Cache) (r : Run) (t : PendingTask) :
    (generateStep cache site r t).map Run.forget =
      DependencyManager.generateStep cache site.tzNow r.forget t := by
  rw [generateStep_eq, DependencyManager.generateStep_eq]
  change _ = (DependencyManager.collect site.tzNow (wanted cache t) r.db.forget).map _
  rw [← collect_forget haccepts, Option.map_map, Option.map_map]
  refine congrArg (fun f => Option.map f _) (funext fun d => ?_)
  obtain ⟨us, db⟩ := d
  cases us <;>
    simp [Run.addDependencies, DependencyManager.Run.addDependencies, Run.forget, Function.comp_def]

end Accepting

end Forail.Scheduler.DependencyPass
