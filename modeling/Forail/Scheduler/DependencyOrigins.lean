import Forail.Scheduler.DependencyManager

/-! What one task depends on. The function of each kind of task is a series of choices, each
between the latest update of a project or source and a new one; the caches, filled for a list
of tasks, give a task of the list its own projects and sources. -/

namespace Forail.Scheduler.DependencyManager

/-! ### What a task depends on -/

/-- The project is in the cache once a task of the list names it. -/
def projectOrigins (m : Manager) (projectId : Option ℕ) : List Origin :=
  match projectId with
  | none => []
  | some p =>
    if (m.cache.allProjects.get? p).isSome ∨ ∃ q ∈ m.db.projects, q.id = p ∧ q.scmUpdateOnLaunch
    then [.project p] else []

def sourcesOf (m : Manager) (inventoryId : Option ℕ) : List InventorySource :=
  cachedSources m.cache inventoryId ++
    m.db.inventorySources.filter fun s =>
      s.inventoryId.isSome && s.inventoryId = inventoryId && s.updateOnLaunch

/-- The projects and sources whose updates the task needs by itself. -/
def origins (m : Manager) (t : PendingTask) : List Origin :=
  match t.kind with
  | .job projectId inventoryId alreadyUpdated =>
    projectOrigins m projectId ++
      ((sourcesOf m inventoryId).filter fun s => !alreadyUpdated.any (s.id ∈ ·)).map
        fun s => .inventorySource s.id
  | .inventoryUpdate source inventorySource =>
    if source = "scm" then projectOrigins m (inventorySource.bind InventorySource.sourceProjectId)
    else []
  | .other => []

/-- The update of a project or source can be chosen: the latest one has no missing end time
that the choice reads. -/
def Db.answers (db : Db) (o : Origin) : Bool := (shouldUpdateAgain (db.latest o) 0 0).isSome

theorem shouldUpdateAgain_isSome (update : Option Update) (cacheTimeout : ℕ) (tzNow : ℤ) :
    (shouldUpdateAgain update cacheTimeout tzNow).isSome = (shouldUpdateAgain update 0 0).isSome := by
  cases update with
  | none => rfl
  | some u =>
    simp only [shouldUpdateAgain]
    split_ifs <;> simp

/-! ### One dependency -/

theorem Db.latest_origin {db : Db} {o : Origin} {u : Update} (h : db.latest o = some u) :
    u.origin = o := by
  cases o with
  | project p =>
    have hu := List.find?_some h
    simp only [Bool.and_eq_true, decide_eq_true_eq] at hu
    exact hu.1
  | inventorySource s =>
    have hu := List.find?_some (show db.updates.find? _ = some u from h)
    exact of_decide_eq_true hu

theorem Db.latest_createUpdate (db : Db) (o o' : Origin) :
    (db.createUpdate o).2.latest o' = if o' = o then some (db.createUpdate o).1 else db.latest o' := by
  unfold Db.latest Db.createUpdate
  split_ifs with h
  · subst h
    cases o' <;> simp
  · have hne : ¬ o = o' := fun he => h he.symm
    cases o' <;> simp [hne]

theorem Db.answers_createUpdate (db : Db) (o o' : Origin) (h : db.answers o = true) :
    (db.createUpdate o).2.answers o' = db.answers o' := by
  unfold Db.answers at *
  rw [Db.latest_createUpdate]
  split_ifs with ho
  · subst ho
    rw [h]
    rfl
  · rfl

/-- The same choices can be made. -/
def SameAnswers (db db' : Db) : Prop := ∀ o, db'.answers o = db.answers o

theorem SameAnswers.trans {d₁ d₂ d₃ : Db} (h : SameAnswers d₁ d₂) (h' : SameAnswers d₂ d₃) :
    SameAnswers d₁ d₃ := fun o => (h' o).trans (h o)

section Choice
variable {tzNow : ℕ → ℤ} {db db' : Db}

theorem getOrCreateUpdate_some {o : Origin} {cacheTimeout : ℕ} {u : Update}
    (h : getOrCreateUpdate tzNow db o cacheTimeout = some (u, db')) :
    db.answers o = true ∧ u.origin = o ∧ SameAnswers db db' := by
  obtain ⟨again, hagain, hu⟩ := Option.bind_eq_some_iff.mp h
  have hans : db.answers o = true := by
    rw [Db.answers, ← shouldUpdateAgain_isSome _ cacheTimeout (tzNow db.ticks), hagain]
    rfl
  cases again with
  | true =>
    have hcreate : Db.createUpdate { db with ticks := db.ticks + 1 } o = (u, db') :=
      Option.some.inj hu
    have hfst : (Db.createUpdate { db with ticks := db.ticks + 1 } o).1 = u :=
      congrArg Prod.fst hcreate
    have hsnd : (Db.createUpdate { db with ticks := db.ticks + 1 } o).2 = db' :=
      congrArg Prod.snd hcreate
    refine ⟨hans, hfst ▸ rfl, fun o' => ?_⟩
    rw [← hsnd]
    exact Db.answers_createUpdate { db with ticks := db.ticks + 1 } o o' hans
  | false =>
    obtain ⟨v, hv, he⟩ := Option.map_eq_some_iff.mp hu
    cases he
    exact ⟨hans, Db.latest_origin hv, fun o' => rfl⟩

theorem getOrCreateUpdate_isSome (tzNow : ℕ → ℤ) {o : Origin} (cacheTimeout : ℕ)
    (h : db.answers o = true) : ∃ r, getOrCreateUpdate tzNow db o cacheTimeout = some r := by
  rw [Db.answers, ← shouldUpdateAgain_isSome _ cacheTimeout (tzNow db.ticks)] at h
  obtain ⟨again, hagain⟩ := Option.isSome_iff_exists.mp h
  cases again with
  | true => exact ⟨_, Option.bind_eq_some_iff.mpr ⟨true, hagain, rfl⟩⟩
  | false =>
    -- a choice of the latest update means that there is one
    cases hl : db.latest o with
    | none => rw [hl] at hagain; cases hagain
    | some u =>
      rw [hl] at hagain
      exact ⟨_, by rw [getOrCreateUpdate, hl, hagain]; rfl⟩

end Choice

/-! ### The dependencies of one task -/

/-- The choices for a list of projects and sources with their timeouts, one after the other. -/
def collect (tzNow : ℕ → ℤ) : List (Origin × ℕ) → Db → Option (List Update × Db)
  | [], db => some ([], db)
  | w :: ws, db => do
    let (u, db) ← getOrCreateUpdate tzNow db w.1 w.2
    let (us, db) ← collect tzNow ws db
    some (u :: us, db)

section Collect
variable {tzNow : ℕ → ℤ} {ws : List (Origin × ℕ)}

theorem collect_some {db db' : Db} {us : List Update} (h : collect tzNow ws db = some (us, db')) :
    us.map Update.origin = ws.map Prod.fst ∧ SameAnswers db db' ∧
      ∀ o ∈ ws.map Prod.fst, db.answers o = true := by
  induction ws generalizing db us with
  | nil =>
    cases h
    exact ⟨rfl, fun _ => rfl, fun o ho => absurd ho List.not_mem_nil⟩
  | cons w ws ih =>
    obtain ⟨⟨u, d₁⟩, h₁, h⟩ := Option.bind_eq_some_iff.mp h
    obtain ⟨⟨vs, d₂⟩, h₂, h⟩ := Option.bind_eq_some_iff.mp h
    cases h
    obtain ⟨hans, hu, hsame⟩ := getOrCreateUpdate_some h₁
    obtain ⟨hvs, hsame', hans'⟩ := ih h₂
    refine ⟨by rw [List.map_cons, List.map_cons, hu, hvs], hsame.trans hsame', fun o ho => ?_⟩
    rcases List.mem_cons.mp ho with rfl | ho
    · exact hans
    · rw [← hsame o]
      exact hans' o ho

theorem collect_isSome (tzNow : ℕ → ℤ) {db : Db} (h : ∀ o ∈ ws.map Prod.fst, db.answers o = true) :
    ∃ r, collect tzNow ws db = some r := by
  induction ws generalizing db with
  | nil => exact ⟨_, rfl⟩
  | cons w ws ih =>
    obtain ⟨⟨u, d₁⟩, h₁⟩ := getOrCreateUpdate_isSome tzNow w.2 (h w.1 List.mem_cons_self)
    have hsame := (getOrCreateUpdate_some h₁).2.2
    have hrest : ∀ o ∈ ws.map Prod.fst, d₁.answers o = true := fun o ho => by
      rw [hsame o]
      exact h o (List.mem_cons_of_mem _ ho)
    obtain ⟨⟨us, d₂⟩, h₂⟩ := ih hrest
    exact ⟨(u :: us, d₂), by simp [collect, h₁, h₂]⟩

theorem collect_append (ws ws' : List (Origin × ℕ)) (db : Db) :
    collect tzNow (ws ++ ws') db = (do
      let (us, db) ← collect tzNow ws db
      let (us', db) ← collect tzNow ws' db
      some (us ++ us', db)) := by
  induction ws generalizing db with
  | nil =>
    simp only [List.nil_append, collect, Option.bind_eq_bind, Option.bind_some]
    cases collect tzNow ws' db <;> rfl
  | cons w ws ih => simp [collect, ih, Option.bind_assoc]

end Collect

def wantedProject (cache : Cache) (projectId : Option ℕ) : List (Origin × ℕ) :=
  match projectId.bind cache.allProjects.get? with
  | none => []
  | some project => [(.project project.id, project.scmUpdateCacheTimeout)]

def wantedSources (alreadyUpdated : Option (List ℕ)) (ss : List InventorySource) :
    List (Origin × ℕ) :=
  (ss.filter fun s => !alreadyUpdated.any (s.id ∈ ·)).map
    fun s => (.inventorySource s.id, s.updateCacheTimeout)

/-- The choices that the task's function makes, in its order. -/
def wanted (cache : Cache) (t : PendingTask) : List (Origin × ℕ) :=
  match t.kind with
  | .job projectId inventoryId alreadyUpdated =>
    wantedProject cache projectId ++ wantedSources alreadyUpdated (cachedSources cache inventoryId)
  | .inventoryUpdate source inventorySource =>
    if source = "scm" then
      wantedProject cache (inventorySource.bind InventorySource.sourceProjectId)
    else []
  | .other => []

section Step
variable {cache : Cache} {tzNow : ℕ → ℤ}

theorem getOrCreateProjectUpdate_eq (db : Db) (projectId : Option ℕ) :
    getOrCreateProjectUpdate cache tzNow db projectId =
      collect tzNow (wantedProject cache projectId) db := by
  unfold getOrCreateProjectUpdate wantedProject
  cases projectId.bind cache.allProjects.get? with
  | none => rfl
  | some project => simp [collect]

theorem genDepForSources_eq (alreadyUpdated : Option (List ℕ)) (ss : List InventorySource) (db : Db) :
    genDepForSources tzNow alreadyUpdated ss db =
      collect tzNow (wantedSources alreadyUpdated ss) db := by
  induction ss generalizing db with
  | nil => rfl
  | cons s ss ih =>
    rw [genDepForSources]
    split_ifs with hs
    · rw [ih]
      simp [wantedSources, hs]
    · simp only [wantedSources, Bool.not_eq_true] at ih hs ⊢
      simp [hs, collect, ih]

/-- Every kind of task makes its choices and then adds them. -/
theorem generateStep_eq (r : Run) (t : PendingTask) :
    generateStep cache tzNow r t =
      (collect tzNow (wanted cache t) r.db).map fun d => r.addDependencies t d.1 d.2 := by
  unfold generateStep wanted
  cases t.kind with
  | job projectId inventoryId alreadyUpdated =>
    simp only [genDepForJob, getOrCreateProjectUpdate_eq, genDepForSources_eq, collect_append]
    cases collect tzNow (wantedProject cache projectId) r.db with
    | none => rfl
    | some d =>
      simp only [Option.bind_eq_bind, Option.bind_some]
      cases collect tzNow (wantedSources alreadyUpdated (cachedSources cache inventoryId)) d.2 <;> rfl
  | inventoryUpdate source inventorySource =>
    simp only [genDepForInventoryUpdate]
    split_ifs with hs
    · cases inventorySource with
      | none => rfl
      | some invsrc =>
        simp only [getOrCreateProjectUpdate_eq, Option.bind_some]
        cases collect tzNow (wantedProject cache invsrc.sourceProjectId) r.db <;> rfl
    · rfl
  | other => rfl

end Step

/-! ### The caches in terms of the rows -/

section Caches

theorem get?_addProject (rows : List Project) (c : Cache) (k : ℕ) :
    ((rows.foldl Cache.addProject c).allProjects.get? k).isSome = true ↔
      (c.allProjects.get? k).isSome = true ∨ ∃ p ∈ rows, p.id = k := by
  induction rows generalizing c with
  | nil => simp
  | cons p rows ih =>
    rw [List.foldl_cons, ih, Cache.addProject, Dict.get?_set]
    by_cases hk : k = p.id
    · simp [hk]
    · have hk' : ¬ p.id = k := fun h => hk h.symm
      simp [hk, hk']

theorem addProject_sources (rows : List Project) (c : Cache) :
    (rows.foldl Cache.addProject c).allInventorySources = c.allInventorySources := by
  induction rows generalizing c with
  | nil => rfl
  | cons p rows ih => rw [List.foldl_cons, ih]; rfl

theorem addInventorySource_projects (rows : List InventorySource) (c : Cache) :
    (rows.foldl Cache.addInventorySource c).allProjects = c.allProjects := by
  induction rows generalizing c with
  | nil => rfl
  | cons s rows ih =>
    rw [List.foldl_cons, ih]
    unfold Cache.addInventorySource
    split
    · rfl
    · split_ifs <;> rfl

theorem mem_addInventorySource_one (c : Cache) (s : InventorySource) (inventory : ℕ)
    (x : InventorySource) :
    x ∈ (c.addInventorySource s).allInventorySources.getD inventory [] ↔
      x ∈ c.allInventorySources.getD inventory [] ∨
        (x = s ∧ s.inventoryId = some inventory ∧ s.updateOnLaunch = true) := by
  unfold Cache.addInventorySource
  split
  · rename_i hi
    simp [hi]
  · rename_i k hi
    split_ifs with hu
    · simp only [Dict.getD_set, hi, hu]
      by_cases hk : inventory = k
      · simp [hk]
      · have hk' : ¬ k = inventory := fun h => hk h.symm
        simp [hk, hk']
    · simp [hu]

theorem mem_addInventorySource (rows : List InventorySource) (c : Cache) (inventory : ℕ)
    (x : InventorySource) :
    x ∈ (rows.foldl Cache.addInventorySource c).allInventorySources.getD inventory [] ↔
      x ∈ c.allInventorySources.getD inventory [] ∨
        (x ∈ rows ∧ x.inventoryId = some inventory ∧ x.updateOnLaunch = true) := by
  induction rows generalizing c with
  | nil => simp
  | cons s rows ih =>
    rw [List.foldl_cons, ih, mem_addInventorySource_one, List.mem_cons, or_assoc]
    refine or_congr_right ?_
    constructor
    · rintro (⟨rfl, h⟩ | ⟨h, h'⟩)
      · exact ⟨.inl rfl, h⟩
      · exact ⟨.inr h, h'⟩
    · rintro ⟨rfl | h, h'⟩
      · exact .inl ⟨rfl, h'⟩
      · exact .inr ⟨h, h'⟩

variable (m : Manager) (tasks : List PendingTask)

theorem mem_wantedProject {projectId : Option ℕ} (hp : ∀ p, projectId = some p → p ∈ projectIds tasks)
    (o : Origin) :
    o ∈ (wantedProject (cacheProjectsAndSources m tasks) projectId).map Prod.fst ↔
      o ∈ projectOrigins m projectId := by
  cases projectId with
  | none => simp [wantedProject, projectOrigins]
  | some p =>
    have hcached : ((cacheProjectsAndSources m tasks).allProjects.get? p).isSome = true ↔
        (m.cache.allProjects.get? p).isSome ∨
          ∃ q ∈ m.db.projects, q.id = p ∧ q.scmUpdateOnLaunch := by
      rw [cacheProjectsAndSources, addInventorySource_projects, get?_addProject]
      refine or_congr_right ⟨?_, ?_⟩
      · rintro ⟨q, hq, hid⟩
        simp only [launchProjects, List.mem_filter, Bool.and_eq_true] at hq
        exact ⟨q, hq.1, hid, hq.2.2⟩
      · rintro ⟨q, hq, hid, hl⟩
        refine ⟨q, ?_, hid⟩
        simp only [launchProjects, List.mem_filter, Bool.and_eq_true, decide_eq_true_eq]
        exact ⟨hq, hid ▸ hp p rfl, hl⟩
    simp only [wantedProject, projectOrigins, ← hcached, Option.bind_some]
    cases hg : (cacheProjectsAndSources m tasks).allProjects.get? p with
    | none => simp
    | some q =>
      have hid := (cacheProjectsAndSources m tasks).projects_id p q hg
      simp [hid]

theorem mem_cachedSources {inventoryId : Option ℕ}
    (hi : ∀ i, inventoryId = some i → i ∈ inventoryIds tasks) (x : InventorySource) :
    x ∈ cachedSources (cacheProjectsAndSources m tasks) inventoryId ↔
      x ∈ sourcesOf m inventoryId := by
  cases inventoryId with
  | none =>
    refine iff_of_false List.not_mem_nil fun h => ?_
    simp only [sourcesOf, cachedSources, Option.elim_none, List.nil_append, List.mem_filter,
      Bool.and_eq_true, decide_eq_true_eq] at h
    rw [h.2.1.2] at h
    exact absurd h.2.1.1 Bool.false_ne_true
  | some i =>
    have hmem := hi i rfl
    simp only [cachedSources, sourcesOf, Option.elim_some, cacheProjectsAndSources,
      mem_addInventorySource, addProject_sources, List.mem_append]
    refine or_congr_right ?_
    simp only [launchSources, List.mem_filter, Bool.and_eq_true, decide_eq_true_eq]
    constructor
    · rintro ⟨⟨hx, -, -⟩, hinv, hu⟩
      exact ⟨hx, ⟨by rw [hinv]; rfl, hinv⟩, hu⟩
    · rintro ⟨hx, ⟨-, hinv⟩, hu⟩
      exact ⟨⟨hx, by simp [hinv, hmem], hu⟩, hinv, hu⟩

/-- With the caches filled for a list, a task of it chooses for its own projects and sources. -/
theorem mem_wanted {t : PendingTask} (ht : t ∈ tasks) (o : Origin) :
    o ∈ (wanted (cacheProjectsAndSources m tasks) t).map Prod.fst ↔ o ∈ origins m t := by
  have hproject : ∀ p ∈ (match t.kind with
      | .job projectId _ _ => projectId
      | .inventoryUpdate _ inventorySource => inventorySource.bind InventorySource.sourceProjectId
      | .other => none), p ∈ projectIds tasks := fun p hp => List.mem_filterMap.mpr ⟨t, ht, hp⟩
  have hinventory : ∀ i ∈ (match t.kind with
      | .job _ inventoryId _ => inventoryId
      | .inventoryUpdate _ _ | .other => none), i ∈ inventoryIds tasks :=
    fun i hi => List.mem_filterMap.mpr ⟨t, ht, hi⟩
  unfold wanted origins
  cases hk : t.kind with
  | job projectId inventoryId alreadyUpdated =>
    rw [hk] at hproject hinventory
    simp only [List.map_append, List.mem_append]
    refine or_congr (mem_wantedProject m tasks hproject o) ?_
    simp only [wantedSources, List.mem_map, List.mem_filter, exists_exists_and_eq_and,
      mem_cachedSources m tasks hinventory]
  | inventoryUpdate source inventorySource =>
    rw [hk] at hproject
    dsimp only
    split_ifs with hs
    · exact mem_wantedProject m tasks hproject o
    · rfl
  | other => rfl

end Caches

end Forail.Scheduler.DependencyManager
