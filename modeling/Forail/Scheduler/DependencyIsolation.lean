import Forail.Scheduler.DependencyOrigins
import Mathlib.Data.List.Perm.Subperm

/-! The links that the loop over pending tasks makes. It links a task to its accumulator and
not to the task's own dependencies, so a task with dependencies also waits for what the tasks
before it depend on. A list keeps its tasks apart exactly when all tasks that have
dependencies depend on the same projects and sources. -/

namespace Forail.Scheduler.DependencyManager

/-- The task is linked to an update of this project or source. -/
def Run.Linked (r : Run) (t : PendingTask) (o : Origin) : Prop :=
  ∃ u, (t, u) ∈ r.links ∧ u.origin = o

/-- The accumulator holds an update of this project or source. -/
def Run.Gathered (r : Run) (o : Origin) : Prop := ∃ u ∈ r.dependencies, u.origin = o

/-! ### One turn of the loop -/

section AddDependencies
variable {r : Run} {task : PendingTask} {jobDeps : List Update} {db : Db}

theorem addDependencies_db : (r.addDependencies task jobDeps db).db = db := by
  unfold Run.addDependencies
  split_ifs <;> rfl

theorem addDependencies_gathered (o : Origin) :
    (r.addDependencies task jobDeps db).Gathered o ↔
      r.Gathered o ∨ o ∈ jobDeps.map Update.origin := by
  unfold Run.addDependencies Run.Gathered
  split_ifs with h
  · rw [List.isEmpty_iff.mp h]
    simp
  · simp only [List.mem_append, or_and_right, exists_or, List.mem_map]

theorem addDependencies_linked (t : PendingTask) (o : Origin) :
    (r.addDependencies task jobDeps db).Linked t o ↔ r.Linked t o ∨
      (t = task ∧ jobDeps ≠ [] ∧ (r.Gathered o ∨ o ∈ jobDeps.map Update.origin)) := by
  unfold Run.addDependencies Run.Linked
  split_ifs with h
  · rw [List.isEmpty_iff.mp h]
    simp
  · have hne : jobDeps ≠ [] := fun he => h (List.isEmpty_iff.mpr he)
    simp only [List.mem_append, or_and_right, exists_or]
    refine or_congr_right ?_
    constructor
    · rintro ⟨u, hu, ho⟩
      obtain ⟨v, hv, he⟩ := List.mem_map.mp hu
      cases he
      refine ⟨rfl, hne, (List.mem_append.mp hv).imp (fun hv => ⟨u, hv, ho⟩) fun hv => ?_⟩
      exact List.mem_map.mpr ⟨u, hv, ho⟩
    · rintro ⟨rfl, -, ⟨u, hu, ho⟩ | ho⟩
      · exact ⟨u, List.mem_map.mpr ⟨u, List.mem_append_left _ hu, rfl⟩, ho⟩
      · obtain ⟨u, hu, ho⟩ := List.mem_map.mp ho
        exact ⟨u, List.mem_map.mpr ⟨u, List.mem_append_right _ hu, rfl⟩, ho⟩

end AddDependencies

/-- The task `t'` stands before the task `t`. -/
def Before (tasks : List PendingTask) (t' t : PendingTask) : Prop := List.Sublist [t', t] tasks

theorem before_concat {tasks : List PendingTask} {t' t x : PendingTask} :
    Before (tasks ++ [x]) t' t ↔ Before tasks t' t ∨ (t = x ∧ t' ∈ tasks) := by
  constructor
  · intro h
    obtain ⟨l₁, l₂, heq, h₁, h₂⟩ := List.sublist_append_iff.mp h
    rcases List.sublist_singleton.mp h₂ with rfl | rfl
    · rw [List.append_nil] at heq
      exact .inl (show List.Sublist [t', t] tasks from heq ▸ h₁)
    · have heq' : [t'] ++ [t] = l₁ ++ [x] := heq
      obtain ⟨rfl, hx⟩ := List.append_inj' heq' rfl
      exact .inr ⟨List.singleton_inj.mp hx, List.singleton_sublist.mp h₁⟩
  · rintro (h | ⟨rfl, h⟩)
    · exact List.Sublist.trans h (List.sublist_append_left tasks [x])
    · exact List.Sublist.append (List.singleton_sublist.mpr h) (List.Sublist.refl [t])

theorem Before.mem {tasks : List PendingTask} {t' t : PendingTask} (h : Before tasks t' t) :
    t' ∈ tasks ∧ t ∈ tasks := ⟨h.subset (by simp), h.subset (by simp)⟩

/-- The state after the tasks `pre`, each of which chooses for the projects and sources that
it needs. -/
structure After (needs : PendingTask → List Origin) (db : Db) (pre : List PendingTask) (r : Run) :
    Prop where
  answered : ∀ t ∈ pre, ∀ o ∈ needs t, db.answers o = true
  same : SameAnswers db r.db
  gathered : ∀ o, r.Gathered o ↔ ∃ t ∈ pre, o ∈ needs t
  linked : ∀ t o, r.Linked t o ↔
    t ∈ pre ∧ needs t ≠ [] ∧ (o ∈ needs t ∨ ∃ t', Before pre t' t ∧ o ∈ needs t')

section Loop
variable {cache : Cache} {tzNow : ℕ → ℤ} {db : Db}

/-- The projects and sources that the function of the task asks for. -/
def asked (cache : Cache) (t : PendingTask) : List Origin := (wanted cache t).map Prod.fst

theorem After.start : After (asked cache) db [] ⟨db, [], []⟩ where
  answered := fun t ht => absurd ht List.not_mem_nil
  same := fun _ => rfl
  gathered := fun o => by simp [Run.Gathered]
  linked := fun t o => by simp [Run.Linked]

theorem After.step {pre : List PendingTask} {r r' : Run} {t : PendingTask}
    (h : After (asked cache) db pre r) (hs : generateStep cache tzNow r t = some r') :
    After (asked cache) db (pre ++ [t]) r' := by
  rw [generateStep_eq] at hs
  obtain ⟨⟨us, db'⟩, hc, rfl⟩ := Option.map_eq_some_iff.mp hs
  obtain ⟨hus, hsame, hans⟩ := collect_some hc
  have hempty : us ≠ [] ↔ asked cache t ≠ [] := by
    rw [asked, ← hus, Ne, Ne, List.map_eq_nil_iff]
  refine ⟨fun x hx o ho => ?_, ?_, fun o => ?_, fun x o => ?_⟩
  · rcases List.mem_append.mp hx with hx | hx
    · exact h.answered x hx o ho
    · rw [List.mem_singleton] at hx
      subst hx
      rw [← h.same o]
      exact hans o ho
  · rw [addDependencies_db]
    exact h.same.trans hsame
  · rw [addDependencies_gathered, h.gathered, hus]
    simp [or_and_right, exists_or, asked]
  · rw [addDependencies_linked, h.linked, h.gathered, hus, hempty]
    simp only [before_concat, List.mem_append, List.mem_singleton]
    constructor
    · rintro (⟨hx, hne, ho⟩ | ⟨rfl, hne, ⟨t', ht', ho⟩ | ho⟩)
      · exact ⟨.inl hx, hne, ho.imp_right fun ⟨t', hb, ho⟩ => ⟨t', .inl hb, ho⟩⟩
      · exact ⟨.inr rfl, hne, .inr ⟨t', .inr ⟨rfl, ht'⟩, ho⟩⟩
      · exact ⟨.inr rfl, hne, .inl ho⟩
    · rintro ⟨hx, hne, ho | ⟨t', hb | ⟨rfl, ht'⟩, ho⟩⟩
      · rcases hx with hx | rfl
        · exact .inl ⟨hx, hne, .inl ho⟩
        · exact .inr ⟨rfl, hne, .inr ho⟩
      · exact .inl ⟨hb.mem.2, hne, .inr ⟨t', hb, ho⟩⟩
      · exact .inr ⟨rfl, hne, .inl ⟨t', ht', ho⟩⟩

theorem After.run {pre post : List PendingTask} {r r' : Run} (h : After (asked cache) db pre r)
    (hs : post.foldlM (generateStep cache tzNow) r = some r') :
    After (asked cache) db (pre ++ post) r' := by
  induction post generalizing pre r with
  | nil =>
    cases hs
    simpa using h
  | cons t post ih =>
    rw [List.foldlM_cons] at hs
    obtain ⟨r₁, h₁, hs⟩ := Option.bind_eq_some_iff.mp hs
    simpa using ih (h.step h₁) hs

/-- The loop ends where every choice can be made. -/
theorem After.isSome (tzNow : ℕ → ℤ) {pre post : List PendingTask} {r : Run}
    (h : After (asked cache) db pre r) (hp : ∀ t ∈ post, ∀ o ∈ asked cache t, db.answers o = true) :
    ∃ r', post.foldlM (generateStep cache tzNow) r = some r' := by
  induction post generalizing pre r with
  | nil => exact ⟨r, rfl⟩
  | cons t post ih =>
    have hans : ∀ o ∈ (wanted cache t).map Prod.fst, r.db.answers o = true := fun o ho => by
      rw [h.same o]
      exact hp t List.mem_cons_self o ho
    obtain ⟨d, hd⟩ := collect_isSome tzNow hans
    have hs : generateStep cache tzNow r t = some (r.addDependencies t d.1 d.2) := by
      rw [generateStep_eq, hd, Option.map_some]
    obtain ⟨r', hr'⟩ := ih (h.step hs) fun t' ht' => hp t' (List.mem_cons_of_mem _ ht')
    exact ⟨r', by rw [List.foldlM_cons, hs]; exact hr'⟩

end Loop

/-! ### The links of a whole call -/

/-- Nothing that the task depends on makes the choice of an update raise. -/
def Answered (m : Manager) (t : PendingTask) : Prop := ∀ o ∈ origins m t, m.db.answers o = true

section Call
variable {m : Manager} {tasks : List PendingTask} {tzNow : ℕ → ℤ}

theorem mem_asked {t : PendingTask} (ht : t ∈ tasks) (o : Origin) :
    o ∈ asked (cacheProjectsAndSources m tasks) t ↔ o ∈ origins m t := mem_wanted m tasks ht o

theorem asked_ne_nil {t : PendingTask} (ht : t ∈ tasks) :
    asked (cacheProjectsAndSources m tasks) t ≠ [] ↔ origins m t ≠ [] := by
  rw [Ne, Ne, List.eq_nil_iff_forall_not_mem, List.eq_nil_iff_forall_not_mem]
  exact not_congr (forall_congr' fun o => not_congr (mem_asked ht o))

theorem generateDependencies_after {r : Run} {c : Cache}
    (h : generateDependencies tzNow m tasks = some (r, c)) :
    ∃ r', After (asked (cacheProjectsAndSources m tasks)) m.db tasks r' ∧ r.links = r'.links := by
  obtain ⟨r', hr', he⟩ := Option.bind_eq_some_iff.mp h
  cases he
  exact ⟨r', by simpa using After.start.run hr', rfl⟩

/-- A task with dependencies is linked to its own and to those of every task before it. -/
theorem linked_iff {r : Run} {c : Cache} (h : generateDependencies tzNow m tasks = some (r, c))
    (t : PendingTask) (o : Origin) : r.Linked t o ↔ t ∈ tasks ∧ origins m t ≠ [] ∧
      (o ∈ origins m t ∨ ∃ t', Before tasks t' t ∧ o ∈ origins m t') := by
  obtain ⟨r', hafter, hlinks⟩ := generateDependencies_after h
  have hlinked := hafter.linked t o
  rw [Run.Linked, hlinks, ← Run.Linked, hlinked]
  refine and_congr_right fun ht => ?_
  rw [asked_ne_nil ht, mem_asked ht]
  refine and_congr_right fun _ => or_congr_right (exists_congr fun t' => ?_)
  exact and_congr_right fun hb => mem_asked hb.mem.1 o

theorem answered_of_generate {r : Run} {c : Cache}
    (h : generateDependencies tzNow m tasks = some (r, c)) {t : PendingTask} (ht : t ∈ tasks) :
    Answered m t := fun o ho => by
  obtain ⟨r', hafter, -⟩ := generateDependencies_after h
  exact hafter.answered t ht o ((mem_asked ht o).mpr ho)

theorem generate_of_answered (m : Manager) (tasks : List PendingTask) (tzNow : ℕ → ℤ)
    (h : ∀ t ∈ tasks, Answered m t) : ∃ r c, generateDependencies tzNow m tasks = some (r, c) := by
  have hstart : After (asked (cacheProjectsAndSources m tasks)) m.db [] ⟨m.db, [], []⟩ := .start
  obtain ⟨r, hr⟩ := hstart.isSome tzNow fun t ht o ho => h t ht o ((mem_asked ht o).mp ho)
  exact ⟨_, _, by rw [generateDependencies, hr]; rfl⟩

end Call

/-! ### Isolation -/

/-- The task's own project, or a source of its own inventory that updates on launch; for an
inventory update the project of its source. -/
def Owns (m : Manager) (t : PendingTask) (o : Origin) : Prop :=
  match t.kind with
  | .job projectId inventoryId _ =>
    (∃ p, projectId = some p ∧ o = .project p) ∨
      ∃ s : InventorySource, (s ∈ m.db.inventorySources ∨ s ∈ cachedSources m.cache inventoryId) ∧
        s.inventoryId.isSome ∧ s.inventoryId = inventoryId ∧ s.updateOnLaunch ∧
        o = .inventorySource s.id
  | .inventoryUpdate _ inventorySource => ∃ s p, inventorySource = some s ∧
      s.sourceProjectId = some p ∧ o = .project p
  | .other => False

theorem projectOrigins_own {m : Manager} {projectId : Option ℕ} {o : Origin}
    (h : o ∈ projectOrigins m projectId) : ∃ p, projectId = some p ∧ o = .project p := by
  cases projectId with
  | none => exact absurd h List.not_mem_nil
  | some p =>
    simp only [projectOrigins] at h
    split_ifs at h with hp
    · exact ⟨p, rfl, List.mem_singleton.mp h⟩
    · exact absurd h List.not_mem_nil

theorem sourcesOf_own {m : Manager} {inventoryId : Option ℕ} {s : InventorySource}
    (h : s ∈ sourcesOf m inventoryId) :
    (s ∈ m.db.inventorySources ∨ s ∈ cachedSources m.cache inventoryId) ∧
      s.inventoryId.isSome ∧ s.inventoryId = inventoryId ∧ s.updateOnLaunch := by
  rcases List.mem_append.mp h with h | h
  · refine ⟨.inr h, ?_⟩
    cases inventoryId with
    | none => exact absurd h List.not_mem_nil
    | some i =>
      rw [cachedSources, Option.elim_some, Dict.getD] at h
      cases hg : m.cache.allInventorySources.get? i with
      | none => rw [hg] at h; exact absurd h List.not_mem_nil
      | some ss =>
        rw [hg] at h
        obtain ⟨hi, hu⟩ := m.cache.sources_own i ss hg s h
        exact ⟨by rw [hi]; rfl, hi, hu⟩
  · simp only [List.mem_filter, Bool.and_eq_true, decide_eq_true_eq] at h
    exact ⟨.inl h.1, h.2.1.1, h.2.1.2, h.2.2⟩

/-- By itself a task depends on its own project and sources. -/
theorem origins_own {m : Manager} {t : PendingTask} {o : Origin} (h : o ∈ origins m t) :
    Owns m t o := by
  unfold origins at h
  unfold Owns
  cases hk : t.kind with
  | job projectId inventoryId alreadyUpdated =>
    rw [hk] at h
    rcases List.mem_append.mp h with h | h
    · exact .inl (projectOrigins_own h)
    · obtain ⟨s, hs, rfl⟩ := List.mem_map.mp h
      obtain ⟨hknown, hi, hinv, hu⟩ := sourcesOf_own (List.mem_filter.mp hs).1
      exact .inr ⟨s, hknown, hi, hinv, hu, rfl⟩
  | inventoryUpdate source inventorySource =>
    rw [hk] at h
    dsimp only at h
    split_ifs at h with hs
    · obtain ⟨p, hp, rfl⟩ := projectOrigins_own h
      obtain ⟨s, hs, hsp⟩ := Option.bind_eq_some_iff.mp hp
      exact ⟨s, p, hs, hsp, rfl⟩
    · exact absurd h List.not_mem_nil
  | other =>
    rw [hk] at h
    exact absurd h List.not_mem_nil

/-- In every list drawn from the tasks, each task is linked only to its own project and
sources, and in any two such lists to the same ones. -/
def Isolated (m : Manager) (tasks : List PendingTask) : Prop :=
  ∀ l, l.Subperm tasks → ∀ tzNow r c, generateDependencies tzNow m l = some (r, c) →
    (∀ t ∈ l, ∀ o, r.Linked t o → Owns m t o) ∧
    ∀ l', l'.Subperm tasks → ∀ tzNow' r' c', generateDependencies tzNow' m l' = some (r', c') →
      ∀ t ∈ l, t ∈ l' → ∀ o, r.Linked t o ↔ r'.Linked t o

/-- All tasks that depend on anything depend on the same projects and sources; tasks for
which the choice of an update raises are not counted. -/
def Alike (m : Manager) (tasks : List PendingTask) : Prop :=
  ∀ t ∈ tasks, ∀ t' ∈ tasks, Answered m t → Answered m t' →
    origins m t ≠ [] → origins m t' ≠ [] → ∀ o ∈ origins m t, o ∈ origins m t'

theorem Alike.linked_iff {m : Manager} {tasks l : List PendingTask} (h : Alike m tasks)
    (hl : l.Subperm tasks) {tzNow : ℕ → ℤ} {r : Run} {c : Cache}
    (hr : generateDependencies tzNow m l = some (r, c)) {t : PendingTask} (ht : t ∈ l) (o : Origin) :
    r.Linked t o ↔ o ∈ origins m t := by
  rw [DependencyManager.linked_iff hr]
  constructor
  · rintro ⟨-, hne, ho | ⟨t', hb, ho⟩⟩
    · exact ho
    · have hne' : origins m t' ≠ [] := List.ne_nil_of_mem ho
      exact h t' (hl.subset hb.mem.1) t (hl.subset ht) (answered_of_generate hr hb.mem.1)
        (answered_of_generate hr ht) hne' hne o ho
  · exact fun ho => ⟨ht, List.ne_nil_of_mem ho, .inl ho⟩

theorem Isolated.alike {m : Manager} {tasks : List PendingTask} (h : Isolated m tasks) :
    Alike m tasks := by
  intro t ht t' ht' hans hans' hne hne' o ho
  by_cases heq : t = t'
  · exact heq ▸ ho
  · -- `t'` after `t` against `t'` alone
    have hpair : List.Subperm [t, t'] tasks :=
      List.subperm_of_subset (by simpa using heq) (by simp [ht, ht'])
    have halone : List.Subperm [t'] tasks := List.singleton_subperm_iff.mpr ht'
    obtain ⟨r, c, hr⟩ := generate_of_answered m [t, t'] (fun _ => 0)
      (by simp [hans, hans'])
    obtain ⟨r', c', hr'⟩ := generate_of_answered m [t'] (fun _ => 0)
      (by simp [hans'])
    have hsame := (h _ hpair _ r c hr).2 _ halone _ r' c' hr' t' (by simp) (by simp) o
    rw [linked_iff hr, linked_iff hr'] at hsame
    obtain ⟨-, -, ho' | ⟨x, hb, -⟩⟩ :=
      hsame.mp ⟨by simp, hne', .inr ⟨t, List.Sublist.refl _, ho⟩⟩
    · exact ho'
    · exact absurd (List.Sublist.length_le hb) (by simp)

/-- Two projects that update on launch and have never been updated. -/
def twoProjects : Manager where
  cache := .empty
  db := ⟨[⟨1, true, 0⟩, ⟨2, true, 0⟩], [], [], 10, [], 0⟩

def firstJob : PendingTask := ⟨5, .job (some 1) none none⟩

def secondJob : PendingTask := ⟨6, .job (some 2) none none⟩

end Forail.Scheduler.DependencyManager
