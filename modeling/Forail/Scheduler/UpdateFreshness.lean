import Forail.Scheduler.DependencyChecks

/-! Which updates a series of checks creates. Whether a check creates one is settled by the
rows of the start, the instants, and the checks before it: the first check that finds the
latest update outdated creates one, and no later check does. A later check fails if
`signal_start` refused that update. -/

namespace Forail.Scheduler.DependencyPass

open DependencyManager

/-- The latest update is missing, failed, canceled, in error, or finished longer ago than the
cache timeout. -/
def outdated (latest : Option Update) (cacheTimeout : ℕ) (now : ℤ) : Bool :=
  match latest with
  | none => true
  | some u => u.status ∈ [Status.failed, .canceled, .error] ||
      (u.status ∉ [Status.waiting, .pending, .running] &&
        u.finished.any fun finished => finished + 1000000 * cacheTimeout < now)

/-- The update has no end time in a status for which it is read, such as `new`. -/
def stuck (latest : Option Update) : Bool :=
  latest.any fun u => u.finished.isNone &&
    u.status ∉ [Status.failed, .canceled, .error, .waiting, .pending, .running]

theorem shouldUpdateAgain_eq (latest : Option Update) (cacheTimeout : ℕ) (now : ℤ) :
    shouldUpdateAgain latest cacheTimeout now =
      if stuck latest then none else some (outdated latest cacheTimeout now) := by
  cases latest with
  | none => rfl
  | some u =>
    obtain ⟨id, origin, jobType, status, finished⟩ := u
    cases status <;> cases finished <;> simp [shouldUpdateAgain, stuck, outdated]

theorem not_stuck_of_outdated {latest : Option Update} {cacheTimeout : ℕ} {now : ℤ}
    (h : outdated latest cacheTimeout now = true) : stuck latest = false := by
  cases latest with
  | none => rfl
  | some u =>
    obtain ⟨id, origin, jobType, status, finished⟩ := u
    cases status <;> cases finished <;> simp_all [stuck, outdated]

/-- One of the checks finds the latest update of the project or source outdated. The rows are
those before all checks, each check has its own instant. -/
def expired (site : Site) (db : Db) (checks : List (Origin × ℕ)) (o : Origin) : Bool :=
  (checks.zipIdx db.ticks).any fun c =>
    c.1.1 = o && outdated (db.forget.latest o) c.1.2 (site.tzNow c.2)

section Expired
variable {site : Site} {db : Db} {done : List (Origin × ℕ)}

@[simp] theorem expired_nil (o : Origin) : expired site db [] o = false := rfl

theorem expired_concat (c : Origin × ℕ) (o : Origin) : expired site db (done ++ [c]) o =
    (expired site db done o || (c.1 = o &&
      outdated (db.forget.latest o) c.2 (site.tzNow (db.ticks + done.length)))) := by
  simp [expired, List.zipIdx_append]

theorem not_stuck_of_expired {o : Origin} (h : expired site db done o = true) :
    stuck (db.forget.latest o) = false := by
  obtain ⟨c, -, hc⟩ := List.any_eq_true.mp h
  rw [Bool.and_eq_true] at hc
  exact not_stuck_of_outdated hc.2

end Expired

/-- The status of a new update after `signal_start`. -/
def startStatus (started : Bool) : Status := if started then .pending else .new

/-- The state after the checks `done` of the rows `db₀`. -/
structure After (site : Site) (db₀ : Db) (done : List (Origin × ℕ)) (db : Db) : Prop where
  ticks : db.ticks = db₀.ticks + done.length
  tables : db.projects = db₀.projects ∧ db.inventorySources = db₀.inventorySources ∧
    db.source = db₀.source
  kept : ∀ o, expired site db₀ done o = false → db.forget.latest o = db₀.forget.latest o
  renewed : ∀ o, expired site db₀ done o = true → ∃ u, db.forget.latest o = some u ∧
    u.status = startStatus (site.signalStart o) ∧ u.finished = none
  created : ∃ new, db.updates = new ++ db₀.updates ∧ (new.map Update.origin).Nodup ∧
    ∀ o, o ∈ new.map Update.origin ↔ expired site db₀ done o = true

/-- The check is answered: the latest update was not left without an end time, and no update
that the checks before it created was refused. -/
def Answered (site : Site) (db : Db) (done : List (Origin × ℕ)) (o : Origin) : Prop :=
  stuck (db.forget.latest o) = false ∧
    (expired site db done o = true → site.signalStart o = true)

theorem Db.updates_createUpdate (db : Db) (started : Bool) (o : Origin) :
    (db.createUpdate started o).2.updates =
      (db.createUpdate started o).1.toUpdate :: db.updates := rfl

section AfterLemmas
variable {site : Site} {db₀ db : Db} {done : List (Origin × ℕ)}

theorem After.start (site : Site) (db : Db) : After site db [] db where
  ticks := rfl
  tables := ⟨rfl, rfl, rfl⟩
  kept := fun _ _ => rfl
  renewed := fun o h => absurd h Bool.false_ne_true
  created := ⟨[], rfl, List.nodup_nil, fun o => by simp⟩

theorem After.stuck_iff (h : After site db₀ done db) (o : Origin) :
    stuck (db.forget.latest o) = false ↔ Answered site db₀ done o := by
  unfold Answered
  cases he : expired site db₀ done o with
  | false => simp [h.kept o he]
  | true =>
    obtain ⟨u, hu, hstatus, hfinished⟩ := h.renewed o he
    rw [hu, not_stuck_of_expired he]
    cases hs : site.signalStart o <;> simp [stuck, hstatus, hfinished, startStatus, hs]

/-- An update that the checks created is not outdated. -/
theorem After.outdated_eq (h : After site db₀ done db) (o : Origin) (cacheTimeout : ℕ) (now : ℤ) :
    outdated (db.forget.latest o) cacheTimeout now =
      (!expired site db₀ done o && outdated (db₀.forget.latest o) cacheTimeout now) := by
  cases he : expired site db₀ done o with
  | false => rw [h.kept o he, Bool.not_false, Bool.true_and]
  | true =>
    obtain ⟨u, hu, hstatus, hfinished⟩ := h.renewed o he
    rw [hu]
    cases hs : site.signalStart o <;> simp [outdated, hstatus, hfinished, startStatus, hs]

/-- The decision of the next check. -/
theorem After.decision (h : After site db₀ done db) (o : Origin) (cacheTimeout : ℕ) :
    shouldUpdateAgain ((db.latest o).map Row.toUpdate) cacheTimeout (site.tzNow db.ticks) =
      if stuck (db.forget.latest o) then none
      else some (!expired site db₀ done o && outdated (db₀.forget.latest o) cacheTimeout
        (site.tzNow (db₀.ticks + done.length))) := by
  rw [Db.latest_forget, shouldUpdateAgain_eq, h.outdated_eq, h.ticks]

theorem After.answered {o : Origin} {cacheTimeout : ℕ} {r : Row × Db}
    (h : After site db₀ done db) (hr : getOrCreateUpdate site db o cacheTimeout = some r) :
    Answered site db₀ done o := by
  obtain ⟨again, hagain, -⟩ := Option.bind_eq_some_iff.mp hr
  rw [h.decision] at hagain
  rw [← h.stuck_iff]
  by_contra hstuck
  rw [if_pos (Bool.not_eq_false _ ▸ hstuck)] at hagain
  cases hagain

theorem After.isSome {o : Origin} (h : After site db₀ done db) (ho : Answered site db₀ done o)
    (cacheTimeout : ℕ) : ∃ r, getOrCreateUpdate site db o cacheTimeout = some r := by
  have hdecision := h.decision o cacheTimeout
  rw [(h.stuck_iff o).mpr ho, if_neg Bool.false_ne_true] at hdecision
  unfold getOrCreateUpdate
  cases hagain : (!expired site db₀ done o && outdated (db₀.forget.latest o) cacheTimeout
      (site.tzNow (db₀.ticks + done.length))) with
  | true => exact ⟨_, by rw [hdecision, hagain]; rfl⟩
  | false =>
    -- a choice of the latest update means that there is one
    cases hl : db.latest o with
    | none =>
      rw [hagain, hl] at hdecision
      cases hdecision
    | some u => exact ⟨_, by rw [← hl, hdecision, hagain, hl]; rfl⟩

theorem After.step {c : Origin × ℕ} {u : Row} {db' : Db} (h : After site db₀ done db)
    (hc : getOrCreateUpdate site db c.1 c.2 = some (u, db')) :
    After site db₀ (done ++ [c]) db' := by
  have hstuck := (h.stuck_iff c.1).mpr (h.answered hc)
  have hdecision := h.decision c.1 c.2
  rw [hstuck, if_neg Bool.false_ne_true] at hdecision
  rcases getOrCreateUpdate_cases hc with ⟨hagain, -, rfl⟩ | ⟨hagain, -, rfl⟩
  · -- the first check to find it outdated
    rw [hagain, Option.some.injEq, eq_comm, Bool.and_eq_true, Bool.not_eq_true'] at hdecision
    obtain ⟨hfresh, hout⟩ := hdecision
    have hexpired (o : Origin) : expired site db₀ (done ++ [c]) o = true ↔
        expired site db₀ done o = true ∨ o = c.1 := by
      rw [expired_concat, Bool.or_eq_true, Bool.and_eq_true, decide_eq_true_iff]
      constructor
      · exact fun ho => ho.imp_right fun ho => ho.1.symm
      · rintro (ho | rfl)
        · exact .inl ho
        · exact .inr ⟨rfl, hout⟩
    obtain ⟨new, hnew, hnodup, hmem⟩ := h.created
    refine ⟨?_, h.tables, fun o ho => ?_, fun o ho => ?_, ?_⟩
    · rw [List.length_append, ← Nat.add_assoc, ← h.ticks]
      rfl
    · rw [Bool.eq_false_iff, Ne, hexpired, not_or] at ho
      rw [← Db.latest_forget, Db.latest_createUpdate, if_neg ho.2, Db.latest_tick, Db.latest_forget]
      exact h.kept o (Bool.eq_false_iff.mpr ho.1)
    · rw [← Db.latest_forget, Db.latest_createUpdate]
      by_cases hoc : o = c.1
      · subst hoc
        rw [if_pos rfl]
        exact ⟨_, rfl, rfl, rfl⟩
      · rw [if_neg hoc, Db.latest_tick, Db.latest_forget]
        exact h.renewed o (((hexpired o).mp ho).resolve_right hoc)
    · refine ⟨(db.tick.createUpdate (site.signalStart c.1) c.1).1.toUpdate :: new, ?_, ?_, fun o => ?_⟩
      · rw [Db.updates_createUpdate, List.cons_append, ← hnew]
        rfl
      · rw [List.map_cons, List.nodup_cons]
        refine ⟨fun hc => ?_, hnodup⟩
        have hold : expired site db₀ done c.1 = true := (hmem c.1).mp hc
        rw [hfresh] at hold
        cases hold
      · rw [List.map_cons, List.mem_cons, hmem, hexpired, or_comm]
        rfl
  · have hexpired (o : Origin) : expired site db₀ (done ++ [c]) o = expired site db₀ done o := by
      rw [expired_concat]
      by_cases hoc : c.1 = o
      · subst hoc
        rw [hagain, Option.some.injEq] at hdecision
        cases he : expired site db₀ done c.1 with
        | true => rfl
        | false =>
          rw [he, Bool.not_false, Bool.true_and] at hdecision
          rw [← hdecision]
          simp
      · simp [hoc]
    refine ⟨?_, h.tables, ?_, ?_, ?_⟩
    · rw [List.length_append, ← Nat.add_assoc, ← h.ticks]
      rfl
    · exact fun o ho => h.kept o (hexpired o ▸ ho)
    · exact fun o ho => h.renewed o (hexpired o ▸ ho)
    · simp only [hexpired]
      exact h.created

/-! ### A series of checks -/

/-- Every check of the series is answered. -/
def AllAnswered (site : Site) (db : Db) (done checks : List (Origin × ℕ)) : Prop :=
  ∀ before c after, checks = before ++ c :: after → Answered site db (done ++ before) c.1

theorem allAnswered_cons {c : Origin × ℕ} {cs : List (Origin × ℕ)} :
    AllAnswered site db₀ done (c :: cs) ↔
      Answered site db₀ done c.1 ∧ AllAnswered site db₀ (done ++ [c]) cs := by
  constructor
  · intro h
    refine ⟨by simpa using h [] c cs rfl, fun before c' after heq => ?_⟩
    rw [List.append_assoc]
    exact h (c :: before) c' after (by rw [heq]; rfl)
  · rintro ⟨hc, hcs⟩ before c' after heq
    cases before with
    | nil =>
      obtain ⟨rfl, -⟩ := List.cons.inj heq
      simpa using hc
    | cons b before =>
      obtain ⟨rfl, hrest⟩ := List.cons.inj heq
      have := hcs before c' after hrest
      rwa [List.append_assoc] at this

theorem allAnswered_append {cs cs' : List (Origin × ℕ)} :
    AllAnswered site db₀ done (cs ++ cs') ↔
      AllAnswered site db₀ done cs ∧ AllAnswered site db₀ (done ++ cs) cs' := by
  induction cs generalizing done with
  | nil =>
    rw [List.nil_append, List.append_nil]
    refine ⟨fun h => ⟨fun before c after heq => ?_, h⟩, And.right⟩
    exact absurd heq (by simp)
  | cons c cs ih =>
    rw [List.cons_append, allAnswered_cons, allAnswered_cons, ih, and_assoc, List.append_assoc]
    rfl

theorem After.collect {cs : List (Origin × ℕ)} {us : List Row} {db' : Db}
    (h : After site db₀ done db) (hc : collect site cs db = some (us, db')) :
    After site db₀ (done ++ cs) db' ∧ AllAnswered site db₀ done cs := by
  induction cs generalizing done db us with
  | nil =>
    cases hc
    refine ⟨by simpa using h, fun before c after heq => absurd heq (by simp)⟩
  | cons c cs ih =>
    obtain ⟨u, d, vs, hu, hvs, rfl⟩ := collect_cons hc
    obtain ⟨hafter, hall⟩ := ih (h.step hu) hvs
    rw [List.append_assoc] at hafter
    exact ⟨hafter, allAnswered_cons.mpr ⟨h.answered hu, hall⟩⟩

theorem After.collect_isSome {cs : List (Origin × ℕ)} (h : After site db₀ done db)
    (hcs : AllAnswered site db₀ done cs) :
    ∃ us db', DependencyPass.collect site cs db = some (us, db') := by
  induction cs generalizing done db with
  | nil => exact ⟨[], db, rfl⟩
  | cons c cs ih =>
    obtain ⟨hc, hcs⟩ := allAnswered_cons.mp hcs
    obtain ⟨⟨u, d⟩, hu⟩ := h.isSome hc c.2
    obtain ⟨us, db', hus⟩ := ih (h.step hu) hcs
    exact ⟨u :: us, db', by simp [DependencyPass.collect, hu, hus]⟩

end AfterLemmas

end Forail.Scheduler.DependencyPass
