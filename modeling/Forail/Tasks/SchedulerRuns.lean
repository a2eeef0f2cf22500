import Forail.Tasks.PeriodicScheduler

/-! The runs of the periodic scheduler. While no stored `next_run` is the time of a run, no
exception leaves a loop and each `next_run` is computed before the next occurrence, every schedule
with an occurrence since the last run gets one job and the others none. -/

namespace Forail.PeriodicScheduler

variable {ρ : Type} {D : Dateutil ρ} {attempts : ℕ → Attempt} {st st' : SchedulerState ρ}
  {s t : Schedule ρ} {rows table : List (Schedule ρ)}

/-- An exception of its own leaves the schedule without a job. -/
def Attempt.fails (a : Attempt) : Bool :=
  a.failure ∈ [some .compute, some .saved, some .template, some .config]

/-- One job for each schedule with an occurrence since the last run, none for the others. -/
def Run.Exact (D : Dateutil ρ) (schedules : List (Schedule ρ)) (r : Run) : Prop :=
  ∀ s ∈ schedules,
    ((∃ o ∈ occurrences D s.rrule, r.last < o ∧ o ≤ r.now) → (r.attempts s.id).blocked = false →
      (r.attempts s.id).fails = false → r.jobs.count s.id = 1) ∧
    ((¬ ∃ o ∈ occurrences D s.rrule, r.last < o ∧ o ≤ r.now) → r.jobs.count s.id = 0)

/-- The `next_run` of a due schedule can be computed after the run: the time of the computation
comes before the next occurrence, the fast forward keeps the dates from then on, and a date that
does not exist is followed by one that does. -/
structure Timely (D : Dateutil ρ) (now : ℤ) (r : ρ) (a : Attempt) : Prop where
  gap : ∀ o ∈ occurrences D r, now < o → a.time < o
  forward : ∀ u, a.time ≤ u → D.after (rrulestr D r a.parsed) u = D.after r u
  skip : ∀ d, D.after r a.time = some d → d.imaginary = true →
    d.utc ∉ occurrences D r ∧ ∃ d', D.after r d.utc = some d' ∧ d'.imaginary = false

/-- No schedule has its `next_run` at the time of the run, and a due one is handled in time and
without an exception but in its launch. -/
structure Steady (D : Dateutil ρ) (st : SchedulerState ρ) (e : ℤ × (ℕ → Attempt)) : Prop where
  boundary : ∀ s ∈ st.schedules, s.nextRun ≠ some e.1
  failure : ∀ s ∈ between st.scheduleLastRun e.1 st.schedules,
    (e.2 s.id).failure ∈ [none, some .config, some .start]
  timely : ∀ s ∈ between st.scheduleLastRun e.1 st.schedules, Timely D e.1 s.rrule (e.2 s.id)

/-! ### The next run -/

theorem Timely.nextRunActual {now : ℤ} {r : ρ} {a : Attempt} (h : Timely D now r a)
    (hnow : now ≤ a.time) : ∃ x, nextRunActual D (rrulestr D r a.parsed) a.time = .ok x ∧
      NextAfter (occurrences D r) now x := by
  have hnext : ∀ x, NextAfter (occurrences D r) a.time x → NextAfter (occurrences D r) now x :=
    fun x hx => hx.of_le hnow h.gap
  rw [PeriodicScheduler.nextRunActual, h.forward _ (Int.le_refl _)]
  cases hd : D.after r a.time with
  | none =>
    refine ⟨none, rfl, hnext none ?_⟩
    rintro o ⟨d, hmem, -, rfl⟩
    exact D.after_none hd d hmem
  | some d =>
    obtain ⟨hmem, hlt, hleast⟩ := D.after_some hd
    cases hreal : d.imaginary with
    | false =>
      refine ⟨some d.utc, by simp [hreal], hnext _ ⟨⟨⟨d, hmem, hreal, rfl⟩, hlt⟩, ?_⟩⟩
      rintro o ⟨⟨d', hmem', -, rfl⟩, hlt'⟩
      exact hleast d' hmem' hlt'
    | true =>
      obtain ⟨hnot, d', hd', hreal'⟩ := h.skip d hd hreal
      obtain ⟨hmem', hlt', hleast'⟩ := D.after_some hd'
      refine ⟨some d'.utc, by simp [hreal, h.forward _ hlt.le, hd'], hnext _
        ⟨⟨⟨d', hmem', hreal', rfl⟩, hlt.trans hlt'⟩, ?_⟩⟩
      rintro o ⟨⟨d'', hmem'', hreal'', rfl⟩, hlt''⟩
      -- it is not the instant of the date that is skipped
      have hne : d.utc ≠ d''.utc := fun heq => hnot ⟨d'', hmem'', hreal'', heq.symm⟩
      exact hleast' d'' hmem'' (lt_of_le_of_ne (hleast d'' hmem'' hlt'') hne)

/-- The row after the update. -/
structure Updated (D : Dateutil ρ) (now : ℤ) (s s' : Schedule ρ) : Prop where
  id : s'.id = s.id
  rrule : s'.rrule = s.rrule
  enabled : s'.enabled = s.enabled
  next : NextAfter (occurrences D s.rrule) now s'.nextRun

theorem Timely.updateComputedFields {now : ℤ} {a : Attempt} (h : Timely D now s.rrule a)
    (hnow : now ≤ a.time) (henabled : s.enabled = true)
    (hfailure : a.failure ∈ [none, some .config, some .start]) :
    ∃ s', s.updateComputedFields D a = (s', false) ∧ Updated D now s s' := by
  obtain ⟨x, hx, hnext⟩ := h.nextRunActual hnow
  have hcompute : a.failure ≠ some .compute := fun he => by simp [he] at hfailure
  have hsaved : a.failure ≠ some .saved := fun he => by simp [he] at hfailure
  refine ⟨{ s with
    nextRun := x
    dtstart := (D.first (rrulestr D s.rrule a.parsed)).map Datetime.utc
    dtend := getEndDate D (rrulestr D s.rrule a.parsed) }, ?_, rfl, rfl, rfl, hnext⟩
  rw [Schedule.updateComputedFields, if_neg hcompute, Schedule.updateComputedFieldsNoSave,
    if_pos henabled, hx]
  simp only [bind, Except.bind, decide_eq_false hsaved, Bool.and_false]

/-! ### The loops -/

theorem mem_write (h : t ∈ write table s) : t = s ∨ t ∈ table ∧ t.id ≠ s.id := by
  obtain ⟨x, hx, rfl⟩ := Keyed.mem_modify.mp h
  split_ifs with hid
  · exact .inl rfl
  · exact .inr ⟨hx, hid⟩

theorem ids_write : (write table s).map Schedule.id = table.map Schedule.id := by
  rw [write, Keyed.modify, List.map_map]
  refine List.map_congr_left fun x _ => ?_
  rw [Function.comp_apply]
  split_ifs with hid
  · exact hid.symm
  · rfl

/-- The loop writes the rows one after the other. -/
def writeAll (f : Schedule ρ → Schedule ρ) (table rows : List (Schedule ρ)) : List (Schedule ρ) :=
  rows.foldl (fun table s => write table (f s)) table

theorem ids_writeAll (f : Schedule ρ → Schedule ρ) :
    (writeAll f table rows).map Schedule.id = table.map Schedule.id := by
  induction rows generalizing table with
  | nil => rfl
  | cons s rows ih => exact Eq.trans ih ids_write

theorem mem_writeAll {f : Schedule ρ → Schedule ρ} (hf : ∀ s ∈ rows, (f s).id = s.id)
    (h : t ∈ writeAll f table rows) :
    (∃ s ∈ rows, t = f s) ∨ t ∈ table ∧ t.id ∉ rows.map Schedule.id := by
  induction rows generalizing table with
  | nil => exact .inr ⟨h, List.not_mem_nil⟩
  | cons s rows ih =>
    rcases ih (fun s' hs' => hf s' (List.mem_cons_of_mem s hs')) h with ⟨s', hs', ht⟩ | ⟨ht, hids⟩
    · exact .inl ⟨s', List.mem_cons_of_mem s hs', ht⟩
    · rcases mem_write ht with ht | ⟨ht, hid⟩
      · exact .inl ⟨s, List.mem_cons_self, ht⟩
      · refine .inr ⟨ht, fun hmem => ?_⟩
        rcases List.mem_cons.mp hmem with heq | hmem
        · exact hid (heq.trans (hf s List.mem_cons_self).symm)
        · exact hids hmem

/-- The schedule gets a job when the loop comes to it. -/
def launched (attempts : ℕ → Attempt) (s : Schedule ρ) : Bool :=
  !(attempts s.id).blocked && decide ((attempts s.id).failure ≠ some .config)

/-- Without an exception past the launches, the loop goes over all schedules. -/
theorem runDue_eq {jobs : List ℕ}
    (hend : ∀ s ∈ rows, (s.updateComputedFields D (attempts s.id)).2 = false)
    (hfailure : ∀ s ∈ rows, (attempts s.id).failure ∈ [none, some .config, some .start]) :
    runDue D attempts table jobs rows =
      (writeAll (fun s => (s.updateComputedFields D (attempts s.id)).1) table rows,
        jobs ++ (rows.filter (launched attempts)).map Schedule.id) := by
  induction rows generalizing table jobs with
  | nil => rw [runDue, List.filter_nil, List.map_nil, List.append_nil, writeAll, List.foldl_nil]
  | cons s rows ih =>
    have hend' := hend s List.mem_cons_self
    have hfailure' := hfailure s List.mem_cons_self
    have ih' := fun table jobs => @ih table jobs
      (fun s' hs' => hend s' (List.mem_cons_of_mem s hs'))
      fun s' hs' => hfailure s' (List.mem_cons_of_mem s hs')
    rw [runDue]
    cases hs' : s.updateComputedFields D (attempts s.id) with
    | mk s' raised =>
      rw [hs'] at hend'
      obtain rfl : raised = false := hend'
      rw [writeAll, List.foldl_cons, hs', ← writeAll, List.filter_cons, launched]
      cases hblocked : (attempts s.id).blocked with
      | true =>
        simp only [List.mem_cons, List.not_mem_nil, or_false] at hfailure'
        rcases hfailure' with hf | hf | hf <;> simp [hf, ih']
      | false =>
        simp only [List.mem_cons, List.not_mem_nil, or_false] at hfailure'
        rcases hfailure' with hf | hf | hf <;> simp [hf, ih']

theorem runOld_nil : runOld D attempts table [] = (table, false) := rfl

/-! ### The invariant -/

structure UpToDate (D : Dateutil ρ) (st : SchedulerState ρ) : Prop where
  ids : (st.schedules.map Schedule.id).Nodup
  enabled : ∀ s ∈ st.schedules, s.enabled = true
  next : ∀ s ∈ st.schedules, NextAfter (occurrences D s.rrule) st.scheduleLastRun s.nextRun
  exact : ∀ r ∈ st.runs, r.Exact D st.schedules

theorem mem_between {b e : ℤ} :
    s ∈ between b e rows ↔ s ∈ rows ∧ ∃ o ∈ s.nextRun, b < o ∧ o < e := by
  simp only [between, before, after, List.mem_filter, Option.any_eq_true, decide_eq_true_iff,
    Option.mem_def]
  constructor
  · rintro ⟨⟨hs, o, ho, hlt⟩, o', ho', hlt'⟩
    obtain rfl := Option.some.inj (ho.symm.trans ho')
    exact ⟨hs, o, ho, hlt, hlt'⟩
  · rintro ⟨hs, o, ho, hlt, hlt'⟩
    exact ⟨⟨hs, o, ho, hlt⟩, o, ho, hlt'⟩

theorem mem_query {now : ℤ} : s ∈ query (between st.scheduleLastRun now st.schedules) ↔
    s ∈ between st.scheduleLastRun now st.schedules :=
  (List.perm_insertionSort _ _).mem_iff

theorem UpToDate.enabled_eq (h : UpToDate D st) : PeriodicScheduler.enabled st.schedules = st.schedules :=
  List.filter_eq_self.mpr h.enabled

/-- No schedule is old. -/
theorem UpToDate.before_eq (h : UpToDate D st) : before st.scheduleLastRun st.schedules = [] := by
  refine List.filter_eq_nil_iff.mpr fun s hs hany => ?_
  obtain ⟨o, ho, hlt⟩ := (Option.any_eq_true _ _).mp hany
  exact absurd ((h.next s hs).lt ho) (not_lt.mpr (of_decide_eq_true hlt).le)

/-- The rows that a run finds, and what it leaves. -/
theorem UpToDate.run_eq (h : UpToDate D st) {now : ℤ}
    (hend : ∀ s ∈ between st.scheduleLastRun now st.schedules,
      (s.updateComputedFields D (attempts s.id)).2 = false)
    (hfailure : ∀ s ∈ between st.scheduleLastRun now st.schedules,
      (attempts s.id).failure ∈ [none, some .config, some .start]) :
    awxPeriodicScheduler D attempts st now =
      ⟨now, writeAll (fun s => (s.updateComputedFields D (attempts s.id)).1) st.schedules
          (query (between st.scheduleLastRun now st.schedules)),
        st.runs ++ [⟨st.scheduleLastRun, now, attempts,
          ((query (between st.scheduleLastRun now st.schedules)).filter (launched attempts)).map
            Schedule.id⟩]⟩ := by
  have hold : query (before st.scheduleLastRun st.schedules) = [] := by
    rw [h.before_eq]
    rfl
  simp only [awxPeriodicScheduler, h.enabled_eq, hold, runOld_nil, Bool.false_eq_true, if_false]
  rw [runDue_eq (fun s hs => hend s (mem_query.mp hs)) fun s hs => hfailure s (mem_query.mp hs),
    List.nil_append]

/-- A schedule is due by its `next_run` when it has an occurrence. -/
theorem UpToDate.between_iff (h : UpToDate D st) {now : ℤ} (hs : s ∈ st.schedules)
    (hboundary : s.nextRun ≠ some now) : s ∈ between st.scheduleLastRun now st.schedules ↔
      ∃ o ∈ occurrences D s.rrule, st.scheduleLastRun < o ∧ o ≤ now := by
  rw [(h.next s hs).exists_le_iff, mem_between]
  constructor
  · rintro ⟨-, o, ho, -, hlt⟩
    exact ⟨o, ho, hlt.le⟩
  · rintro ⟨o, ho, hle⟩
    refine ⟨hs, o, ho, (h.next s hs).lt ho, lt_of_le_of_ne hle fun heq => hboundary ?_⟩
    rw [← heq]
    exact ho

theorem UpToDate.nodup_query (h : UpToDate D st) (now : ℤ) :
    ((query (between st.scheduleLastRun now st.schedules)).map Schedule.id).Nodup := by
  refine ((List.perm_insertionSort _ _).map Schedule.id).nodup_iff.mpr ?_
  exact h.ids.sublist ((List.filter_sublist.trans List.filter_sublist).map _)

/-- A run that comes to all due schedules is exact. -/
theorem UpToDate.run_exact (h : UpToDate D st) {now : ℤ}
    (hboundary : ∀ s ∈ st.schedules, s.nextRun ≠ some now) :
    Run.Exact D st.schedules ⟨st.scheduleLastRun, now, attempts,
      ((query (between st.scheduleLastRun now st.schedules)).filter (launched attempts)).map
        Schedule.id⟩ := by
  intro s hs
  dsimp only
  rw [← h.between_iff hs (hboundary s hs), ← mem_query]
  refine ⟨fun hdue hblocked hfails => ?_, fun hnot => ?_⟩
  · refine List.count_eq_one_of_mem ((h.nodup_query now).sublist (List.filter_sublist.map _)) ?_
    refine List.mem_map_of_mem (List.mem_filter.mpr ⟨hdue, ?_⟩)
    have hconfig : (attempts s.id).failure ≠ some .config := fun he => by
      simp [Attempt.fails, he] at hfails
    rw [launched, hblocked, decide_eq_true hconfig]
    rfl
  · refine List.count_eq_zero_of_not_mem fun hmem => hnot ?_
    obtain ⟨x, hx, hid⟩ := List.mem_map.mp hmem
    have hdue := (List.mem_filter.mp hx).1
    rwa [Keyed.eq_of_key h.ids (mem_between.mp (mem_query.mp hdue)).1 hs hid] at hdue

/-- The rows keep their rules, so the earlier runs stay exact. -/
theorem Run.Exact.of_rules {r : Run} (h : r.Exact D rows)
    (hrules : ∀ t ∈ table, ∃ s ∈ rows, t.id = s.id ∧ t.rrule = s.rrule) : r.Exact D table := by
  intro t ht
  obtain ⟨s, hs, hid, hrule⟩ := hrules t ht
  rw [hid, hrule]
  exact h s hs

theorem UpToDate.step (h : UpToDate D st) {e : ℤ × (ℕ → Attempt)} (hs : exec D st e = some st')
    (hsteady : Steady D st e) : UpToDate D st' := by
  obtain ⟨⟨hlt, htimes⟩, hs⟩ := Option.ite_none_right_eq_some.mp hs
  obtain ⟨now, attempts⟩ := e
  have hupdated : ∀ s ∈ between st.scheduleLastRun now st.schedules,
      ∃ s', s.updateComputedFields D (attempts s.id) = (s', false) ∧ Updated D now s s' := by
    intro s hdue
    have hrow := (mem_between.mp hdue).1
    have htime := htimes s hrow
    exact (hsteady.timely s hdue).updateComputedFields (htime.1.trans htime.2) (h.enabled s hrow)
      (hsteady.failure s hdue)
  have hrun := h.run_eq (fun s hdue => by obtain ⟨s', hs', -⟩ := hupdated s hdue; rw [hs'])
    hsteady.failure
  rw [← Option.some.inj hs, hrun]
  have hwritten : ∀ s ∈ between st.scheduleLastRun now st.schedules,
      Updated D now s (s.updateComputedFields D (attempts s.id)).1 := by
    intro s hdue
    obtain ⟨s', hs', hupd⟩ := hupdated s hdue
    rwa [hs']
  -- a row of the new table is that of a due schedule, or it was there and its next run is later
  have hrows : ∀ t ∈ writeAll (fun s => (s.updateComputedFields D (attempts s.id)).1) st.schedules
        (query (between st.scheduleLastRun now st.schedules)),
      ∃ s ∈ st.schedules, Updated D now s t := by
    intro t ht
    rcases mem_writeAll (fun s hs => (hwritten s (mem_query.mp hs)).id) ht with ⟨s, hs, rfl⟩ | ⟨ht, hids⟩
    · exact ⟨s, (mem_between.mp (mem_query.mp hs)).1, hwritten s (mem_query.mp hs)⟩
    · refine ⟨t, ht, rfl, rfl, rfl, (h.next t ht).advance hlt.le fun o ho => ?_⟩
      have hnot : t ∉ between st.scheduleLastRun now st.schedules :=
        fun hdue => hids (List.mem_map_of_mem (mem_query.mpr hdue))
      rw [h.between_iff ht (hsteady.boundary t ht), (h.next t ht).exists_le_iff] at hnot
      exact not_le.mp fun hle => hnot ⟨o, ho, hle⟩
  refine ⟨?_, fun t ht => ?_, fun t ht => ?_, fun r hr => ?_⟩
  · rw [ids_writeAll]
    exact h.ids
  · obtain ⟨s, hs, hupd⟩ := hrows t ht
    exact hupd.enabled.trans (h.enabled s hs)
  · obtain ⟨s, hs, hupd⟩ := hrows t ht
    rw [hupd.rrule]
    exact hupd.next
  · have hexact : r.Exact D st.schedules := by
      rcases List.mem_append.mp hr with hr | hr
      · exact h.exact r hr
      · rw [List.mem_singleton.mp hr]
        exact h.run_exact hsteady.boundary
    refine hexact.of_rules fun t ht => ?_
    obtain ⟨s, hs, hupd⟩ := hrows t ht
    exact ⟨s, hs, hupd.id, hupd.rrule⟩

theorem upToDate_init (h : (scheduler D).init st) : UpToDate D st := by
  obtain ⟨hids, hruns, hrows⟩ := h
  refine ⟨hids, fun s hs => (hrows s hs).1, fun s hs => (hrows s hs).2, fun r hr => ?_⟩
  rw [hruns] at hr
  cases hr

/-- In a run whose steps are all steady, each schedule gets its job once for each interval. -/
theorem runs_exact (h : ((scheduler D).restrict (Steady D)).Reachable st) :
    ∀ r ∈ st.runs, r.Exact D st.schedules := by
  have hinv : UpToDate D st := by
    refine System.Reachable.invariant (S := (scheduler D).restrict (Steady D))
      (fun _ hi => upToDate_init (D := D) hi) (fun s e s' _ hinv hs => ?_) h
    exact hinv.step hs.1 hs.2
  exact hinv.exact

/-! ### Rules that list their dates -/

/-- The dates of a daily rule with a COUNT, in order. -/
def DateList : Type := {l : List Datetime // l.Pairwise fun d d' => d.utc ≤ d'.utc}

theorem DateList.find?_least {l : List Datetime} (hl : l.Pairwise fun d d' => d.utc ≤ d'.utc)
    {t : ℤ} {d : Datetime} (h : l.find? (fun d => t < d.utc) = some d) :
    ∀ d' ∈ l, t < d'.utc → d.utc ≤ d'.utc := by
  obtain ⟨-, l₁, l₂, rfl, hl₁⟩ := List.find?_eq_some_iff_append.mp h
  intro d' hd' hlt
  rcases List.mem_append.mp hd' with hd' | hd'
  · have hnot := hl₁ d' hd'
    simp [hlt] at hnot
  · rcases List.mem_cons.mp hd' with rfl | hd'
    · exact le_rfl
    · exact List.rel_of_pairwise_cons (List.pairwise_append.mp hl).2.1 hd'

def listed : Dateutil DateList where
  rules r := [⟨.daily, r.1.length, none⟩]
  dates r := {d | d ∈ r.1}
  first r := r.1.head?
  last r := r.1.getLast?
  after r t := r.1.find? fun d => t < d.utc
  restart r _ := r
  after_some := fun {r t d} h => ⟨List.mem_of_find?_eq_some h,
    by simpa using List.find?_some h, DateList.find?_least r.2 h⟩
  after_none := fun h d hd => by simpa using List.find?_eq_none.mp h d hd

/-- Two schedules with three dates each. -/
def twoSchedules : SchedulerState DateList :=
  ⟨0, [1, 2].map fun i => ⟨i, ⟨[⟨10, false⟩, ⟨20, false⟩, ⟨30, false⟩], by decide⟩, true, some 10,
    some 10, some 30⟩, []⟩

theorem twoSchedules_init : (scheduler listed).init twoSchedules := by
  refine ⟨by decide, rfl, fun s hs => ?_⟩
  obtain ⟨i, -, rfl⟩ := List.mem_map.mp hs
  refine ⟨rfl, ⟨⟨⟨10, false⟩, List.mem_cons_self, rfl, rfl⟩, (by decide : (0 : ℤ) < 10)⟩, ?_⟩
  rintro o ⟨⟨d, hd, -, rfl⟩, -⟩
  have hle : ∀ d ∈ [(⟨10, false⟩ : Datetime), ⟨20, false⟩, ⟨30, false⟩], (10 : ℤ) ≤ d.utc := by decide
  exact hle d hd

/-- A run without trouble. -/
def quiet (now : ℤ) : ℤ × (ℕ → Attempt) := ⟨now, fun _ => ⟨now, now, false, none⟩⟩

/-- A run at the time of an occurrence; an exception in the first schedule; the first schedule is
computed anew only after its next occurrence. -/
def missing : List (List (ℤ × (ℕ → Attempt))) :=
  [[quiet 10],
    [⟨15, fun i => ⟨15, 15, false, if i = 1 then some .compute else none⟩⟩],
    [⟨15, fun i => ⟨15, if i = 1 then 21 else 15, false, none⟩⟩, quiet 25]]

/-- Some run left a schedule without a job for one of its dates, and not because of an exception
of its own. -/
def Missed (st : SchedulerState DateList) : Prop :=
  ∃ r ∈ st.runs, ∃ s ∈ st.schedules, ∃ d ∈ s.rrule.1, d.imaginary = false ∧ r.last < d.utc ∧
    d.utc ≤ r.now ∧ (r.attempts s.id).blocked = false ∧ (r.attempts s.id).fails = false ∧
    r.jobs.count s.id ≠ 1

instance : DecidablePred Missed := fun st => by
  unfold Missed
  infer_instance

theorem Missed.not_exact {st : SchedulerState DateList} (h : Missed st) :
    ∃ r ∈ st.runs, ¬ r.Exact listed st.schedules := by
  obtain ⟨r, hr, s, hs, d, hd, hreal, hlast, hnow, hblocked, hfails, hcount⟩ := h
  refine ⟨r, hr, fun hexact => hcount ?_⟩
  exact (hexact s hs).1 ⟨d.utc, ⟨d, hd, hreal, rfl⟩, hlast, hnow⟩ hblocked hfails

theorem runs_not_exact : missing ≠ [] ∧ ∀ es ∈ missing, ∃ st,
    System.runAll (exec listed) twoSchedules es = some st ∧ (scheduler listed).Reachable st ∧
      ∃ r ∈ st.runs, ¬ r.Exact listed st.schedules := by
  have hall : ∀ es ∈ missing, (System.runAll (exec listed) twoSchedules es).any
      (fun st => decide (Missed st)) = true := by decide
  refine ⟨List.cons_ne_nil _ _, fun es hes => ?_⟩
  obtain ⟨st, hrun, hmissed⟩ := System.exists_of_runAll (hall es hes)
  have hreach : (scheduler listed).Reachable st :=
    .runAll (fun _ _ _ _ hs => hs) (.init twoSchedules_init) hrun
  exact ⟨st, hrun, hreach, hmissed.not_exact⟩

theorem rrulestr_listed (r : DateList) (now : ℤ) : rrulestr listed r now = r := by
  rw [rrulestr]
  split
  · split_ifs <;> rfl
  · rfl

/-- All dates exist, none is the time of the run, and the schedules are handled at this time. -/
def Clear (st : SchedulerState DateList) (e : ℤ × (ℕ → Attempt)) : Prop :=
  ∀ s ∈ st.schedules, s.nextRun ≠ some e.1 ∧ (∀ d ∈ s.rrule.1, d.imaginary = false) ∧
    (e.2 s.id).failure = none ∧ (e.2 s.id).time = e.1

instance (st : SchedulerState DateList) (e : ℤ × (ℕ → Attempt)) : Decidable (Clear st e) := by
  unfold Clear
  infer_instance

theorem Clear.steady {st : SchedulerState DateList} {e : ℤ × (ℕ → Attempt)} (h : Clear st e) :
    Steady listed st e := by
  refine ⟨fun s hs => (h s hs).1, fun s hs => ?_, fun s hs => ?_⟩
  · rw [(h s (mem_between.mp hs).1).2.2.1]
    exact List.mem_cons_self
  · obtain ⟨-, hreal, -, htime⟩ := h s (mem_between.mp hs).1
    refine ⟨fun o _ hlt => htime ▸ hlt, fun u _ => by rw [rrulestr_listed], fun d hd himag => ?_⟩
    rw [hreal d (listed.after_some hd).1] at himag
    cases himag

/-- Two runs off the dates, each handled at once: both dates get a job for each schedule. -/
theorem runs_exact_of_clear : ∃ st : SchedulerState DateList,
    st.runs.map Run.jobs = [[1, 2], [1, 2]] ∧ ∀ r ∈ st.runs, r.Exact listed st.schedules := by
  obtain ⟨st, hrun, hjobs⟩ : ∃ st, System.runAll (System.guarded (exec listed) Clear) twoSchedules
      [quiet 15, quiet 25] = some st ∧ st.runs.map Run.jobs = [[1, 2], [1, 2]] :=
    System.exists_of_runAll (by decide)
  have hreach : ((scheduler listed).restrict (Steady listed)).Reachable st := by
    refine System.Reachable.runAll (fun e _ s s' hs => ?_) (.init twoSchedules_init) hrun
    obtain ⟨hclear, hs⟩ := Option.ite_none_right_eq_some.mp hs
    exact ⟨hs, hclear.steady⟩
  exact ⟨st, hjobs, runs_exact hreach⟩

end Forail.PeriodicScheduler
