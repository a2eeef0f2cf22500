import Forail.Eda.RunInvariant
import Mathlib.Algebra.Order.Group.Int
import Mathlib.Algebra.Order.Group.Unbundled.Abs

/-! Throttling. A run checks the time of the last firing in its copy of the rule, and its own
firing is recorded after all its actions. So two runs whose actions are executed are apart
by the throttle only where each check comes with a copy that knows of a recent firing
whenever another run has recently passed its check. -/

namespace Forail.Eda

variable {π : Type} {ext : Externals π}

/-- The throttle in microseconds. -/
def throttle : Option EventRule → ℤ
  | some rule => rule.throttleSeconds * 1000000
  | none => 0

theorem throttle_congr {rule rule' : Option EventRule}
    (h : rule.map EventRule.config = rule'.map EventRule.config) : throttle rule = throttle rule' := by
  cases rule <;> cases rule' <;> simp_all [throttle, EventRule.config]

/-- A run that reaches its check with a log that meets the conditions, less than the throttle
after the check of another run whose actions are executed, has read that the rule fired less
than the throttle ago. -/
def Informed (ext : Externals π) (s : State π) : Event π → Prop
  | .check pk now => ∀ run, s.runs.get? pk = some run →
    conditionsMatch ext run.rule run.log = true →
    ∀ pk' other t, pk' ≠ pk → s.runs.get? pk' = some other → other.log.status.launched = true →
      other.checkedAt = some t → now - t < throttle run.rule →
      ∃ rule last, run.rule = some rule ∧ rule.lastFiredAt = some last ∧
        now - last < throttle run.rule
  | _ => True

/-- Runs whose actions are executed have checked the throttle at times that are apart. -/
def Spaced (s : State π) : Prop := ∀ pk pk' run run' t t', pk ≠ pk' →
  s.runs.get? pk = some run → s.runs.get? pk' = some run' → run.log.status.launched = true →
  run'.log.status.launched = true → run.checkedAt = some t → run'.checkedAt = some t' →
  throttle s.rule ≤ |t - t'|

/-- A recent firing throttles the rule. -/
theorem isThrottled_of_recent {rule : EventRule} {now last : ℤ} (hl : rule.lastFiredAt = some last)
    (hn : now - last < throttle (some rule)) (hpos : 0 < throttle (some rule)) :
    rule.isThrottled now = true := by
  unfold throttle at hn hpos
  unfold EventRule.isThrottled
  rw [if_neg (by rintro he; simp [he] at hpos), hl]
  exact decide_eq_true hn

section Preservation
variable {s s' : State π}

theorem Spaced.mono (h : Spaced s) (hrule : throttle s'.rule = throttle s.rule)
    (hruns : ∀ pk run', s'.runs.get? pk = some run' → run'.log.status.launched = true →
      ∃ run, s.runs.get? pk = some run ∧ run.log.status.launched = true ∧
        run.checkedAt = run'.checkedAt) : Spaced s' := by
  intro pk pk' run run' t t' hne hr hr' hl hl' ht ht'
  obtain ⟨run₀, hr₀, hl₀, hc₀⟩ := hruns pk run hr hl
  obtain ⟨run₁, hr₁, hl₁, hc₁⟩ := hruns pk' run' hr' hl'
  rw [hrule]
  exact h pk pk' run₀ run₁ t t' hne hr₀ hr₁ hl₀ hl₁ (hc₀.trans ht) (hc₁.trans ht')

/-- One run goes on, with the time of its check. -/
theorem Spaced.of_run (h : Spaced s) {pk : ℕ} {run run' : Run π}
    (hr : s.runs.get? pk = some run) (hruns : s'.runs = s.runs.set pk run')
    (hl : run'.log.status.launched = true → run.log.status.launched = true)
    (hc : run.checkedAt = run'.checkedAt) (hrule : throttle s'.rule = throttle s.rule) :
    Spaced s' := by
  refine h.mono hrule fun k other hk hlk => ?_
  rw [hruns] at hk
  rcases Dict.of_get?_set hk with ⟨rfl, rfl⟩ | ⟨-, hk⟩
  · exact ⟨run, hr, hl hlk, hc⟩
  · exact ⟨other, hk, hlk, rfl⟩

/-- A run that passes its check is apart from those that did before. -/
theorem Spaced.check (h : Spaced s) (hi : Inv ext s) {pk : ℕ} {now : ℤ} {run : Run π}
    (ht : Informed ext s (.check pk now)) (hr : s.runs.get? pk = some run)
    (hruns : s'.runs = s.runs.set pk
      ⟨run.log.evaluate ext run.rule now, run.rule, .evaluated, some now⟩)
    (hrule : s'.rule = s.rule) : Spaced s' := by
  have hconfig := throttle_congr (hi.run pk run hr).config
  have hapart (k : ℕ) (other : Run π) (t : ℤ) (hne : k ≠ pk) (hk : s.runs.get? k = some other)
      (hlk : other.log.status.launched = true) (hck : other.checkedAt = some t)
      (hl : (run.log.evaluate ext run.rule now).status.launched = true) :
      throttle s.rule ≤ |now - t| := by
    by_contra hlt
    obtain ⟨-, hm, rule, hrule, hthrottled⟩ := evaluate_matched hl
    rw [not_le, ← hconfig] at hlt
    have hrecent : now - t < throttle run.rule := lt_of_le_of_lt (le_abs_self _) hlt
    obtain ⟨rule', last, hrule', hlast, hn⟩ := ht run hr hm k other t hne hk hlk hck hrecent
    obtain rfl := Option.some.inj (hrule.symm.trans hrule')
    rw [hrule] at hn hlt
    rw [isThrottled_of_recent hlast hn (lt_of_le_of_lt (abs_nonneg _) hlt)] at hthrottled
    cases hthrottled
  intro k k' r r' t t' hne hk hk' hl hl' ht ht'
  rw [hrule]
  rw [hruns] at hk hk'
  rcases Dict.of_get?_set hk with ⟨he, rfl⟩ | ⟨he, hk⟩
  · rcases Dict.of_get?_set hk' with ⟨he', -⟩ | ⟨he', hk'⟩
    · exact absurd (he.trans he'.symm) hne
    · obtain rfl := Option.some.inj ht
      exact hapart k' r' t' he' hk' hl' ht' hl
  · rcases Dict.of_get?_set hk' with ⟨-, rfl⟩ | ⟨-, hk'⟩
    · obtain rfl := Option.some.inj ht'
      rw [abs_sub_comm]
      exact hapart k r t he hk hl ht hl'
    · exact h k k' r r' t t' hne hk hk' hl hl' ht ht'

theorem Spaced.step {e : Event π} (h : Spaced s) (hi : Inv ext s) (ht : Informed ext s e)
    (hs : Step ext s e s') : Spaced s' := by
  cases hs with
  | post | answer | accept | reject | create => exact h
  | @start pk log hl hq =>
    obtain ⟨-, row, hrow, hst⟩ := hi.queued pk hq
    obtain rfl := Option.some.inj (hl.symm.trans hrow)
    refine h.mono rfl fun k run hk hlk => ?_
    rcases Dict.of_get?_set hk with ⟨-, rfl⟩ | ⟨-, hk⟩
    · rw [hst] at hlk
      cases hlk
    · exact ⟨run, hk, hlk, rfl⟩
  | check hr => exact h.check hi ht hr rfl rfl
  | saveVerdict hr => exact h.of_run hr rfl id rfl rfl
  | @saveFired pk run hr hp =>
    obtain ⟨row, -, -, hag⟩ := (hi.run pk run hr).row
    rw [hp] at hag
    exact h.of_run hr rfl (fun _ => by rw [hag.2]; rfl) rfl rfl
  | act hr => exact h.of_run hr rfl id rfl rfl
  | record hr =>
    exact h.of_run hr rfl id rfl (throttle_congr (config_recordFiring s.rule _))

theorem spaced (h : ((events ext).restrict (Informed ext)).Reachable s) : Spaced s := by
  refine h.invariant ?_ fun _ _ _ hr hi hs => hi.step (inv hr.of_restrict) hs.2 (exec_step hs.1)
  rintro _ ⟨rule, rfl⟩ pk pk' run run' t t' - hr
  cases hr

end Preservation

/-- In every run a throttled log launches nothing. -/
theorem throttled_launches_nothing {s : State π} (h : (events ext).Reachable s) {f : Executed}
    (hf : f ∈ s.executed) {row : EventLog π} (hrow : s.logs.get? f.log = some row) :
    row.status ≠ .throttled := by
  obtain ⟨row', hrow', hl, -⟩ := (inv h).executed_row hf
  obtain rfl := Option.some.inj (hrow.symm.trans hrow')
  rintro hs
  rw [hs] at hl
  cases hl

/-- In every run whose checks are informed, actions are executed only for logs that were not
throttled, and for two logs only by runs that checked the throttle at times that are apart. -/
theorem throttling {s : State π} (h : ((events ext).restrict (Informed ext)).Reachable s) :
    (∀ f ∈ s.executed, ∀ f' ∈ s.executed, f.log ≠ f'.log → ∀ run run' t t',
      s.runs.get? f.log = some run → s.runs.get? f'.log = some run' →
      run.checkedAt = some t → run'.checkedAt = some t' → throttle s.rule ≤ |t - t'|) ∧
    ∀ f ∈ s.executed, ∀ row, s.logs.get? f.log = some row → row.status ≠ .throttled := by
  have hi := inv h.of_restrict
  refine ⟨fun f hf f' hf' hne run run' t t' hr hr' ht ht' => ?_,
    fun f hf row hrow => throttled_launches_nothing h.of_restrict hf hrow⟩
  obtain ⟨r, hr₀, hl, -⟩ := hi.executed f hf
  obtain ⟨r', hr₀', hl', -⟩ := hi.executed f' hf'
  obtain rfl := Option.some.inj (hr.symm.trans hr₀)
  obtain rfl := Option.some.inj (hr'.symm.trans hr₀')
  exact spaced h f.log f'.log run run' t t' hne hr hr' hl hl' ht ht'

/-! ### Runs one after the other -/

/-- A run starts when all others are done, and a firing is recorded with a time that is not
before any check. -/
def Serial (s : State π) : Event π → Prop
  | .start _ => ∀ k run, s.runs.get? k = some run → run.phase = .done
  | .record _ now => ∀ k run t, s.runs.get? k = some run → run.checkedAt = some t → t ≤ now
  | _ => True

/-- The run that is not done has the row of the rule, and the row knows of all firings. -/
structure Sequential (s : State π) : Prop where
  one : ∀ k k' run run', s.runs.get? k = some run → s.runs.get? k' = some run' →
    run.phase ≠ .done → run'.phase ≠ .done → k = k'
  copy : ∀ k run, s.runs.get? k = some run → run.phase ≠ .done → run.rule = s.rule
  recorded : ∀ k run t, s.runs.get? k = some run → run.phase = .done →
    run.log.status.launched = true → run.checkedAt = some t →
    ∃ rule last, s.rule = some rule ∧ rule.lastFiredAt = some last ∧ t ≤ last

section Sequences
variable {s s' : State π}

/-- The run that is not done goes on. -/
theorem Sequential.of_run (h : Sequential s) {pk : ℕ} {run run' : Run π}
    (hr : s.runs.get? pk = some run) (hp : run.phase ≠ .done)
    (hruns : s'.runs = s.runs.set pk run') (hrule : s'.rule = s.rule) (hcopy : run'.rule = run.rule)
    (hd : run'.phase = .done → run'.log.status.launched = false) : Sequential s' := by
  have hold (k : ℕ) (other : Run π) (hk : s'.runs.get? k = some other) :
      k = pk ∧ other = run' ∨ k ≠ pk ∧ s.runs.get? k = some other := by
    rw [hruns] at hk
    exact Dict.of_get?_set hk
  constructor
  · intro k k' r r' hk hk' hp₁ hp₂
    rcases hold k r hk with ⟨rfl, -⟩ | ⟨hne, hk⟩
    · rcases hold k' r' hk' with ⟨rfl, -⟩ | ⟨-, hk'⟩
      · rfl
      · exact h.one _ _ _ _ hr hk' hp hp₂
    · exact absurd (h.one _ _ _ _ hk hr hp₁ hp) hne
  · intro k r hk hp'
    rw [hrule]
    rcases hold k r hk with ⟨rfl, rfl⟩ | ⟨-, hk⟩
    · exact hcopy.trans (h.copy k run hr hp)
    · exact h.copy k r hk hp'
  · intro k r t hk hp' hl ht
    rw [hrule]
    rcases hold k r hk with ⟨rfl, rfl⟩ | ⟨-, hk⟩
    · rw [hd hp'] at hl
      cases hl
    · exact h.recorded k r t hk hp' hl ht

theorem Sequential.step {e : Event π} (h : Sequential s) (hi : Inv ext s) (hser : Serial s e)
    (hs : Step ext s e s') : Sequential s' := by
  cases hs with
  | post | answer | accept | reject | create => exact ⟨h.one, h.copy, h.recorded⟩
  | @start pk log hl hq =>
    have hold (k : ℕ) (run : Run π)
        (hk : (s.runs.set pk ⟨log, s.rule, .fetched, none⟩).get? k = some run) :
        k = pk ∧ run = ⟨log, s.rule, .fetched, none⟩ ∨
          s.runs.get? k = some run ∧ run.phase = .done :=
      (Dict.of_get?_set hk).imp_right fun hk => ⟨hk.2, hser k run hk.2⟩
    constructor
    · intro k k' run run' hk hk' hp hp'
      rcases hold k run hk with ⟨rfl, -⟩ | ⟨-, hd⟩
      · rcases hold k' run' hk' with ⟨rfl, -⟩ | ⟨-, hd⟩
        · rfl
        · exact absurd hd hp'
      · exact absurd hd hp
    · intro k run hk hp
      rcases hold k run hk with ⟨-, rfl⟩ | ⟨-, hd⟩
      · rfl
      · exact absurd hd hp
    · intro k run t hk hp hl ht
      rcases hold k run hk with ⟨-, rfl⟩ | ⟨hk, -⟩
      · cases ht
      · exact h.recorded k run t hk hp hl ht
  | check hr hp => exact h.of_run hr (by simp [hp]) rfl rfl rfl nofun
  | @saveVerdict pk run hr hp =>
    obtain ⟨row, -, -, hag⟩ := (hi.run pk run hr).row
    rw [hp] at hag
    refine h.of_run hr (by simp [hp]) rfl rfl rfl fun hd => ?_
    by_contra hl
    have hm := hag.2.2 (Bool.not_eq_false _ ▸ hl)
    simp [Run.saved, hm] at hd
  | saveFired hr hp => exact h.of_run hr (by simp [hp]) rfl rfl rfl nofun
  | act hr hp => exact h.of_run hr (by simp [hp]) rfl rfl rfl nofun
  | @record pk now run hr hp =>
    have hne : run.phase ≠ .done := by simp [hp]
    have hdone (k : ℕ) (other : Run π)
        (hk : (s.runs.set pk { run with phase := .done }).get? k = some other) :
        other.phase = .done := by
      rcases Dict.of_get?_set hk with ⟨-, rfl⟩ | ⟨he, hk⟩
      · rfl
      · by_contra hp'
        exact he (h.one _ _ _ _ hk hr hp' hne)
    refine ⟨fun k _ r _ hk _ hp' => absurd (hdone k r hk) hp',
      fun k r hk hp' => absurd (hdone k r hk) hp', fun k r t hk _ _ ht => ?_⟩
    -- the run that records has fired, so that there is a rule
    obtain ⟨⟨row, -, -, hag⟩, -, hl⟩ := hi.run pk run hr
    rw [hp] at hag
    obtain ⟨hm, -⟩ := hl hag.2
    obtain ⟨rule, hrule, -⟩ := Option.any_eq_true _ _ |>.mp hm
    refine ⟨rule.recordFiring now, now, ?_, rfl, ?_⟩
    · dsimp only
      rw [← h.copy pk run hr hne, hrule, Option.map_some]
    · rcases Dict.of_get?_set hk with ⟨-, rfl⟩ | ⟨-, hk⟩
      · exact hser pk run t hr ht
      · exact hser k r t hk ht

theorem sequential (h : ((events ext).restrict Serial).Reachable s) : Sequential s := by
  refine h.invariant ?_ fun _ _ _ hr hi hs => hi.step (inv hr.of_restrict) hs.2 (exec_step hs.1)
  rintro _ ⟨rule, rfl⟩
  refine ⟨?_, ?_, ?_⟩ <;> intro k <;> intros <;> contradiction

/-- Runs one after the other are informed: the throttle holds for them. -/
theorem informed_of_serial (h : ((events ext).restrict Serial).Reachable s) :
    ((events ext).restrict (Informed ext)).Reachable s := by
  induction h with
  | init hi => exact .init hi
  | @step t t' e hr hs ih =>
    refine .step ih ⟨hs.1, ?_⟩
    have hseq := sequential hr
    cases exec_step hs.1 with
    | post | answer | accept | reject | create | start | saveVerdict | saveFired | act | record =>
      trivial
    | @check pk now run hrun hp =>
      intro run' hrun' hm pk' other time hne hother hl htime hrecent
      obtain rfl := Option.some.inj (hrun.symm.trans hrun')
      have hactive : run.phase ≠ .done := by simp [hp]
      have hdone : other.phase = .done := by
        by_contra hp'
        exact hne (hseq.one _ _ _ _ hother hrun hp' hactive)
      obtain ⟨rule, last, hrule, hlast, hle⟩ := hseq.recorded pk' other time hother hdone hl htime
      exact ⟨rule, last, (hseq.copy pk run hrun hactive).trans hrule, hlast, by omega⟩

end Sequences

/-! ### A burst of two events -/

/-- Both runs check before one of them records its firing, and both launch a job. -/
theorem throttling_burst :
    ∃ s, (events trusting).Reachable s ∧ s.executed.map Executed.log = [10, 11] ∧
      throttle s.rule = 60000000 ∧
      ∀ f ∈ s.executed, (s.runs.get? f.log).map Run.checkedAt = some (some 0) := by
  have hrun : System.runAll (exec trusting) (idle 60)
      (receive 0 10 "g" ++ receive 1 11 "h" ++ [.start 10, .start 11, .check 10 0, .check 11 0,
        .save 10, .save 11, .act 10 (.ok 100), .act 11 (.ok 101)]) = some _ := rfl
  exact ⟨_, reachable_idle hrun, by decide, by decide, by decide⟩

theorem reachable_informed {s s' : State Unit} {l : List (Event Unit)}
    (h : ((events trusting).restrict (Informed trusting)).Reachable s)
    (hrun : System.runAll (exec trusting) s l = some s') (hl : ∀ e ∈ l, ∀ pk now, e ≠ .check pk now) :
    ((events trusting).restrict (Informed trusting)).Reachable s' := by
  refine System.Reachable.runAll (S := (events trusting).restrict (Informed trusting))
    (fun e he t t' ht => ⟨ht, ?_⟩) h hrun
  cases e with
  | check pk now => exact absurd rfl (hl _ he pk now)
  | post | reject | deduplicate | create | start | save | act | record => trivial

theorem reachable_check {s s' : State Unit} {k : ℕ} {n : ℤ}
    (h : ((events trusting).restrict (Informed trusting)).Reachable s)
    (hexec : exec trusting s (.check k n) = some s') (ht : Informed trusting s (.check k n)) :
    ((events trusting).restrict (Informed trusting)).Reachable s' :=
  .step h ⟨hexec, ht⟩

/-- The second run starts after the throttle of the first one. -/
theorem throttling_apart : ∃ s : State Unit, s.executed.map Executed.log = [10, 11] ∧
    (∀ f ∈ s.executed, ∀ f' ∈ s.executed, f.log ≠ f'.log → ∀ run run' t t',
      s.runs.get? f.log = some run → s.runs.get? f'.log = some run' →
      run.checkedAt = some t → run'.checkedAt = some t' → throttle s.rule ≤ |t - t'|) ∧
    ∀ f ∈ s.executed, ∀ row, s.logs.get? f.log = some row → row.status ≠ .throttled := by
  have h₁ := reachable_informed (l := receive 0 10 "g" ++ receive 1 11 "h" ++ [.start 10])
    (.init ⟨some (launchRule 60), rfl⟩) rfl (by simp [receive])
  have h₂ := reachable_check (k := 10) (n := 0) h₁ rfl fun run hr hm pk' other t hne hk => by
    rw [Dict.get?_set, if_neg hne] at hk
    cases hk
  have h₃ := reachable_informed (l := (evaluateAll 10 100 0).drop 2 ++ [.start 11]) h₂ rfl
    (by simp [evaluateAll])
  have h₄ := reachable_check (k := 11) (n := 100000000) h₃ rfl
    fun run hr hm pk' other t hne hk hl ht hn => by
      by_cases hten : pk' = 10
      · subst hten
        obtain rfl := Option.some.inj hk
        obtain rfl := Option.some.inj ht
        obtain rfl := Option.some.inj hr
        exact absurd hn (by decide)
      · simp [Dict.get?_set, hne, hten] at hk
  have h₅ := reachable_informed (l := (evaluateAll 11 101 100000000).drop 2) h₄ rfl
    (by simp [evaluateAll])
  exact ⟨_, by decide, throttling h₅⟩

end Forail.Eda
