import Forail.Eda.EventRuns
import Mathlib.Data.List.Nodup

/-! What a step can do to the logs, deliveries and runs, and what the status of a row says
about its run in every reachable state: a queued log is received, a run writes its verdict
only once, and only the logs that the rule fires for have their actions executed. -/

namespace Forail.Eda

variable {π : Type} {ext : Externals π}

section Steps
variable (ext) (s : State π)

/-- The events with what each of them requires and changes. -/
inductive Step : Event π → State π → Prop
  | post {d : ℕ} {request : Request π} {rule : EventRule} (hr : s.rule = some rule)
      (hd : s.deliveries.get? d = none) :
      Step (.post d request)
        { s with deliveries := s.deliveries.set d ⟨rule, request, .verified⟩ }
  | reject {pk : ℕ} {request : Request π} {error : String} (hl : s.logs.get? pk = none) :
      Step (.reject pk request) { s with logs := s.logs.set pk (.rejected request error) }
  | answer {d : ℕ} {delivery : Delivery π} (hd : s.deliveries.get? d = some delivery) :
      Step (.deduplicate d)
        { s with deliveries := s.deliveries.set d { delivery with phase := .answered } }
  | accept {d : ℕ} {delivery : Delivery π} (hd : s.deliveries.get? d = some delivery)
      (hp : previouslyReceived s.logs delivery.eventGuid = false)
      (hb : delivery.request.bodyLength ≤ maxPayload) :
      Step (.deduplicate d)
        { s with deliveries := s.deliveries.set d { delivery with phase := .deduplicated } }
  | create {d pk : ℕ} {delivery : Delivery π} (hd : s.deliveries.get? d = some delivery)
      (hp : delivery.phase = .deduplicated) (hl : s.logs.get? pk = none) :
      Step (.create d pk)
        { s with
          logs := s.logs.set pk (.received delivery.eventGuid delivery.request)
          queue := s.queue ++ [pk]
          deliveries := s.deliveries.set d { delivery with phase := .answered } }
  | start {pk : ℕ} {log : EventLog π} (hl : s.logs.get? pk = some log) (hq : pk ∈ s.queue) :
      Step (.start pk)
        { s with
          queue := s.queue.erase pk
          runs := s.runs.set pk ⟨log, s.rule, .fetched, none⟩ }
  | check {pk : ℕ} {now : ℤ} {run : Run π} (hr : s.runs.get? pk = some run)
      (hp : run.phase = .fetched) :
      Step (.check pk now)
        { s with
          runs := s.runs.set pk
            ⟨run.log.evaluate ext run.rule now, run.rule, .evaluated, some now⟩ }
  | saveVerdict {pk : ℕ} {run : Run π} (hr : s.runs.get? pk = some run)
      (hp : run.phase = .evaluated) :
      Step (.save pk) { s with logs := s.logs.set pk run.log, runs := s.runs.set pk run.saved }
  | saveFired {pk : ℕ} {run : Run π} (hr : s.runs.get? pk = some run)
      (hp : run.phase = .acting []) :
      Step (.save pk)
        { s with
          logs := s.logs.set pk run.log.finish
          runs := s.runs.set pk { run with log := run.log.finish, phase := .fired } }
  | act {pk : ℕ} {outcome : Except String ℕ} {run : Run π} {action : Action} {rest : List Action}
      (hr : s.runs.get? pk = some run) (hp : run.phase = .acting (action :: rest)) :
      Step (.act pk outcome)
        { s with
          runs := s.runs.set pk
            { run with
              log := run.log.trigger (executeAction action outcome)
              phase := .acting rest }
          executed := s.executed ++ [⟨pk, action, executeAction action outcome⟩] }
  | record {pk : ℕ} {now : ℤ} {run : Run π} (hr : s.runs.get? pk = some run)
      (hp : run.phase = .fired) :
      Step (.record pk now)
        { s with
          rule := s.rule.map fun row => row.recordFiring now
          runs := s.runs.set pk { run with phase := .done } }

end Steps

theorem exec_step {s s' : State π} {e : Event π} (h : exec ext s e = some s') : Step ext s e s' := by
  cases e with
  | post d request =>
    obtain ⟨rule, hr, h⟩ := Option.bind_eq_some_iff.mp h
    split_ifs at h with hg
    obtain rfl := Option.some.inj h
    exact .post hr (Option.isNone_iff_eq_none.mp hg.2.1)
  | reject pk request =>
    obtain ⟨rule, hr, h⟩ := Option.bind_eq_some_iff.mp h
    cases hc : ext.checkSignature rule request with
    | error error =>
      simp only [hc] at h
      split_ifs at h with hg
      obtain rfl := Option.some.inj h
      exact .reject (Option.isNone_iff_eq_none.mp hg.2)
    | ok _ => simp [hc] at h
  | deduplicate d =>
    obtain ⟨delivery, hd, h⟩ := Option.bind_eq_some_iff.mp h
    split_ifs at h with hp
    obtain rfl := Option.some.inj h
    split_ifs with ha
    · exact .answer hd
    · obtain ⟨hr, hb⟩ := Bool.or_eq_false_iff.mp (Bool.not_eq_true _ ▸ ha)
      exact .accept hd hr (Nat.le_of_not_lt (of_decide_eq_false hb))
  | create d pk =>
    obtain ⟨delivery, hd, h⟩ := Option.bind_eq_some_iff.mp h
    split_ifs at h with hg
    obtain rfl := Option.some.inj h
    exact .create hd hg.1 (Option.isNone_iff_eq_none.mp hg.2)
  | start pk =>
    obtain ⟨log, hl, h⟩ := Option.bind_eq_some_iff.mp h
    split_ifs at h with hq
    obtain rfl := Option.some.inj h
    exact .start hl hq
  | check pk now =>
    obtain ⟨run, hr, h⟩ := Option.bind_eq_some_iff.mp h
    cases hp : run.phase <;> simp only [hp, Option.some.injEq, reduceCtorEq] at h
    subst h
    exact .check hr hp
  | save pk =>
    obtain ⟨run, hr, h⟩ := Option.bind_eq_some_iff.mp h
    cases hp : run.phase with
    | evaluated =>
      simp only [hp, Option.some.injEq] at h
      subst h
      exact .saveVerdict hr hp
    | acting rest =>
      cases rest with
      | nil =>
        simp only [hp, Option.some.injEq] at h
        subst h
        exact .saveFired hr hp
      | cons action rest => simp [hp] at h
    | fetched | fired | done => simp [hp] at h
  | act pk outcome =>
    obtain ⟨run, hr, h⟩ := Option.bind_eq_some_iff.mp h
    cases hp : run.phase with
    | acting rest =>
      cases rest with
      | nil => simp [hp] at h
      | cons action rest =>
        simp only [hp, Option.some.injEq] at h
        subst h
        exact .act hr hp
    | fetched | evaluated | fired | done => simp [hp] at h
  | record pk now =>
    obtain ⟨run, hr, h⟩ := Option.bind_eq_some_iff.mp h
    cases hp : run.phase <;> simp only [hp, Option.some.injEq, reduceCtorEq] at h
    subst h
    exact .record hr hp

/-! ### What stays of rules and logs -/

/-- A rule without the record of its firings. -/
def EventRule.config (rule : EventRule) : EventRule :=
  { rule with lastFiredAt := none, fireCount := 0 }

/-- What the sender said of the event. -/
def EventLog.event (log : EventLog π) : String × π × List (String × String) :=
  (log.eventGuid, log.payload, log.headers)

/-- The event meets the conditions of the rule. -/
def conditionsMatch (ext : Externals π) (rule : Option EventRule) (log : EventLog π) : Bool :=
  rule.any fun r => (evaluateConditions ext r.conditions log.payload log.headers).1

/-- The actions are or were executed. -/
def EventStatus.launched : EventStatus → Bool
  | .matched | .actionFired | .actionFailed => true
  | .received | .unmatched | .throttled | .error | .signatureFailed => false

theorem conditionsMatch_congr {rule rule' : Option EventRule} {log log' : EventLog π}
    (hr : rule.map EventRule.config = rule'.map EventRule.config) (hl : log.event = log'.event) :
    conditionsMatch ext rule log = conditionsMatch ext rule' log' := by
  simp only [EventLog.event, Prod.mk.injEq] at hl
  cases rule <;> cases rule' <;> simp_all [conditionsMatch, EventRule.config]

@[simp] theorem config_recordFiring (rule : Option EventRule) (now : ℤ) :
    (rule.map fun row => row.recordFiring now).map EventRule.config =
      rule.map EventRule.config := by
  cases rule <;> rfl

section Logs
variable {log : EventLog π} {rule : Option EventRule} {now : ℤ}

@[simp] theorem event_evaluate : (log.evaluate ext rule now).event = log.event := by
  unfold EventLog.evaluate
  cases rule with
  | none => rfl
  | some rule => dsimp only; split_ifs <;> rfl

@[simp] theorem event_finish : log.finish.event = log.event := rfl

theorem launched_finish : log.finish.status.launched = true := by
  unfold EventLog.finish
  dsimp only
  split_ifs <;> rfl

/-- Only a rule that is there, enabled and not throttled matches a log. -/
theorem evaluate_matched (h : (log.evaluate ext rule now).status.launched = true) :
    (log.evaluate ext rule now).status = .matched ∧ conditionsMatch ext rule log = true ∧
      ∃ r, rule = some r ∧ r.isThrottled now = false := by
  unfold EventLog.evaluate at h ⊢
  cases rule with
  | none => cases h
  | some rule =>
    dsimp only at h ⊢
    split_ifs at h ⊢ with he ht hm
    · cases h
    · cases h
    · exact ⟨rfl, hm, rule, rfl, Bool.not_eq_true _ ▸ ht⟩
    · cases h

theorem status_evaluate : (log.evaluate ext rule now).status ≠ .received := by
  unfold EventLog.evaluate
  cases rule with
  | none => simp
  | some rule => dsimp only; split_ifs <;> simp

end Logs

/-! ### The invariant -/

/-- How the statuses of the row and of the copy go with the phase of the run. -/
def Phase.agrees : Phase → EventStatus → EventStatus → Prop
  | .fetched, row, copy => row = .received ∧ copy = .received
  | .evaluated, row, copy =>
    row = .received ∧ copy ≠ .received ∧ (copy.launched = true → copy = .matched)
  | .acting _, row, copy => row = .matched ∧ copy = .matched
  | .fired, row, copy => row = copy ∧ copy.launched = true
  | .done, row, copy => row = copy ∧ copy ≠ .received

structure RunOk (ext : Externals π) (s : State π) (pk : ℕ) (run : Run π) : Prop where
  row : ∃ row, s.logs.get? pk = some row ∧ row.event = run.log.event ∧
    run.phase.agrees row.status run.log.status
  config : run.rule.map EventRule.config = s.rule.map EventRule.config
  launched : run.log.status.launched = true →
    conditionsMatch ext run.rule run.log = true ∧ ∃ now, run.checkedAt = some now

structure Inv (ext : Externals π) (s : State π) : Prop where
  nodup : s.queue.Nodup
  queued : ∀ pk ∈ s.queue, s.runs.get? pk = none ∧
    ∃ log, s.logs.get? pk = some log ∧ log.status = .received
  run : ∀ pk run, s.runs.get? pk = some run → RunOk ext s pk run
  executed : ∀ f ∈ s.executed, ∃ run, s.runs.get? f.log = some run ∧
    run.log.status.launched = true ∧ run.phase ≠ .evaluated

section Preservation
variable {s s' : State π} {pk : ℕ} {run : Run π}

theorem RunOk.frame (h : RunOk ext s pk run) (hl : s'.logs.get? pk = s.logs.get? pk)
    (hr : s'.rule.map EventRule.config = s.rule.map EventRule.config) : RunOk ext s' pk run :=
  ⟨by rw [hl]; exact h.row, h.config.trans hr.symm, h.launched⟩

/-- The runs go on when one of them changes its own row and itself. -/
theorem Inv.of_run (h : Inv ext s) {run' : Run π} (hr : s.runs.get? pk = some run)
    (hruns : s'.runs = s.runs.set pk run')
    (hlogs : ∀ k, k ≠ pk → s'.logs.get? k = s.logs.get? k) (hqueue : s'.queue = s.queue)
    (hrule : s'.rule.map EventRule.config = s.rule.map EventRule.config)
    (hok : RunOk ext s' pk run')
    (hlaunched : run.log.status.launched = true → run.phase ≠ .evaluated →
      run'.log.status.launched = true ∧ run'.phase ≠ .evaluated)
    (hexec : ∀ f ∈ s'.executed, f ∈ s.executed ∨ f.log = pk ∧ run'.log.status.launched = true ∧
      run'.phase ≠ .evaluated) : Inv ext s' where
  nodup := hqueue ▸ h.nodup
  queued k hk := by
    obtain ⟨hn, log, hl, hs⟩ := h.queued k (hqueue ▸ hk)
    have hne : k ≠ pk := fun he => by rw [he, hr] at hn; cases hn
    rw [hruns, Dict.get?_set, if_neg hne, hlogs k hne]
    exact ⟨hn, log, hl, hs⟩
  run k other hk := by
    rw [hruns] at hk
    rcases Dict.of_get?_set hk with ⟨rfl, rfl⟩ | ⟨he, hk⟩
    · exact hok
    · exact (h.run k other hk).frame (hlogs k he) hrule
  executed f hf := by
    rw [hruns, Dict.get?_set]
    rcases hexec f hf with hf | ⟨he, hr'⟩
    · obtain ⟨other, ho, hs, hp⟩ := h.executed f hf
      split_ifs with he
      · rw [he, hr] at ho
        obtain rfl := Option.some.inj ho
        exact ⟨run', rfl, hlaunched hs hp⟩
      · exact ⟨other, ho, hs, hp⟩
    · rw [if_pos he]
      exact ⟨run', rfl, hr'⟩

/-- Rows of new logs do not concern the runs. -/
theorem Inv.of_log (h : Inv ext s) {log : EventLog π} (hl : s.logs.get? pk = none)
    (hlogs : s'.logs = s.logs.set pk log) (hruns : s'.runs = s.runs) (hrule : s'.rule = s.rule)
    (hexec : s'.executed = s.executed)
    (hqueue : s'.queue = s.queue ∨ s'.queue = s.queue ++ [pk] ∧ log.status = .received) :
    Inv ext s' := by
  have hsome (k : ℕ) (row : EventLog π) (hk : s.logs.get? k = some row) : k ≠ pk := by
    intro he
    rw [he, hl] at hk
    cases hk
  have hkeep (k : ℕ) (hk : k ≠ pk) : s'.logs.get? k = s.logs.get? k := by
    rw [hlogs, Dict.get?_set, if_neg hk]
  have hnorun : s.runs.get? pk = none := by
    cases hr : s.runs.get? pk with
    | none => rfl
    | some run =>
      obtain ⟨row, hrow, -⟩ := (h.run pk run hr).row
      exact absurd rfl (hsome pk row hrow)
  have hold (k : ℕ) (hk : k ∈ s.queue) : s'.runs.get? k = none ∧
      ∃ log, s'.logs.get? k = some log ∧ log.status = .received := by
    obtain ⟨hn, row, hrow, hs⟩ := h.queued k hk
    rw [hruns, hkeep k (hsome k row hrow)]
    exact ⟨hn, row, hrow, hs⟩
  constructor
  · rcases hqueue with hq | ⟨hq, -⟩
    · exact hq ▸ h.nodup
    · rw [hq]
      apply List.Nodup.append h.nodup (List.nodup_singleton pk)
      rw [List.disjoint_singleton]
      intro hm
      obtain ⟨-, row, hrow, -⟩ := h.queued pk hm
      exact hsome pk row hrow rfl
  · intro k hk
    rcases hqueue with hq | ⟨hq, hs⟩
    · exact hold k (hq ▸ hk)
    · rw [hq, List.mem_append, List.mem_singleton] at hk
      rcases hk with hk | rfl
      · exact hold k hk
      · rw [hruns, hlogs, Dict.get?_set, if_pos rfl]
        exact ⟨hnorun, log, rfl, hs⟩
  · intro k run hk
    rw [hruns] at hk
    have hok := h.run k run hk
    obtain ⟨row, hrow, -⟩ := hok.row
    exact hok.frame (hkeep k (hsome k row hrow)) (by rw [hrule])
  · rw [hexec, hruns]
    exact h.executed

theorem Inv.step {e : Event π} (h : Inv ext s) (hs : Step ext s e s') : Inv ext s' := by
  cases hs with
  | post | answer | accept =>
    exact ⟨h.nodup, h.queued, fun k run hk => (h.run k run hk).frame rfl rfl, h.executed⟩
  | reject hl => exact h.of_log hl rfl rfl rfl rfl (.inl rfl)
  | create _ _ hl => exact h.of_log hl rfl rfl rfl rfl (.inr ⟨rfl, rfl⟩)
  | @start pk log hl hq =>
    obtain ⟨hnone, row, hrow, hs⟩ := h.queued pk hq
    obtain rfl := Option.some.inj (hl.symm.trans hrow)
    constructor
    · exact h.nodup.erase pk
    · intro k hk
      obtain ⟨hne, hk⟩ := h.nodup.mem_erase_iff.mp hk
      dsimp only
      rw [Dict.get?_set, if_neg hne]
      exact h.queued k hk
    · intro k run hk
      rcases Dict.of_get?_set hk with ⟨rfl, rfl⟩ | ⟨-, hk⟩
      · exact ⟨⟨log, hl, rfl, hs, hs⟩, rfl, fun hl => by rw [hs] at hl; cases hl⟩
      · exact (h.run k run hk).frame rfl rfl
    · intro f hf
      obtain ⟨run, hr, hl⟩ := h.executed f hf
      have hne : f.log ≠ pk := fun he => by rw [he, hnone] at hr; cases hr
      dsimp only
      rw [Dict.get?_set, if_neg hne]
      exact ⟨run, hr, hl⟩
  | @check pk now run hr hp =>
    obtain ⟨⟨row, hrow, hev, hag⟩, hc, -⟩ := h.run pk run hr
    rw [hp] at hag
    refine h.of_run hr rfl (fun _ _ => rfl) rfl rfl
      ⟨⟨row, hrow, ?_, hag.1, status_evaluate, fun hl => (evaluate_matched hl).1⟩, hc, ?_⟩ ?_
      fun _ hf => .inl hf
    · rw [event_evaluate]
      exact hev
    · intro hl
      obtain ⟨-, hm, -⟩ := evaluate_matched hl
      exact ⟨(conditionsMatch_congr rfl event_evaluate).trans hm, now, rfl⟩
    · intro hl
      rw [hag.2] at hl
      cases hl
  | @saveVerdict pk run hr hp =>
    obtain ⟨⟨row, hrow, hev, hag⟩, hc, hm⟩ := h.run pk run hr
    rw [hp] at hag
    refine h.of_run hr rfl (fun k hk => by rw [Dict.get?_set, if_neg hk]) rfl rfl
      ⟨⟨run.log, ?_, rfl, ?_⟩, hc, hm⟩ (fun _ hne => absurd hp hne) fun _ hf => .inl hf
    · rw [Dict.get?_set, if_pos rfl]
    · unfold Run.saved
      dsimp only
      split_ifs with hs
      · exact ⟨hs, hs⟩
      · exact ⟨rfl, hag.2.1⟩
  | @saveFired pk run hr hp =>
    obtain ⟨⟨row, hrow, hev, hag⟩, hc, hm⟩ := h.run pk run hr
    rw [hp] at hag
    have hl : run.log.status.launched = true := by rw [hag.2]; rfl
    refine h.of_run hr rfl (fun k hk => by rw [Dict.get?_set, if_neg hk]) rfl rfl
      ⟨⟨run.log.finish, ?_, rfl, rfl, launched_finish⟩, hc, fun _ => ?_⟩
      (fun _ _ => ⟨launched_finish, nofun⟩) fun _ hf => .inl hf
    · rw [Dict.get?_set, if_pos rfl]
    · exact ⟨(conditionsMatch_congr rfl event_finish).trans (hm hl).1, (hm hl).2⟩
  | @act pk outcome run action rest hr hp =>
    obtain ⟨⟨row, hrow, hev, hag⟩, hc, hm⟩ := h.run pk run hr
    rw [hp] at hag
    have hl : run.log.status.launched = true := by rw [hag.2]; rfl
    refine h.of_run hr rfl (fun _ _ => rfl) rfl rfl ⟨⟨row, hrow, hev, hag⟩, hc, hm⟩
      (fun _ _ => ⟨hl, nofun⟩) fun f hf => ?_
    rcases List.mem_append.mp hf with hf | hf
    · exact .inl hf
    · rw [List.mem_singleton.mp hf]
      exact .inr ⟨rfl, hl, nofun⟩
  | @record pk now run hr hp =>
    obtain ⟨⟨row, hrow, hev, hag⟩, hc, hm⟩ := h.run pk run hr
    rw [hp] at hag
    have hne : run.log.status ≠ .received := fun he => by rw [he] at hag; cases hag.2
    exact h.of_run hr rfl (fun _ _ => rfl) rfl (config_recordFiring s.rule now)
      ⟨⟨row, hrow, hev, hag.1, hne⟩, hc.trans (config_recordFiring s.rule now).symm, hm⟩
      (fun hl _ => ⟨hl, nofun⟩) fun _ hf => .inl hf

/-- The invariant holds of every reachable state. -/
theorem inv (h : (events ext).Reachable s) : Inv ext s := by
  refine h.invariant ?_ fun _ _ _ _ hi hs => hi.step (exec_step hs)
  rintro _ ⟨rule, rfl⟩
  constructor
  · exact List.nodup_nil
  · intro pk hpk
    cases hpk
  · intro pk run hr
    cases hr
  · intro f hf
    cases hf

end Preservation

/-- Actions are executed only for logs whose row says so and that the rule matches. -/
theorem Inv.executed_row {s : State π} (h : Inv ext s) {f : Executed} (hf : f ∈ s.executed) :
    ∃ row, s.logs.get? f.log = some row ∧ row.status.launched = true ∧
      conditionsMatch ext s.rule row = true := by
  obtain ⟨run, hr, hl, hne⟩ := h.executed f hf
  obtain ⟨⟨row, hrow, hev, hag⟩, hc, hm⟩ := h.run f.log run hr
  have hst : row.status = run.log.status := by
    cases hp : run.phase with
    | fetched => rw [hp] at hag; exact hag.1.trans hag.2.symm
    | evaluated => exact absurd hp hne
    | acting rest => rw [hp] at hag; exact hag.1.trans hag.2.symm
    | fired | done => rw [hp] at hag; exact hag.1
  exact ⟨row, hrow, hst ▸ hl, (conditionsMatch_congr hc hev.symm) ▸ (hm hl).1⟩

end Forail.Eda
