import Forail.Eda.RunInvariant

/-! Deduplication. The check lists logs that are matched or have fired, not those that wait
in the queue, and the log is created later than it is asked for. Where no delivery is
accepted while another one of its event is between these points or has its log waiting, the
actions are executed for one log of each event only. -/

namespace Forail.Eda

variable {π : Type} {ext : Externals π}

/-- The row that a delivery is about to create. -/
def Delivery.log (d : Delivery π) : EventLog π := .received d.eventGuid d.request

section Definitions
variable (ext) (s : State π)

/-- A delivery that passes the check meets no other one of its event that passed it and has
not created its log, and no log of its event that waits for its evaluation. Only deliveries
and logs whose payload meets the conditions of the rule count. -/
def Timely : Event π → Prop
  | .deduplicate d => ∀ delivery, s.deliveries.get? d = some delivery →
    delivery.eventGuid ≠ "" → conditionsMatch ext s.rule delivery.log = true →
    previouslyReceived s.logs delivery.eventGuid = false →
    delivery.request.bodyLength ≤ maxPayload →
    (∀ pk row, s.logs.get? pk = some row → row.eventGuid = delivery.eventGuid →
      conditionsMatch ext s.rule row = true → row.status ≠ .received) ∧
    ∀ d' delivery', s.deliveries.get? d' = some delivery' → delivery'.phase = .deduplicated →
      delivery'.eventGuid = delivery.eventGuid →
      conditionsMatch ext s.rule delivery'.log = false
  | _ => True

/-- The logs, and the deliveries before the creation of their log, for which the actions of
the rule were or may be executed for an event. -/
def Claims (guid : String) : ℕ ⊕ ℕ → Prop
  | .inl pk => ∃ row, s.logs.get? pk = some row ∧ row.eventGuid = guid ∧
    conditionsMatch ext s.rule row = true ∧
    (row.status = .received ∨ row.status = .matched ∨ row.status = .actionFired)
  | .inr d => ∃ delivery, s.deliveries.get? d = some delivery ∧ delivery.phase = .deduplicated ∧
    delivery.eventGuid = guid ∧ conditionsMatch ext s.rule delivery.log = true

def Unique : Prop := ∀ guid ≠ "", ∀ c c', Claims ext s guid c → Claims ext s guid c' → c = c'

end Definitions

/-- The check finds matched logs and those that have fired. -/
theorem previouslyReceived_of_row {logs : Dict ℕ (EventLog π)} {pk : ℕ} {row : EventLog π}
    (h : logs.get? pk = some row) (hg : row.eventGuid ≠ "")
    (hs : row.status = .matched ∨ row.status = .actionFired) :
    previouslyReceived logs row.eventGuid = true := by
  have hm := Dict.mem_entries_of_get? h
  simp only [previouslyReceived, Bool.and_eq_true, decide_eq_true_eq, List.any_eq_true,
    Bool.or_eq_true]
  exact ⟨hg, (pk, row), hm, rfl, hs⟩

section Uniqueness
variable {s s' : State π}

theorem Unique.mono (h : Unique ext s)
    (hc : ∀ guid c, Claims ext s' guid c → Claims ext s guid c) : Unique ext s' :=
  fun guid hg c c' hc₁ hc₂ => h guid hg c c' (hc guid c hc₁) (hc guid c' hc₂)

/-- A row that may fire is replaced by one of the same event. -/
theorem Claims.of_row {guid : String} {c : ℕ ⊕ ℕ} (h : Claims ext s' guid c) {pk : ℕ}
    {row row' : EventLog π} (hrow : s.logs.get? pk = some row)
    (hs : row.status = .received ∨ row.status = .matched) (hev : row.event = row'.event)
    (hlogs : s'.logs = s.logs.set pk row') (hdel : s'.deliveries = s.deliveries)
    (hrule : s'.rule = s.rule) : Claims ext s guid c := by
  cases c with
  | inl k =>
    obtain ⟨r, hr, hg, hm, hst⟩ := h
    rw [hlogs] at hr
    rw [hrule] at hm
    rcases Dict.of_get?_set hr with ⟨rfl, rfl⟩ | ⟨-, hr⟩
    · refine ⟨row, hrow, ?_, (conditionsMatch_congr rfl hev).trans hm, hs.imp_right .inl⟩
      exact (congrArg Prod.fst hev).trans hg
    · exact ⟨r, hr, hg, hm, hst⟩
  | inr d =>
    unfold Claims at h ⊢
    rw [hdel, hrule] at h
    exact h

/-- A delivery that is not accepted claims nothing. -/
theorem Claims.of_delivery {guid : String} {c : ℕ ⊕ ℕ} (h : Claims ext s' guid c) {d : ℕ}
    {delivery : Delivery π} (hdel : s'.deliveries = s.deliveries.set d delivery)
    (hp : delivery.phase ≠ .deduplicated) (hlogs : s'.logs = s.logs) (hrule : s'.rule = s.rule) :
    Claims ext s guid c := by
  cases c with
  | inl k =>
    unfold Claims at h ⊢
    rw [hlogs, hrule] at h
    exact h
  | inr k =>
    obtain ⟨d', hd', hph, hg, hm⟩ := h
    rw [hdel] at hd'
    rw [hrule] at hm
    rcases Dict.of_get?_set hd' with ⟨-, rfl⟩ | ⟨-, hd'⟩
    · exact absurd hph hp
    · exact ⟨d', hd', hph, hg, hm⟩

/-- A delivery that is accepted in time is the only one that claims its event. -/
theorem Unique.accept (h : Unique ext s) {d : ℕ} {delivery : Delivery π}
    (ht : Timely ext s (.deduplicate d)) (hd : s.deliveries.get? d = some delivery)
    (hp : previouslyReceived s.logs delivery.eventGuid = false)
    (hb : delivery.request.bodyLength ≤ maxPayload)
    (hdel : s'.deliveries = s.deliveries.set d { delivery with phase := .deduplicated })
    (hlogs : s'.logs = s.logs) (hrule : s'.rule = s.rule) : Unique ext s' := by
  intro guid hg c c' hc hc'
  have hold (k : ℕ ⊕ ℕ) (hne : k ≠ .inr d) (hk : Claims ext s' guid k) : Claims ext s guid k := by
    unfold Claims at hk ⊢
    rw [hlogs, hrule, hdel] at hk
    cases k with
    | inl pk => exact hk
    | inr d' =>
      obtain ⟨delivery', hd', hrest⟩ := hk
      rw [Dict.get?_set, if_neg fun he => hne (congrArg Sum.inr he)] at hd'
      exact ⟨delivery', hd', hrest⟩
  by_cases hnew : Claims ext s' guid (.inr d)
  · have honly (k : ℕ ⊕ ℕ) (hk : Claims ext s' guid k) : k = .inr d := by
      by_contra hne
      obtain ⟨delivery', hd', -, rfl, hm⟩ := hnew
      rw [hdel, Dict.get?_set, if_pos rfl] at hd'
      obtain rfl := Option.some.inj hd'
      rw [hrule] at hm
      obtain ⟨hrows, hdeliveries⟩ := ht delivery hd hg hm hp hb
      have hk := hold k hne hk
      cases k with
      | inl pk =>
        obtain ⟨row, hrow, he, hmatch, hst⟩ := hk
        rcases hst with hst | hst
        · exact hrows pk row hrow he hmatch hst
        · have hdup := previouslyReceived_of_row hrow (he ▸ hg) hst
          rw [he] at hdup
          exact Bool.false_ne_true (hp.symm.trans hdup)
      | inr d' =>
        obtain ⟨delivery', hd', hph, he, hmatch⟩ := hk
        exact Bool.false_ne_true ((hdeliveries d' delivery' hd' hph he).symm.trans hmatch)
    rw [honly c hc, honly c' hc']
  · have hne (k : ℕ ⊕ ℕ) (hk : Claims ext s' guid k) : k ≠ .inr d := by
      rintro rfl
      exact hnew hk
    exact h guid hg c c' (hold c (hne c hc) hc) (hold c' (hne c' hc') hc')

/-- The log takes over the claim of its delivery. -/
theorem Unique.create (h : Unique ext s) {d pk : ℕ} {delivery : Delivery π}
    (hd : s.deliveries.get? d = some delivery) (hp : delivery.phase = .deduplicated)
    (hlogs : s'.logs = s.logs.set pk delivery.log)
    (hdel : s'.deliveries = s.deliveries.set d { delivery with phase := .answered })
    (hrule : s'.rule = s.rule) : Unique ext s' := by
  intro guid hg c c' hc hc'
  have hold (k : ℕ ⊕ ℕ) (hk : Claims ext s' guid k) :
      k = .inl pk ∧ Claims ext s guid (.inr d) ∨ k ≠ .inr d ∧ Claims ext s guid k := by
    unfold Claims at hk ⊢
    rw [hlogs, hrule, hdel] at hk
    cases k with
    | inl k =>
      obtain ⟨row, hrow, hguid, hm, hst⟩ := hk
      rcases Dict.of_get?_set hrow with ⟨rfl, rfl⟩ | ⟨-, hrow⟩
      · exact .inl ⟨rfl, delivery, hd, hp, hguid, hm⟩
      · exact .inr ⟨nofun, row, hrow, hguid, hm, hst⟩
    | inr k =>
      obtain ⟨delivery', hd', hph, hrest⟩ := hk
      rcases Dict.of_get?_set hd' with ⟨-, rfl⟩ | ⟨he, hd'⟩
      · cases hph
      · exact .inr ⟨fun hk => he (Sum.inr.inj hk), delivery', hd', hph, hrest⟩
  rcases hold c hc with ⟨rfl, hk⟩ | ⟨hne, hk⟩
  · rcases hold c' hc' with ⟨rfl, -⟩ | ⟨hne', hk'⟩
    · rfl
    · exact absurd (h guid hg _ _ hk' hk) hne'
  · rcases hold c' hc' with ⟨rfl, hk'⟩ | ⟨-, hk'⟩
    · exact absurd (h guid hg _ _ hk hk') hne
    · exact h guid hg c c' hk hk'

theorem Unique.step {e : Event π} (h : Unique ext s) (hi : Inv ext s) (ht : Timely ext s e)
    (hs : Step ext s e s') : Unique ext s' := by
  cases hs with
  | post hr hd => exact h.mono fun _ _ hc => hc.of_delivery rfl nofun rfl rfl
  | answer hd => exact h.mono fun _ _ hc => hc.of_delivery rfl nofun rfl rfl
  | @reject pk request error hl =>
    refine h.mono fun guid c hc => ?_
    cases c with
    | inl k =>
      obtain ⟨row, hrow, hg, hm, hst⟩ := hc
      rcases Dict.of_get?_set hrow with ⟨-, rfl⟩ | ⟨-, hrow⟩
      · rcases hst with hst | hst | hst <;> cases hst
      · exact ⟨row, hrow, hg, hm, hst⟩
    | inr d => exact hc
  | accept hd hp hb => exact h.accept ht hd hp hb rfl rfl rfl
  | create hd hp => exact h.create hd hp rfl rfl rfl
  | start hl hq => exact h
  | check hr hp => exact h
  | @saveVerdict pk run hr hp =>
    obtain ⟨row, hrow, hev, hag⟩ := (hi.run pk run hr).row
    rw [hp] at hag
    exact h.mono fun _ _ hc => hc.of_row hrow (.inl hag.1) hev rfl rfl rfl
  | @saveFired pk run hr hp =>
    obtain ⟨row, hrow, hev, hag⟩ := (hi.run pk run hr).row
    rw [hp] at hag
    exact h.mono fun _ _ hc =>
      hc.of_row hrow (.inr hag.1) (hev.trans event_finish.symm) rfl rfl rfl
  | act hr hp => exact h
  | @record pk now run hr hp =>
    refine h.mono fun guid c hc => ?_
    have hm (log : EventLog π) :=
      (conditionsMatch_congr (config_recordFiring s.rule now) rfl : conditionsMatch ext _ log = _)
    cases c with
    | inl k =>
      obtain ⟨row, hrow, hg, hc, hst⟩ := hc
      exact ⟨row, hrow, hg, (hm row).symm.trans hc, hst⟩
    | inr d =>
      obtain ⟨delivery, hd, hph, hg, hc⟩ := hc
      exact ⟨delivery, hd, hph, hg, (hm _).symm.trans hc⟩

end Uniqueness

/-! ### Failed actions -/

/-- What a log says of its actions has happened. -/
structure EventLog.Recorded (executed : List Executed) (log : EventLog π) : Prop where
  triggered : ∀ r ∈ log.actionsTriggered, ∃ f ∈ executed, f.result = r
  failed : log.status = .actionFailed → ∃ f ∈ executed, f.result.status = .failed

section Failures
variable {log : EventLog π} {executed : List Executed}

theorem EventLog.Recorded.evaluate (h : log.Recorded executed) {rule : Option EventRule} {now : ℤ} :
    (log.evaluate ext rule now).Recorded executed := by
  unfold EventLog.evaluate
  cases rule with
  | none => exact ⟨h.triggered, nofun⟩
  | some rule =>
    dsimp only
    split_ifs <;> exact ⟨h.triggered, nofun⟩

theorem EventLog.Recorded.trigger (h : log.Recorded executed) {f : Executed} :
    (log.trigger f.result).Recorded (executed ++ [f]) := by
  constructor
  · intro r hr
    rcases List.mem_append.mp hr with hr | hr
    · obtain ⟨g, hg, he⟩ := h.triggered r hr
      exact ⟨g, List.mem_append_left _ hg, he⟩
    · exact ⟨f, List.mem_append_right _ (List.mem_singleton_self f), (List.mem_singleton.mp hr).symm⟩
  · intro hs
    obtain ⟨g, hg, he⟩ := h.failed hs
    exact ⟨g, List.mem_append_left _ hg, he⟩

theorem EventLog.Recorded.finish (h : log.Recorded executed) : log.finish.Recorded executed := by
  refine ⟨h.triggered, fun hs => ?_⟩
  unfold EventLog.finish at hs
  dsimp only at hs
  split_ifs at hs with ha
  obtain ⟨r, hr, hf⟩ := List.any_eq_true.mp ha
  obtain ⟨f, hm, rfl⟩ := h.triggered r hr
  exact ⟨f, hm, of_decide_eq_true hf⟩

theorem EventLog.Recorded.append (h : log.Recorded executed) (f : Executed) :
    log.Recorded (executed ++ [f]) := by
  constructor
  · intro r hr
    obtain ⟨g, hg, he⟩ := h.triggered r hr
    exact ⟨g, List.mem_append_left _ hg, he⟩
  · intro hs
    obtain ⟨g, hg, he⟩ := h.failed hs
    exact ⟨g, List.mem_append_left _ hg, he⟩

end Failures

/-- Rows and copies say of their actions what has happened. -/
structure State.Recorded (s : State π) : Prop where
  row : ∀ pk row, s.logs.get? pk = some row → row.Recorded s.executed
  run : ∀ pk run, s.runs.get? pk = some run → run.log.Recorded s.executed

theorem State.Recorded.step {s s' : State π} {e : Event π} (h : s.Recorded)
    (hs : Step ext s e s') : s'.Recorded := by
  cases hs with
  | post | answer | accept => exact ⟨h.row, h.run⟩
  | reject | create => exact ⟨Dict.forall_get?_set h.row ⟨nofun, nofun⟩, h.run⟩
  | start hl => exact ⟨h.row, Dict.forall_get?_set h.run (h.row _ _ hl)⟩
  | check hr => exact ⟨h.row, Dict.forall_get?_set h.run (h.run _ _ hr).evaluate⟩
  | saveVerdict hr =>
    have hrun := h.run _ _ hr
    exact ⟨Dict.forall_get?_set h.row hrun, Dict.forall_get?_set h.run hrun⟩
  | saveFired hr =>
    exact ⟨Dict.forall_get?_set h.row (h.run _ _ hr).finish, Dict.forall_get?_set h.run (h.run _ _ hr).finish⟩
  | act hr =>
    refine ⟨fun pk row hrow => (h.row pk row hrow).append _, ?_⟩
    exact Dict.forall_get?_set (fun pk run hrun => (h.run pk run hrun).append _) (h.run _ _ hr).trigger
  | record hr =>
    have hrun := h.run _ _ hr
    exact ⟨h.row, Dict.forall_get?_set h.run hrun⟩

theorem recorded {s : State π} (h : (events ext).Reachable s) : s.Recorded := by
  refine h.invariant ?_ fun _ _ _ _ hi hs => hi.step (exec_step hs)
  rintro _ ⟨rule, rfl⟩
  exact ⟨fun _ _ h => (by cases h), fun _ _ h => (by cases h)⟩

theorem unique {s : State π} (h : ((events ext).restrict (Timely ext)).Reachable s) :
    Unique ext s := by
  refine h.invariant ?_ fun _ _ _ hr hi hs => hi.step (inv hr.of_restrict) hs.2 (exec_step hs.1)
  rintro _ ⟨rule, rfl⟩ guid - (pk | d) c' hc
  · obtain ⟨row, hrow, -⟩ := hc
    cases hrow
  · obtain ⟨delivery, hd, -⟩ := hc
    cases hd

/-- In every run whose deliveries are accepted in time, and where no action has failed, the
actions of the rule are executed for one log of each event. -/
theorem deduplication {s : State π} (h : ((events ext).restrict (Timely ext)).Reachable s)
    (hok : ∀ f ∈ s.executed, f.result.status = .success) :
    ∀ f ∈ s.executed, ∀ f' ∈ s.executed, ∀ row row', s.logs.get? f.log = some row →
      s.logs.get? f'.log = some row' → row.eventGuid ≠ "" → row.eventGuid = row'.eventGuid →
      f.log = f'.log := by
  have hclaim (f : Executed) (hf : f ∈ s.executed) (row : EventLog π)
      (hrow : s.logs.get? f.log = some row) : Claims ext s row.eventGuid (.inl f.log) := by
    obtain ⟨row', hrow', hl, hm⟩ := (inv h.of_restrict).executed_row hf
    obtain rfl := Option.some.inj (hrow.symm.trans hrow')
    refine ⟨row, hrow, rfl, hm, ?_⟩
    cases hs : row.status with
    | matched => exact .inr (.inl rfl)
    | actionFired => exact .inr (.inr rfl)
    | actionFailed =>
      obtain ⟨g, hg, he⟩ := ((recorded h.of_restrict).row f.log row hrow).failed hs
      rw [hok g hg] at he
      cases he
    | received | unmatched | throttled | error | signatureFailed =>
      rw [hs] at hl
      cases hl
  intro f hf f' hf' row row' hrow hrow' hg he
  exact Sum.inl.inj (unique h _ hg _ _ (hclaim f hf row hrow) (he ▸ hclaim f' hf' row' hrow'))

/-! ### A second delivery before and after the evaluation of the first -/

/-- The event comes again while its log waits in the queue, and both logs launch a job. -/
theorem deduplication_waiting :
    ∃ s, (events trusting).Reachable s ∧ s.executed.map Executed.log = [10, 11] ∧
      (∀ f ∈ s.executed, f.result.status = .success) ∧
      ∀ f ∈ s.executed, (s.logs.get? f.log).map EventLog.eventGuid = some "g" := by
  have hrun : System.runAll (exec trusting) (idle 0)
      (receive 0 10 "g" ++ receive 1 11 "g" ++ evaluateAll 10 100 0 ++ evaluateAll 11 101 0) =
        some _ := rfl
  exact ⟨_, reachable_idle hrun, by decide, by decide, by decide⟩

theorem reachable_timely {s s' : State Unit} {l : List (Event Unit)}
    (h : ((events trusting).restrict (Timely trusting)).Reachable s)
    (hrun : System.runAll (exec trusting) s l = some s')
    (hl : ∀ e ∈ l, ∀ d, e ≠ .deduplicate d) :
    ((events trusting).restrict (Timely trusting)).Reachable s' := by
  refine System.Reachable.runAll (S := (events trusting).restrict (Timely trusting))
    (fun e he t t' ht => ⟨ht, ?_⟩) h hrun
  cases e with
  | deduplicate d => exact absurd rfl (hl _ he d)
  | post | reject | create | start | check | save | act | record => trivial

theorem reachable_deduplicate {s s' : State Unit} {d : ℕ}
    (h : ((events trusting).restrict (Timely trusting)).Reachable s)
    (hexec : exec trusting s (.deduplicate d) = some s')
    (ht : Timely trusting s (.deduplicate d)) :
    ((events trusting).restrict (Timely trusting)).Reachable s' :=
  .step h ⟨hexec, ht⟩

/-- The event comes again after the evaluation of its log, and nothing happens. -/
theorem deduplication_fired : ∃ s : State Unit, s.executed.map Executed.log = [10] ∧
    (s.deliveries.get? 1).map Delivery.phase = some .answered ∧
    ∀ f ∈ s.executed, ∀ f' ∈ s.executed, ∀ row row', s.logs.get? f.log = some row →
      s.logs.get? f'.log = some row' → row.eventGuid ≠ "" → row.eventGuid = row'.eventGuid →
      f.log = f'.log := by
  have h₁ := reachable_timely (l := [.post 0 (pushRequest "g")])
    (.init ⟨some (launchRule 0), rfl⟩) rfl (by simp)
  have h₂ := reachable_deduplicate (d := 0) h₁ rfl fun delivery hd hg hm hp hb => by
    refine ⟨fun pk row hrow => (by cases hrow), fun d' delivery' hd' hph => ?_⟩
    rcases Dict.of_get?_set hd' with ⟨-, rfl⟩ | ⟨-, hd'⟩
    · cases hph
    · cases hd'
  have h₃ := reachable_timely (l := .create 0 10 :: evaluateAll 10 100 0 ++
    [.post 1 (pushRequest "g")]) h₂ rfl (by simp [evaluateAll])
  have h₄ := reachable_deduplicate (d := 1) h₃ rfl fun delivery hd hg hm hp hb => by
    rw [← Option.some.inj hd] at hp
    cases hp
  exact ⟨_, by decide, by decide, deduplication h₄ (by decide)⟩

end Forail.Eda
