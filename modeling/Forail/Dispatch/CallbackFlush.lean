import Forail.Dispatch.CallbackBroker
import Mathlib.Algebra.BigOperators.Group.List.Basic
import Mathlib.Algebra.GroupWithZero.Nat
import Mathlib.Data.List.Count

/-! What a flush does to the events: each stays in the buffer, is stored or is dropped after its
third failed save, and in a sound flush the stored ones are all announced and nothing is raised
but a database error. -/

namespace Forail.CallbackBroker

variable {a : Attempt} {c : EventClass} {e e' : Event} {events : List Event} {buff : Buffer}

def Buffer.pending (buff : Buffer) : List Event := buff.flatMap Prod.snd

/-! ### Where the events are -/

/-- An event in the buffer afterwards. -/
structure Event.Later (e e' : Event) (failed : List ℕ) : Prop where
  uid : e'.uid = e.uid
  trigger : e'.notificationTriggerEvent = e.notificationTriggerEvent
  retries : e'.retryCount ≤ e.retryCount + failed.count e.uid

/-- Each event stays, or it is stored, or it is dropped after as many failed saves as it takes. -/
structure Kept (before after : List Event) (log : Log) : Prop where
  place : ∀ u, (before.map Event.uid).count u = (after.map Event.uid).count u + log.stored.count u +
    (log.dropped.map Prod.fst).count u
  kept : ∀ e' ∈ after, ∃ e ∈ before, e.Later e' log.failedSaves
  drops : ∀ d ∈ log.dropped, d.2 = .retries ∧ ∃ e ∈ before, e.uid = d.1 ∧
    individualEventRetries ≤ e.retryCount + log.failedSaves.count d.1
  fails : ∀ u ∈ log.failedSaves, u ∈ before.map Event.uid

theorem Event.Later.refl (e : Event) (failed : List ℕ) : e.Later e failed :=
  ⟨rfl, rfl, Nat.le_add_right _ _⟩

theorem Event.Later.mono {failed failed' : List ℕ} (h : e.Later e' failed)
    (hsub : ∀ u, failed.count u ≤ failed'.count u) : e.Later e' failed' :=
  ⟨h.uid, h.trigger, Nat.le_trans h.retries (Nat.add_le_add_left (hsub _) _)⟩

theorem Kept.refl (events : List Event) : Kept events events .empty :=
  ⟨fun _ => rfl, fun e he => ⟨e, he, .refl e _⟩, by nofun, by nofun⟩

theorem Log.append_empty (log : Log) : log.append .empty = log := by
  simp only [Log.append, Log.empty, List.append_nil]

theorem Kept.append {before after before' after' : List Event} {log log' : Log}
    (h : Kept before after log) (h' : Kept before' after' log') :
    Kept (before ++ before') (after ++ after') (log.append log') := by
  have hcount : ∀ u, log.failedSaves.count u ≤ (log.append log').failedSaves.count u := fun u => by
    rw [Log.append, List.count_append]
    exact Nat.le_add_right _ _
  have hcount' : ∀ u, log'.failedSaves.count u ≤ (log.append log').failedSaves.count u := fun u => by
    rw [Log.append, List.count_append]
    exact Nat.le_add_left _ _
  refine ⟨fun u => ?_, fun e' he' => ?_, fun d hd => ?_, fun u hu => ?_⟩
  · have hplace := h.place u
    have hplace' := h'.place u
    simp only [Log.append, List.map_append, List.count_append]
    omega
  · rcases List.mem_append.mp he' with he' | he'
    · obtain ⟨e, he, hlater⟩ := h.kept e' he'
      exact ⟨e, List.mem_append_left _ he, hlater.mono hcount⟩
    · obtain ⟨e, he, hlater⟩ := h'.kept e' he'
      exact ⟨e, List.mem_append_right _ he, hlater.mono hcount'⟩
  · rcases List.mem_append.mp hd with hd | hd
    · obtain ⟨hwhy, e, he, huid, hle⟩ := h.drops d hd
      exact ⟨hwhy, e, List.mem_append_left _ he, huid,
        Nat.le_trans hle (Nat.add_le_add_left (hcount _) _)⟩
    · obtain ⟨hwhy, e, he, huid, hle⟩ := h'.drops d hd
      exact ⟨hwhy, e, List.mem_append_right _ he, huid,
        Nat.le_trans hle (Nat.add_le_add_left (hcount' _) _)⟩
  · rw [List.map_append]
    exact List.mem_append.mpr ((List.mem_append.mp hu).imp (h.fails u) (h'.fails u))

/-- Events that differ in their dates. -/
theorem Kept.of_stamp {now : ℤ} {after : List Event} {log : Log}
    (h : Kept (events.map (Event.stamp now)) after log) : Kept events after log := by
  have huids : (events.map (Event.stamp now)).map Event.uid = events.map Event.uid := by
    rw [List.map_map]
    rfl
  refine ⟨fun u => huids ▸ h.place u, fun e' he' => ?_, fun d hd => ?_, fun u hu => huids ▸ h.fails u hu⟩
  · obtain ⟨s, hs, hlater⟩ := h.kept e' he'
    obtain ⟨e, he, rfl⟩ := List.mem_map.mp hs
    exact ⟨e, he, hlater.uid, hlater.trigger, hlater.retries⟩
  · obtain ⟨hwhy, s, hs, huid, hle⟩ := h.drops d hd
    obtain ⟨e, he, rfl⟩ := List.mem_map.mp hs
    exact ⟨hwhy, e, he, huid, hle⟩

/-! ### The saves one by one -/

def Saves.log (s : Saves) : Log :=
  ⟨s.saved.map Event.uid, s.failed, s.dropped.map fun u => (u, .retries), [], []⟩

theorem sanitize_some (h : Event.sanitize e = some e') : e'.uid = e.uid ∧
    e'.notificationTriggerEvent = e.notificationTriggerEvent ∧ e'.retryCount = e.retryCount := by
  rw [Event.sanitize] at h
  split_ifs at h
  · obtain ⟨s, -, rfl⟩ := Option.map_eq_some_iff.mp h
    exact ⟨rfl, rfl, rfl⟩
  · rw [← Option.some.inj h]
    exact ⟨rfl, rfl, rfl⟩

/-- The first event goes its way, the others theirs. -/
theorem Kept.cons {after : List Event} {log : Log} {es : List Event} (h : Kept [e] es log)
    {log' : Log} (h' : Kept events after log') :
    Kept (e :: events) (es ++ after) (log.append log') :=
  h.append h'

theorem saveEach_kept (a : Attempt) (events : List Event) :
    Kept events (saveEach a events).kept (saveEach a events).log := by
  induction events with
  | nil => exact .refl []
  | cons e events ih =>
    rw [saveEach]
    split_ifs with hsave
    · have hone : Kept [e] [] ⟨[e.uid], [], [], [], []⟩ :=
        ⟨fun u => by simp, by nofun, by nofun, by nofun⟩
      exact hone.cons ih
    · split
      · have hone : Kept [e] [{ e with retryCount := e.retryCount + 1 }] ⟨[], [e.uid], [], [], []⟩ :=
          ⟨fun u => by simp, fun e' he' => ⟨e, List.mem_cons_self, by
            rw [List.mem_singleton.mp he']
            exact ⟨rfl, rfl, by simp⟩⟩, by nofun, fun u hu => hu⟩
        exact hone.cons (.refl events)
      · next e' he' =>
        obtain ⟨huid, htrigger, hretries⟩ := sanitize_some he'
        split_ifs with hmax
        · have hone : Kept [e] [] ⟨[], [e.uid], [(e.uid, .retries)], [], []⟩ := by
            refine ⟨fun u => by simp, by nofun, fun d hd => ?_, fun u hu => hu⟩
            rw [List.mem_singleton.mp hd]
            refine ⟨rfl, e, List.mem_cons_self, rfl, ?_⟩
            rw [hretries] at hmax
            simpa using hmax
          exact hone.cons ih
        · have hone : Kept [e] [e'] ⟨[], [e.uid], [], [], []⟩ :=
            ⟨fun u => by simp [huid], fun e'' he'' => ⟨e, List.mem_cons_self, by
              rw [List.mem_singleton.mp he'']
              exact ⟨huid, htrigger, by simp [hretries]⟩⟩, by nofun, fun u hu => hu⟩
          exact hone.cons ih

/-- The text of an event whose save fails for the first time can be searched. -/
def Texts (a : Attempt) (events : List Event) : Prop :=
  ∀ e ∈ events, a.saveFails e.uid = true → e.retryCount = 0 → e.stdout ≠ none

theorem saveEach_of_texts (h : Texts a events) : (saveEach a events).raised = false ∧
    (saveEach a events).saved = events.filter fun e => !a.saveFails e.uid := by
  induction events with
  | nil => exact ⟨rfl, rfl⟩
  | cons e events ih =>
    obtain ⟨hraised, hsaved⟩ := ih fun e' he' => h e' (List.mem_cons_of_mem e he')
    rw [saveEach, List.filter_cons]
    split_ifs with hsave hfilter hfilter
    · exact ⟨hraised, congrArg (e :: ·) hsaved⟩
    · simp [hsave] at hfilter
    · simp at hfilter
      exact absurd hfilter hsave
    · split
      · next hnone =>
        have hstdout := h e List.mem_cons_self (Bool.not_eq_false _ ▸ hsave)
        rw [Event.sanitize] at hnone
        split_ifs at hnone with hfirst
        · exact absurd (Option.map_eq_none_iff.mp hnone) (hstdout (Nat.succ.inj hfirst))
      · split_ifs <;> exact ⟨hraised, hsaved⟩

/-! ### A class, and all classes -/

/-- No emission to the websocket fails. -/
def Emits (a : Attempt) (events : List Event) : Prop :=
  ∀ e ∈ events, e.skipWebsocketMessage = false → a.emitFails e.uid = false

def wrapups (events : List Event) : List ℕ :=
  (events.filter Event.notificationTriggerEvent).map Event.uid

theorem announce_of_emits (h : Emits a events) :
    (announce a events).2 = (wrapups events, false) := by
  induction events with
  | nil => rfl
  | cons e events ih =>
    have ih := ih fun e' he' => h e' (List.mem_cons_of_mem e he')
    have hemit : ¬ (e.skipWebsocketMessage = false ∧ a.emitFails e.uid = true) := by
      rintro ⟨hskip, hfail⟩
      rw [h e List.mem_cons_self hskip] at hfail
      cases hfail
    rw [announce, if_neg hemit]
    dsimp only
    rw [congrArg Prod.fst ih, congrArg Prod.snd ih, wrapups, wrapups, List.filter_cons]
    split_ifs <;> rfl

/-- What was stored is announced, once each. -/
structure Announced (before : List Event) (log : Log) : Prop where
  announced : ∃ saved : List Event, log.stored = saved.map Event.uid ∧ log.wrapups = wrapups saved ∧
    ∀ s ∈ saved, ∃ e ∈ before, s.uid = e.uid ∧
      s.notificationTriggerEvent = e.notificationTriggerEvent

theorem Announced.append {before before' : List Event} {log log' : Log} (h : Announced before log)
    (h' : Announced before' log') : Announced (before ++ before') (log.append log') := by
  obtain ⟨saved, hstored, hwrapups, hmem⟩ := h
  obtain ⟨saved', hstored', hwrapups', hmem'⟩ := h'
  refine ⟨saved ++ saved', ?_, ?_, fun s hs => ?_⟩
  · rw [Log.append, hstored, hstored', List.map_append]
  · rw [Log.append, hwrapups, hwrapups', wrapups, wrapups, wrapups, List.filter_append, List.map_append]
  · rcases List.mem_append.mp hs with hs | hs
    · obtain ⟨e, he, hsame⟩ := hmem s hs
      exact ⟨e, List.mem_append_left _ he, hsame⟩
    · obtain ⟨e, he, hsame⟩ := hmem' s hs
      exact ⟨e, List.mem_append_right _ he, hsame⟩

theorem Announced.empty (before : List Event) : Announced before .empty := ⟨[], rfl, rfl, by nofun⟩

theorem finish_kept {s : Saves} {missing : ℕ} (h : Kept events s.kept s.log) :
    Kept events (finish a s missing).kept (finish a s missing).log := by
  rw [finish]
  dsimp only
  split_ifs
  · exact h
  · exact ⟨h.place, h.kept, h.drops, h.fails⟩
  · exact ⟨h.place, h.kept, h.drops, h.fails⟩

theorem flushClass_kept (a : Attempt) (c : EventClass) (events : List Event) :
    Kept events (flushClass a c events).kept (flushClass a c events).log := by
  rw [flushClass]
  dsimp only
  split_ifs with hempty
  · rw [List.isEmpty_iff.mp hempty]
    exact .refl []
  · have hall : Kept (events.map (Event.stamp a.now)) []
        (Saves.log ⟨[], events.map (Event.stamp a.now), [], [], false⟩) :=
      ⟨fun u => by simp [Saves.log], by nofun, by nofun, by nofun⟩
    exact finish_kept (.of_stamp hall)
  · exact .of_stamp (.refl _)
  · exact finish_kept (.of_stamp (saveEach_kept a _))

theorem flushAll_kept (a : Attempt) (buff : Buffer) :
    Kept buff.pending (flushAll a buff).kept.pending (flushAll a buff).log := by
  induction buff with
  | nil => exact .refl []
  | cons x rest ih =>
    obtain ⟨c, events⟩ := x
    have hclass := flushClass_kept a c events
    rw [flushAll]
    dsimp only
    split
    · -- the classes after an exception stay as they are
      have h := hclass.append (.refl (Buffer.pending rest))
      rwa [Log.append_empty] at h
    · exact hclass.append ih

theorem flush_kept (a : Attempt) (force : Bool) (buff : Buffer) :
    Kept buff.pending (flush a force buff).kept.pending (flush a force buff).log := by
  rw [flush]
  split_ifs
  · dsimp only
    split_ifs <;> exact flushAll_kept a buff
  · exact .refl _

/-! ### A sound flush -/

/-- How many events of the class the flush saves. -/
def Attempt.saves (a : Attempt) (c : EventClass) (events : List Event) : ℕ :=
  if a.bulkFails c = false then events.length else events.countP fun e => !a.saveFails e.uid

/-- The database can be reached when the bulk save of the class fails. -/
def Attempt.Reaches (a : Attempt) (c : EventClass) (events : List Event) : Prop :=
  events ≠ [] → a.bulkFails c = true → a.unreachable c = false

def missingCreated (events : List Event) : ℕ := events.countP (·.created.isNone)

/-- The flush is not to end in a division by zero: if the database can be reached for each class,
then it does not save as many events as came without `created`. -/
def Dates (a : Attempt) (buff : Buffer) : Prop :=
  (∀ x ∈ buff, a.Reaches x.1 x.2) →
    0 < (buff.map fun x => a.saves x.1 x.2).sum →
      (buff.map fun x => a.saves x.1 x.2).sum ≠ (buff.map fun x => missingCreated x.2).sum

/-- No websocket message fails, every text can be searched, and no division is by zero. -/
structure Attempt.Sound (a : Attempt) (buff : Buffer) : Prop where
  emits : Emits a buff.pending
  texts : Texts a buff.pending
  dates : Dates a buff

theorem emits_stamp (now : ℤ) (h : Emits a events) : Emits a (events.map (Event.stamp now)) := by
  intro s hs
  obtain ⟨e, he, rfl⟩ := List.mem_map.mp hs
  exact h e he

theorem texts_stamp (now : ℤ) (h : Texts a events) : Texts a (events.map (Event.stamp now)) := by
  intro s hs
  obtain ⟨e, he, rfl⟩ := List.mem_map.mp hs
  exact h e he

theorem mem_stamp {now : ℤ} {s : Event} (h : s ∈ events.map (Event.stamp now)) :
    ∃ e ∈ events, s.uid = e.uid ∧ s.notificationTriggerEvent = e.notificationTriggerEvent := by
  obtain ⟨e, he, rfl⟩ := List.mem_map.mp h
  exact ⟨e, he, rfl, rfl⟩

/-- The saved events are announced and the flush goes on. -/
theorem finish_sound (s : Saves) (missing : ℕ) (hraised : s.raised = false) (hemits : Emits a s.saved)
    (hmem : ∀ x ∈ s.saved, ∃ e ∈ events, x.uid = e.uid ∧
      x.notificationTriggerEvent = e.notificationTriggerEvent) :
    Announced events (finish a s missing).log ∧ (finish a s missing).raised = none ∧
      (finish a s missing).saved = s.saved.length ∧ (finish a s missing).missing = missing := by
  have hannounce := announce_of_emits hemits
  rw [finish]
  dsimp only
  rw [hraised, congrArg Prod.fst hannounce, congrArg Prod.snd hannounce]
  exact ⟨⟨s.saved, rfl, rfl, hmem⟩, rfl, rfl, rfl⟩

/-- A class: what is stored is announced, and nothing but an unreachable database ends the flush. -/
theorem flushClass_sound (hemits : Emits a events) (htexts : Texts a events) :
    Announced events (flushClass a c events).log ∧
      ((flushClass a c events).raised = some .database ∨
        (flushClass a c events).raised = none ∧ a.Reaches c events ∧
          (flushClass a c events).saved = a.saves c events ∧
          (flushClass a c events).missing = missingCreated events) := by
  rw [flushClass]
  dsimp only
  split_ifs with hempty hbulk hreach
  · rw [List.isEmpty_iff.mp hempty]
    refine ⟨.empty _, .inr ⟨rfl, fun hne => absurd rfl hne, ?_, rfl⟩⟩
    rw [Attempt.saves]
    split_ifs <;> rfl
  · obtain ⟨hannounced, hraised, hsaved, hmissing⟩ :=
      finish_sound ⟨[], events.map (Event.stamp a.now), [], [], false⟩ (missingCreated events) rfl
        (emits_stamp a.now hemits) fun x hx => mem_stamp hx
    refine ⟨hannounced, .inr ⟨hraised, fun _ hfail => ?_, ?_, hmissing⟩⟩
    · rw [hbulk] at hfail
      cases hfail
    rw [Attempt.saves, if_pos hbulk, ← List.length_map (Event.stamp a.now)]
    exact hsaved
  · exact ⟨.empty _, .inl rfl⟩
  · obtain ⟨hraised, hsaved⟩ := saveEach_of_texts (texts_stamp a.now htexts)
    have hsub : ∀ x ∈ (saveEach a (events.map (Event.stamp a.now))).saved,
        x ∈ events.map (Event.stamp a.now) := by
      rw [hsaved]
      exact fun x hx => (List.mem_filter.mp hx).1
    obtain ⟨hannounced, hnone, hcount, hmissing⟩ := finish_sound _ (missingCreated events) hraised
      (fun x hx => emits_stamp a.now hemits x (hsub x hx)) fun x hx => mem_stamp (hsub x hx)
    refine ⟨hannounced, .inr ⟨hnone, fun _ _ => Bool.eq_false_iff.mpr hreach, ?_, hmissing⟩⟩
    rw [Attempt.saves, if_neg hbulk]
    refine hcount.trans ?_
    rw [hsaved, ← List.countP_eq_length_filter, List.countP_map]
    rfl

theorem flushAll_sound (hemits : Emits a buff.pending) (htexts : Texts a buff.pending) :
    Announced buff.pending (flushAll a buff).log ∧
      ((flushAll a buff).raised = some .database ∨
        (flushAll a buff).raised = none ∧ (∀ x ∈ buff, a.Reaches x.1 x.2) ∧
          (flushAll a buff).saved = (buff.map fun x => a.saves x.1 x.2).sum ∧
          (flushAll a buff).missing = (buff.map fun x => missingCreated x.2).sum) := by
  induction buff with
  | nil => exact ⟨.empty _, .inr ⟨rfl, by nofun, rfl, rfl⟩⟩
  | cons x rest ih =>
    obtain ⟨c, events⟩ := x
    obtain ⟨hclass, hend⟩ := flushClass_sound (c := c)
      (fun e he => hemits e (List.mem_append_left (Buffer.pending rest) he))
      fun e he => htexts e (List.mem_append_left (Buffer.pending rest) he)
    obtain ⟨hrest, hrestEnd⟩ := ih (fun e he => hemits e (List.mem_append_right events he))
      fun e he => htexts e (List.mem_append_right events he)
    rw [flushAll]
    dsimp only
    rcases hend with hraised | ⟨hraised, hreach, hsaved, hmissing⟩ <;> rw [hraised] <;> dsimp only
    · have h := hclass.append (.empty (Buffer.pending rest))
      rw [Log.append_empty] at h
      exact ⟨h, .inl rfl⟩
    · refine ⟨hclass.append hrest, ?_⟩
      rw [hsaved, hmissing, List.map_cons, List.sum_cons, List.map_cons, List.sum_cons]
      refine hrestEnd.imp_right fun ⟨hnone, hall, hs, hm⟩ =>
        ⟨hnone, fun x hx => ?_, congrArg _ hs, congrArg _ hm⟩
      rcases List.mem_cons.mp hx with rfl | hx
      · exact hreach
      · exact hall x hx

/-- A sound flush announces what it stores and raises nothing but a database error. -/
theorem flush_sound (h : a.Sound buff) (force : Bool) :
    Announced buff.pending (flush a force buff).log ∧
      ∀ x ∈ (flush a force buff).raised, x = .database := by
  rw [flush]
  split_ifs
  · obtain ⟨hannounced, hend⟩ := flushAll_sound h.emits h.texts
    dsimp only
    split_ifs with hzero
    · -- the division would be by zero
      obtain ⟨hnone, hpos, heq⟩ := hzero
      rcases hend with hdb | ⟨-, hreach, hsaved, hmissing⟩
      · rw [hnone] at hdb
        cases hdb
      · rw [hsaved] at hpos heq
        exact absurd (heq.trans hmissing) (h.dates hreach hpos)
    · refine ⟨hannounced, fun x hx => ?_⟩
      rcases hend with hdb | ⟨hnone, -⟩
      · rw [hdb] at hx
        exact (Option.some.inj hx).symm
      · rw [hnone] at hx
        cases hx
  · exact ⟨.empty _, by nofun⟩

end Forail.CallbackBroker
