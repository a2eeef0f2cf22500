import Forail.Dispatch.CallbackFlush
import Mathlib.Data.List.Nodup

/-! The runs of the callback receiver. Every event received is in the buffer, stored or dropped,
and counted once; while the flushes are sound and every body makes an event, a drop comes only
after three failed saves or three unreachable databases, and each stored wrap-up event has had
its `job_stats_wrapup`. -/

namespace Forail.CallbackBroker

variable {w w' : Worker} {a : Attempt}

/-! ### What is to hold -/

/-- Why an event may be gone. -/
def Drop.Allowed (w : Worker) (u : ℕ) : Drop → Prop
  | .rejected => False
  | .retries => individualEventRetries ≤ w.log.failedSaves.count u
  | .gaveUp raised => raised.length = maxRetries + 1 ∧ ∀ x ∈ raised, x = .database

/-- No event is lost or doubled, and each wrap-up event that is stored is wrapped up once. -/
structure Faithful (w : Worker) : Prop where
  once : w.log.stored.Nodup
  found : ∀ u < w.received, u ∈ w.buffered.map Event.uid ∨ u ∈ w.log.stored ∨
    u ∈ w.log.dropped.map Prod.fst
  drops : ∀ d ∈ w.log.dropped, d.2.Allowed w d.1
  wrapups : ∀ u ∈ w.log.stored, u ∈ w.triggers → w.log.wrapups.count u = 1
  raised : ∀ x ∈ w.raised, x = .database

/-- Every body makes an event, and every flush is sound. -/
def Sound (w : Worker) : Step → Prop
  | .performWork body _ => body.event = some "FLUSH" ∨ body.event = some "EOF" ∨
      (body.createFromData w.received).isSome = true
  | .flush a => a.Sound w.buff

/-! ### Counting -/

/-- Where the events are, in any run. -/
structure Placed (w : Worker) : Prop where
  place : ∀ u, (w.buffered.map Event.uid).count u + w.log.stored.count u +
    (w.log.dropped.map Prod.fst).count u = if u < w.received then 1 else 0
  retries : ∀ e ∈ w.buffered, e.retryCount ≤ w.log.failedSaves.count e.uid
  fails : ∀ u ∈ w.log.failedSaves, u < w.received

theorem Placed.uid_lt (h : Placed w) {e : Event} (he : e ∈ w.buffered) : e.uid < w.received := by
  have hplace := h.place e.uid
  have hpos := List.count_pos_iff.mpr (List.mem_map_of_mem (f := Event.uid) he)
  by_contra hlt
  rw [if_neg hlt] at hplace
  omega

theorem push_count (c : EventClass) (e : Event) (buff : Buffer) (u : ℕ) :
    ((push c e buff).pending.map Event.uid).count u =
      (buff.pending.map Event.uid).count u + [e.uid].count u := by
  induction buff with
  | nil => simp [push, Buffer.pending]
  | cons x rest ih =>
    rw [push]
    split_ifs
    · simp only [Buffer.pending, List.flatMap_cons, List.map_append, List.count_append, List.map_cons,
        List.map_nil]
      omega
    · simp only [Buffer.pending, List.flatMap_cons, List.map_append, List.count_append] at ih ⊢
      omega

theorem mem_push {c : EventClass} {e e' : Event} {buff : Buffer} (h : e' ∈ (push c e buff).pending) :
    e' = e ∨ e' ∈ buff.pending := by
  induction buff with
  | nil => exact .inl (by simpa [push, Buffer.pending] using h)
  | cons x rest ih =>
    rw [push] at h
    split_ifs at h
    · simp only [Buffer.pending, List.flatMap_cons, List.mem_append, List.mem_singleton] at h ⊢
      rcases h with (h | h) | h
      · exact .inr (.inl h)
      · exact .inl h
      · exact .inr (.inr h)
    · simp only [Buffer.pending, List.flatMap_cons, List.mem_append] at h ⊢
      rcases h with h | h
      · exact .inr (.inl h)
      · exact (ih h).imp_right .inr

theorem createFromData_some {b : Body} {uid : ℕ} {e : Event} (h : b.createFromData uid = some e) :
    e.uid = uid ∧ e.retryCount = 0 := by
  rw [Body.createFromData] at h
  dsimp only at h
  split_ifs at h
  split at h
  · rw [← Option.some.inj h]
    exact ⟨rfl, rfl⟩
  · rw [← Option.some.inj h]
    exact ⟨rfl, rfl⟩
  · rw [← Option.some.inj h]
    exact ⟨rfl, rfl⟩
  · cases h

/-- The number of a new event is that of no other. -/
theorem Placed.performWork (h : Placed w) (body : Body) (emitFails : Bool) :
    Placed (w.performWork body emitFails) := by
  have hnew : ∀ u, (w.buffered.map Event.uid).count u + w.log.stored.count u +
      (w.log.dropped.map Prod.fst).count u + [w.received].count u =
        if u < w.received + 1 then 1 else 0 := by
    intro u
    have hplace := h.place u
    rw [List.count_singleton]
    split_ifs at hplace ⊢ with h1 h2 h3 <;> simp_all <;> omega
  rw [Worker.performWork]
  split_ifs
  · exact ⟨h.place, h.retries, h.fails⟩
  · exact ⟨h.place, h.retries, h.fails⟩
  · exact h
  · split
    · refine ⟨fun u => ?_, h.retries, fun u hu => Nat.lt_succ_of_lt (h.fails u hu)⟩
      rw [← hnew u]
      simp only [List.map_append, List.count_append, List.map_cons, List.map_nil, Worker.buffered]
      omega
    · next e he =>
      obtain ⟨huid, hzero⟩ := createFromData_some he
      refine ⟨fun u => ?_, fun e' he' => ?_, fun u hu => Nat.lt_succ_of_lt (h.fails u hu)⟩
      · have hpush := push_count body.cls e w.buff u
        rw [← hnew u, ← huid]
        simp only [Worker.buffered, Buffer.pending] at hpush ⊢
        omega
      · rcases mem_push he' with rfl | he'
        · rw [hzero]
          exact Nat.zero_le _
        · exact h.retries e' he'

/-- A flush moves the events to where its log has them. -/
theorem Placed.flush (h : Placed w) {force : Bool}
    (hbuff : w'.buff = (flush a force w.buff).kept)
    (hlog : w'.log = w.log.append (flush a force w.buff).log) (hreceived : w'.received = w.received) :
    Placed w' := by
  have hkept := flush_kept a force w.buff
  refine ⟨fun u => ?_, fun e' he' => ?_, fun u hu => ?_⟩
  · have hplace := h.place u
    have hmoved := hkept.place u
    rw [Worker.buffered, hbuff, hlog, hreceived, ← hplace]
    simp only [Log.append, List.map_append, List.count_append, Worker.buffered, Buffer.pending] at hmoved ⊢
    omega
  · rw [Worker.buffered, hbuff] at he'
    obtain ⟨e, he, hlater⟩ := hkept.kept e' he'
    rw [hlog, Log.append, List.count_append, hlater.uid]
    exact Nat.le_trans hlater.retries (Nat.add_le_add_right (h.retries e he) _)
  · rw [hlog, Log.append, List.mem_append] at hu
    rw [hreceived]
    rcases hu with hu | hu
    · exact h.fails u hu
    · obtain ⟨e, he, rfl⟩ := List.mem_map.mp (hkept.fails u hu)
      exact h.uid_lt he

/-- The whole buffer is dropped. -/
theorem Placed.drop (h : Placed w) {why : Drop} (hbuff : w'.buff = [])
    (hstored : w'.log.stored = w.log.stored) (hfailed : w'.log.failedSaves = w.log.failedSaves)
    (hdropped : w'.log.dropped = w.log.dropped ++ w.buffered.map fun e => (e.uid, why))
    (hreceived : w'.received = w.received) : Placed w' := by
  refine ⟨fun u => ?_, fun e he => ?_, fun u hu => ?_⟩
  · rw [Worker.buffered, hbuff, hstored, hdropped, hreceived, ← h.place u, List.map_append,
      List.count_append, List.map_map]
    show 0 + _ + (_ + (w.buffered.map Event.uid).count u) = _
    omega
  · rw [Worker.buffered, hbuff] at he
    cases he
  · rw [hfailed] at hu
    exact hreceived ▸ h.fails u hu

theorem Placed.turn (h : Placed w) (force : Bool) (raised : List Exn) (a : Attempt) :
    Placed (w.turn force raised a) := by
  rw [Worker.turn]
  dsimp only
  split
  · exact h.flush rfl rfl rfl
  · split_ifs
    · have hflush : Placed { w with
          buff := (CallbackBroker.flush a force w.buff).kept
          log := w.log.append (CallbackBroker.flush a force w.buff).log } := h.flush rfl rfl rfl
      exact hflush.drop rfl rfl rfl rfl rfl
    · exact h.flush rfl rfl rfl

theorem Placed.step {e : Step} (h : Placed w) (hs : exec w e = some w') : Placed w' := by
  cases e with
  | performWork body emitFails =>
    simp only [exec] at hs
    split at hs
    · exact Option.some.inj hs ▸ h.performWork body emitFails
    · cases hs
  | flush a =>
    simp only [exec] at hs
    split at hs
    · cases hs
    · exact Option.some.inj hs ▸ h.turn _ _ a

theorem placed_initial : Placed .initial := ⟨fun _ => rfl, by nofun, by nofun⟩

theorem Placed.count_le_one (h : Placed w) (u : ℕ) : (w.buffered.map Event.uid).count u +
    w.log.stored.count u + (w.log.dropped.map Prod.fst).count u ≤ 1 := by
  rw [h.place u]
  split_ifs <;> omega

/-! ### Wrapping up -/

/-- The marks of the events, and the calls for those that are stored. -/
structure Wrapped (w : Worker) : Prop where
  marks : ∀ e ∈ w.buffered, e.notificationTriggerEvent = true ↔ e.uid ∈ w.triggers
  triggers : ∀ u ∈ w.triggers, u < w.received
  stored : ∀ u ∈ w.log.stored, u ∈ w.triggers → w.log.wrapups.count u = 1
  others : ∀ u, u ∉ w.log.stored → w.log.wrapups.count u = 0

/-- The exceptions of the loop, which is not at its end. -/
def Phase.Retrying : Phase → Prop
  | .idle => True
  | .flushing _ raised => raised.length ≤ maxRetries ∧ ∀ x ∈ raised, x = .database

structure Right (w : Worker) : Prop where
  placed : Placed w
  wrapped : Wrapped w
  drops : ∀ d ∈ w.log.dropped, d.2.Allowed w d.1
  raised : ∀ x ∈ w.raised, x = .database
  phase : w.phase.Retrying

theorem wrapups_count_le (events : List Event) (u : ℕ) :
    (wrapups events).count u ≤ (events.map Event.uid).count u :=
  (List.filter_sublist.map Event.uid).count_le u

theorem Wrapped.performWork (h : Wrapped w) (hplaced : Placed w) (body : Body) (emitFails : Bool) :
    Wrapped (w.performWork body emitFails) := by
  rw [Worker.performWork]
  split_ifs
  · exact ⟨h.marks, h.triggers, h.stored, h.others⟩
  · exact ⟨h.marks, h.triggers, h.stored, h.others⟩
  · exact h
  · split
    · exact ⟨h.marks, fun u hu => Nat.lt_succ_of_lt (h.triggers u hu), h.stored, h.others⟩
    · next e he =>
      obtain ⟨huid, -⟩ := createFromData_some he
      -- the new event is neither stored nor marked so far
      have hfresh : w.received ∉ w.triggers := fun hu => Nat.lt_irrefl _ (h.triggers _ hu)
      have hunstored : w.received ∉ w.log.stored := fun hu => by
        have hplace := hplaced.place w.received
        rw [if_neg (Nat.lt_irrefl _)] at hplace
        have hpos := List.count_pos_iff.mpr hu
        omega
      have hmem : ∀ u, u ∈ (if e.notificationTriggerEvent then w.triggers ++ [e.uid] else w.triggers) ↔
          u ∈ w.triggers ∨ e.notificationTriggerEvent = true ∧ u = w.received := by
        intro u
        rw [← huid]
        split_ifs with ht <;> simp [ht]
      refine ⟨fun e' he' => ?_, fun u hu => ?_, fun u hu ht => ?_, h.others⟩
      · dsimp only
        rw [hmem]
        rcases mem_push he' with rfl | he'
        · rw [huid]
          exact ⟨fun ht => .inr ⟨ht, rfl⟩, fun ht => ht.elim (fun hu => absurd hu hfresh) And.left⟩
        · have hlt := hplaced.uid_lt he'
          rw [h.marks e' he']
          exact ⟨.inl, fun ht => ht.elim id fun ht => absurd ht.2 (Nat.ne_of_lt hlt)⟩
      · rcases (hmem u).mp hu with hu | ⟨-, rfl⟩
        · exact Nat.lt_succ_of_lt (h.triggers u hu)
        · exact Nat.lt_succ_self _
      · rcases (hmem u).mp ht with ht | ⟨-, rfl⟩
        · exact h.stored u hu ht
        · exact absurd hu hunstored

/-- What a sound flush stores is wrapped up. -/
theorem Wrapped.flush (h : Wrapped w) (hplaced : Placed w) {force : Bool}
    (hannounced : Announced w.buffered (flush a force w.buff).log)
    (hbuff : w'.buff = (flush a force w.buff).kept)
    (hlog : w'.log = w.log.append (flush a force w.buff).log) (hreceived : w'.received = w.received)
    (htriggers : w'.triggers = w.triggers) : Wrapped w' := by
  have hkept := flush_kept a force w.buff
  obtain ⟨saved, hsaved, hwrapups, hmem⟩ := hannounced
  have hone : ∀ u, (saved.map Event.uid).count u + w.log.stored.count u ≤ 1 := fun u => by
    have hmoved := hkept.place u
    rw [hsaved] at hmoved
    have hle := hplaced.count_le_one u
    simp only [Worker.buffered, Buffer.pending] at hmoved hle
    omega
  refine ⟨fun e' he' => ?_, fun u hu => ?_, fun u hu ht => ?_, fun u hu => ?_⟩
  · rw [Worker.buffered, hbuff] at he'
    obtain ⟨e, he, hlater⟩ := hkept.kept e' he'
    rw [htriggers, hlater.uid, hlater.trigger]
    exact h.marks e he
  · rw [hreceived]
    exact h.triggers u (htriggers ▸ hu)
  · rw [hlog, Log.append, hsaved, List.mem_append] at hu
    rw [htriggers] at ht
    rw [hlog, Log.append, hwrapups, List.count_append]
    have hle := hone u
    have hwle := wrapups_count_le saved u
    rcases hu with hu | hu
    · have hpos := List.count_pos_iff.mpr hu
      rw [h.stored u hu ht]
      omega
    · -- it was not stored before, and its mark makes it a wrap-up
      have hpos := List.count_pos_iff.mpr hu
      have hnot : u ∉ w.log.stored := fun hold => by
        have hpos' := List.count_pos_iff.mpr hold
        omega
      have hmarked : u ∈ wrapups saved := by
        obtain ⟨s, hs, rfl⟩ := List.mem_map.mp hu
        obtain ⟨e, he, huid, hmark⟩ := hmem s hs
        refine List.mem_map_of_mem (List.mem_filter.mpr ⟨hs, ?_⟩)
        rw [hmark]
        exact (h.marks e he).mpr (huid ▸ ht)
      have hposw := List.count_pos_iff.mpr hmarked
      rw [h.others u hnot]
      omega
  · rw [hlog, Log.append, hsaved, List.mem_append, not_or] at hu
    rw [hlog, Log.append, hwrapups, List.count_append, h.others u hu.1]
    have hzero := List.count_eq_zero_of_not_mem hu.2
    have hwle := wrapups_count_le saved u
    omega

theorem Drop.Allowed.mono {u : ℕ} {d : Drop} (h : d.Allowed w u)
    (hsub : w.log.failedSaves.count u ≤ w'.log.failedSaves.count u) : d.Allowed w' u := by
  cases d with
  | rejected => exact h
  | retries => exact Nat.le_trans h hsub
  | gaveUp raised => exact h

/-- A flush drops only events whose third save failed. -/
theorem Right.drops_flush (h : Right w) {force : Bool}
    (hlog : w'.log = w.log.append (flush a force w.buff).log) :
    ∀ d ∈ w'.log.dropped, d.2.Allowed w' d.1 := by
  have hkept := flush_kept a force w.buff
  have hcount : ∀ u, w'.log.failedSaves.count u =
      w.log.failedSaves.count u + (flush a force w.buff).log.failedSaves.count u := fun u => by
    rw [hlog, Log.append, List.count_append]
  intro d hd
  rw [hlog, Log.append, List.mem_append] at hd
  rcases hd with hd | hd
  · exact (h.drops d hd).mono (hcount d.1 ▸ Nat.le_add_right _ _)
  · obtain ⟨hwhy, e, he, huid, hle⟩ := hkept.drops d hd
    have hretries := h.placed.retries e he
    rw [huid] at hretries
    rw [hwhy]
    show individualEventRetries ≤ w'.log.failedSaves.count d.1
    rw [hcount]
    omega

theorem Right.turn (h : Right w) {force : Bool} {raised : List Exn}
    (hphase : w.phase = .flushing force raised) (hsound : a.Sound w.buff) :
    Right (w.turn force raised a) := by
  have hplaced := h.placed.turn force raised a
  obtain ⟨hannounced, hdatabase⟩ := flush_sound hsound force
  have hretrying := h.phase
  rw [hphase] at hretrying
  obtain ⟨hlength, hraised⟩ := hretrying
  rw [Worker.turn] at hplaced ⊢
  dsimp only at hplaced ⊢
  split at hplaced
  · exact ⟨hplaced, h.wrapped.flush h.placed hannounced rfl rfl rfl rfl, h.drops_flush rfl, h.raised,
      trivial⟩
  · next x hx =>
    have hraised' : ∀ y ∈ raised ++ [x], y = .database := fun y hy =>
      (List.mem_append.mp hy).elim (hraised y) fun hy => by
        rw [List.mem_singleton.mp hy]
        exact hdatabase x hx
    have hall : ∀ y ∈ w.raised ++ [x], y = .database := fun y hy =>
      (List.mem_append.mp hy).elim (h.raised y) fun hy => by
        rw [List.mem_singleton.mp hy]
        exact hdatabase x hx
    split_ifs at hplaced ⊢ with hmax
    · have hwrapped : Wrapped { w with
          buff := (flush a force w.buff).kept, log := w.log.append (flush a force w.buff).log } :=
        h.wrapped.flush h.placed hannounced rfl rfl rfl rfl
      have hdrops := @Right.drops_flush w { w with
        buff := (flush a force w.buff).kept
        log := w.log.append (flush a force w.buff).log } a h force rfl
      refine ⟨hplaced, ⟨by nofun, hwrapped.triggers, hwrapped.stored, hwrapped.others⟩, ?_, hall, trivial⟩
      intro d hd
      rcases List.mem_append.mp hd with hd | hd
      · exact (hdrops d hd).mono (Nat.le_refl _)
      · obtain ⟨e, -, rfl⟩ := List.mem_map.mp hd
        refine ⟨?_, hraised'⟩
        rw [List.length_append, List.length_singleton, Nat.le_antisymm hlength hmax]
    · refine ⟨hplaced, h.wrapped.flush h.placed hannounced rfl rfl rfl rfl, h.drops_flush rfl, hall, ?_,
        hraised'⟩
      rw [List.length_append, List.length_singleton]
      exact Nat.not_le.mp hmax

theorem Right.performWork (h : Right w) (hidle : w.phase = .idle) {body : Body} {emitFails : Bool}
    (hsound : Sound w (.performWork body emitFails)) : Right (w.performWork body emitFails) := by
  have hplaced := h.placed.performWork body emitFails
  have hwrapped := h.wrapped.performWork h.placed body emitFails
  rw [Worker.performWork] at hplaced hwrapped ⊢
  split_ifs at hplaced hwrapped ⊢ with hflush heof
  · exact ⟨hplaced, hwrapped, h.drops, h.raised, Nat.zero_le _, by nofun⟩
  · exact ⟨hplaced, hwrapped, h.drops, h.raised, hidle ▸ trivial⟩
  · exact h
  · have hsome := (hsound.resolve_left hflush).resolve_left heof
    obtain ⟨e, he⟩ := Option.isSome_iff_exists.mp hsome
    rw [he] at hplaced hwrapped ⊢
    exact ⟨hplaced, hwrapped, h.drops, h.raised, Nat.zero_le _, by nofun⟩

theorem Right.step {e : Step} (h : Right w) (hs : exec w e = some w') (hsound : Sound w e) :
    Right w' := by
  cases e with
  | performWork body emitFails =>
    simp only [exec] at hs
    split at hs
    · next hidle => exact Option.some.inj hs ▸ h.performWork hidle hsound
    · cases hs
  | flush a =>
    simp only [exec] at hs
    split at hs
    · cases hs
    · next hphase => exact Option.some.inj hs ▸ h.turn hphase hsound

theorem right_initial : Right .initial :=
  ⟨placed_initial, ⟨by nofun, by nofun, by nofun, fun _ _ => rfl⟩, by nofun, by nofun, trivial⟩

theorem Right.faithful (h : Right w) : Faithful w := by
  refine ⟨List.nodup_iff_count_le_one.mpr fun u => ?_, fun u hu => ?_, h.drops, h.wrapped.stored, h.raised⟩
  · have hle := h.placed.count_le_one u
    omega
  · have hplace := h.placed.place u
    rw [if_pos hu] at hplace
    rw [← List.count_pos_iff, ← List.count_pos_iff, ← List.count_pos_iff]
    omega

/-- In a run of sound flushes over bodies that make events, nothing is lost or doubled. -/
theorem faithful_of_sound (h : (callbackWorker.restrict Sound).Reachable w) : Faithful w := by
  have hright : Right w := by
    refine System.Reachable.invariant (S := callbackWorker.restrict Sound)
      (fun w hi => ?_) (fun w e w' _ hinv hs => hinv.step hs.1 hs.2) h
    rw [show w = .initial from hi]
    exact right_initial
  exact hright.faithful

/-! ### Runs -/

/-- A stats event of a job, and an event of another class. -/
def stats : Body := ⟨some "playbook_on_stats", [("job_id", 5)], .time 0, some "", false, false⟩

def line (reference : String) : Body := ⟨some "verbose", [(reference, 5)], .time 0, some "", false, false⟩

/-- A flush of the whole buffer in which all goes well. -/
def quiet : Attempt := ⟨true, 1, fun _ => false, fun _ => false, fun _ => false, fun _ => false⟩

/-- The channel layer fails; an event without `created`; one without text that cannot be saved;
one that cannot be made; the channel layer fails in three flushes, with four classes to flush. -/
def failing : List (List Step) :=
  let mute : Step := .flush { quiet with emitFails := fun _ => true }
  let later : Step := .flush { quiet with due := false }
  [[.performWork stats false, mute],
    [.performWork { stats with created := .absent } false, .flush quiet],
    [.performWork { stats with stdout := none } false,
      .flush { quiet with bulkFails := fun _ => true, saveFails := fun _ => true }],
    [.performWork { stats with broken := true } false],
    [.performWork stats false, later, .performWork (line "ad_hoc_command_id") false, later,
      .performWork (line "project_update_id") false, later, .performWork (line "system_job_id") false,
      mute, mute, mute]]

/-- A stored wrap-up event is not wrapped up, an exception is none of the database, or an event
is dropped without three failed saves and three unreachable databases. -/
def Broken (w : Worker) : Prop :=
  (∃ u ∈ w.log.stored, u ∈ w.triggers ∧ w.log.wrapups.count u ≠ 1) ∨
    (∃ x ∈ w.raised, x ≠ .database) ∨ ∃ d ∈ w.log.dropped, d.2 = .rejected ∨
      d.2 = .gaveUp [.channel, .channel, .channel]

instance : DecidablePred Broken := fun w => by
  unfold Broken
  infer_instance

theorem Broken.not_faithful (h : Broken w) : ¬ Faithful w := by
  intro hfaithful
  rcases h with ⟨u, hu, htrigger, hcount⟩ | ⟨x, hx, hne⟩ | ⟨⟨u, d⟩, hd, hwhy⟩
  · exact hcount (hfaithful.wrapups u hu htrigger)
  · exact hne (hfaithful.raised x hx)
  · have hallowed := hfaithful.drops (u, d) hd
    rcases hwhy with rfl | rfl
    · exact hallowed
    · exact absurd (hallowed.2 .channel List.mem_cons_self) (by decide)

theorem failing_not_faithful : failing ≠ [] ∧ ∀ es ∈ failing, ∃ w,
    System.runAll exec .initial es = some w ∧ callbackWorker.Reachable w ∧ ¬ Faithful w := by
  have hall : ∀ es ∈ failing, (System.runAll exec .initial es).any
      (fun w => decide (Broken w)) = true := by decide
  refine ⟨List.cons_ne_nil _ _, fun es hes => ?_⟩
  obtain ⟨w, hrun, hbroken⟩ := System.exists_of_runAll (hall es hes)
  have hreach : callbackWorker.Reachable w := .runAll (fun _ _ _ _ hs => hs) (.init rfl) hrun
  exact ⟨w, hrun, hreach, hbroken.not_faithful⟩

/-- No dates are missing. -/
theorem dates_of_created {buff : Buffer} (h : ∀ x ∈ buff, ∀ e ∈ x.2, e.created.isSome = true) :
    Dates a buff := by
  intro _ hpos heq
  have hzero : (buff.map fun x => missingCreated x.2).sum = 0 := by
    refine List.sum_eq_zero fun n hn => ?_
    obtain ⟨x, hx, rfl⟩ := List.mem_map.mp hn
    refine List.countP_eq_zero.mpr fun e he => ?_
    rw [Option.isNone_iff_eq_none]
    intro hnone
    have hsome := h x hx e he
    rw [hnone] at hsome
    cases hsome
  omega

/-- Every event has a date and a text, every body makes an event and every message is sent. -/
def Clear (w : Worker) (e : Step) : Prop :=
  (∀ x ∈ w.buff, ∀ e ∈ x.2, e.created.isSome = true ∧ e.stdout.isSome = true) ∧
    match e with
    | .performWork body _ => body.event = some "FLUSH" ∨ (body.createFromData w.received).isSome = true
    | .flush a => ∀ e ∈ w.buffered, a.emitFails e.uid = false

instance (w : Worker) : ∀ e : Step, Decidable (Clear w e)
  | .performWork .. => inferInstanceAs (Decidable (_ ∧ (_ ∨ _)))
  | .flush a => inferInstanceAs (Decidable (_ ∧ ∀ e ∈ w.buffered, a.emitFails e.uid = false))

theorem Clear.sound {e : Step} (h : Clear w e) : Sound w e := by
  obtain ⟨hevents, h⟩ := h
  cases e with
  | performWork body emitFails => exact h.imp_right .inr
  | flush a =>
    refine ⟨fun e he _ => h e he, fun e he _ _ hnone => ?_,
      dates_of_created fun x hx e he => (hevents x hx e he).1⟩
    obtain ⟨x, hx, he⟩ := List.mem_flatMap.mp he
    have hsome := (hevents x hx e he).2
    rw [hnone] at hsome
    cases hsome

/-- A save that fails with the bulk, and then one that does not: the event is wrapped up once. -/
theorem faithful_of_retry : ∃ w : Worker, w.log.failedSaves = [0] ∧ w.log.stored = [0] ∧
    w.log.wrapups = [0] ∧ Faithful w := by
  let bad : Attempt := { quiet with bulkFails := fun _ => true, saveFails := fun _ => true }
  let run : List Step := [.performWork stats false, .flush bad,
    .performWork ⟨some "FLUSH", [], .absent, none, false, false⟩ false, .flush quiet]
  obtain ⟨w, hrun, hfailed, hstored, hwrapups⟩ : ∃ w, System.runAll (System.guarded exec Clear)
      .initial run = some w ∧ w.log.failedSaves = [0] ∧ w.log.stored = [0] ∧ w.log.wrapups = [0] :=
    System.exists_of_runAll (by decide)
  have hreach : (callbackWorker.restrict Sound).Reachable w := by
    refine System.Reachable.runAll (fun e _ s s' hs => ?_) (.init rfl) hrun
    obtain ⟨hclear, hs⟩ := Option.ite_none_right_eq_some.mp hs
    exact ⟨hs, hclear.sound⟩
  exact ⟨w, hfailed, hstored, hwrapups, faithful_of_sound hreach⟩

end Forail.CallbackBroker
