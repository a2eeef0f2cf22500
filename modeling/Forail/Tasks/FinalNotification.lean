import Forail.Base.Register
import Forail.Base.Runs
import Forail.Models.UnifiedJob

/-! The final notification of a job. The end of the task stores the status and reads whether the
events are counted; the callback receiver stores the counts and reads whether the status is
final. Whoever comes second notifies, which each knows only if it holds the row's lock from its
read to its save. An attempt of the task that follows a database error does not lock. -/

namespace Forail.FinalNotification

/-- The columns that the two processes write and read. -/
structure UnifiedJob where
  status : Status
  hostStatusCounts : Option (List (String × ℕ))

inductive Template
  | succeeded | failed
  deriving DecidableEq

def template (status : Status) : Template := if status = .successful then .succeeded else .failed

/-- What the end of `run` knows: the status, whether the wrap-up event was dispatched, and how
often `update_model` tries again; and the counts of the wrap-up event. -/
structure Ending where
  status : Status
  wrapupEventDispatched : Bool
  maxAttempts : ℕ
  counts : List (String × ℕ)

/-- The arguments of a call of `update_model`. -/
structure Attempt where
  number : ℕ
  selectForUpdate : Bool

/-- The end of `run`: in `update_model` before and after the row is read, then with the instance
that it has returned. -/
inductive Run
  | attempting (a : Attempt)
  | reading (a : Attempt) (copy : Register.Copy UnifiedJob)
  | saved (a : Attempt) (copy : Register.Copy UnifiedJob)
  | finished (a : Attempt) (copy : Register.Copy UnifiedJob)
  | raised

/-- `job_stats_wrapup`. -/
inductive Wrapup
  | waiting
  | selected (copy : Register.Copy UnifiedJob)
  | saved (copy : Register.Copy UnifiedJob)
  | finished (copy : Register.Copy UnifiedJob)

inductive Owner
  | run | wrapup
  deriving DecidableEq

structure State where
  row : Register UnifiedJob
  lock : Option Owner
  run : Run
  wrapup : Wrapup
  notifications : List Template

inductive Event
  | runRead | runSave | runTest
  | databaseError | abort
  | wrapupSelect | wrapupSave | wrapupTest

/-- The recursive call after a database error: it leaves `select_for_update` at its default. -/
def Attempt.retry (a : Attempt) : Attempt := ⟨a.number + 1, false⟩

section Runs
variable (job : Ending)

/-- What the test at the end of `run` sends. -/
def runSends (copy : Register.Copy UnifiedJob) : List Template :=
  if copy.value.hostStatusCounts.isSome ∨ !job.wrapupEventDispatched then [template job.status]
  else []

/-- What the test of `job_stats_wrapup` sends. -/
def wrapupSends (copy : Register.Copy UnifiedJob) : List Template :=
  if !copy.value.status.active then [template copy.value.status] else []

def failed (a : Attempt) : Run := if a.number < job.maxAttempts then .attempting a.retry else .raised

/-- One step. A locking read and every save wait for the lock. -/
def exec (s : State) : Event → Option State
  | .runRead => match s.run with
    | .attempting a =>
      if !a.selectForUpdate then some { s with run := .reading a s.row.read }
      else if s.lock = none then some { s with run := .reading a s.row.read, lock := some .run }
      else none
    | _ => none
  | .runSave => match s.run with
    | .reading a copy =>
      if a.selectForUpdate ∨ s.lock = none then
        let row := s.row.store { s.row.value with status := job.status }
        some { s with row := row, run := .saved a copy, lock := none }
      else none
    | _ => none
  | .runTest => match s.run with
    | .saved a copy =>
      let notifications := s.notifications ++ runSends job copy
      some { s with run := .finished a copy, notifications := notifications }
    | _ => none
  | .databaseError => match s.run with
    | .attempting a => some { s with run := failed job a }
    | .reading a _ =>
      let lock := if a.selectForUpdate then none else s.lock
      some { s with run := failed job a, lock := lock }
    | _ => none
  | .abort => match s.run with
    | .attempting a => if 0 < a.number then some { s with run := .raised } else none
    | _ => none
  | .wrapupSelect => match s.wrapup with
    | .waiting =>
      if s.lock = none then some { s with wrapup := .selected s.row.read, lock := some .wrapup }
      else none
    | _ => none
  | .wrapupSave => match s.wrapup with
    | .selected copy =>
      let row := s.row.store { s.row.value with hostStatusCounts := some job.counts }
      some { s with row := row, wrapup := .saved copy, lock := none }
    | _ => none
  | .wrapupTest => match s.wrapup with
    | .saved copy =>
      let notifications := s.notifications ++ wrapupSends copy
      some { s with wrapup := .finished copy, notifications := notifications }
    | _ => none

/-- All interleavings of the two, on a row with any status whose events are not counted. -/
def endings : System State Event where
  init s := ∃ status, s = ⟨⟨⟨status, none⟩, []⟩, none, .attempting ⟨0, true⟩, .waiting, []⟩
  step s e s' := exec job s e = some s'

/-- One of the two has read what the other stored, and the wrap-up found the job active if it
came first. When neither has, the status was final before. -/
def Ordered (before : Status) (run wrapup : Register.Copy UnifiedJob) : Prop :=
  wrapup.seen = 1 ∨
  run.seen = 1 ∧ before.active = true ∨
  run.seen = 0 ∧ wrapup.seen = 0 ∧ before.active = false ∧ template before = template job.status

variable {job} {s s' : State}

/-- What a process has read of the row, once it has. -/
def Run.read : Run → Option (Attempt × Register.Copy UnifiedJob)
  | .reading a copy | .saved a copy | .finished a copy => some (a, copy)
  | .attempting _ | .raised => none

def Wrapup.read : Wrapup → Option (Register.Copy UnifiedJob)
  | .selected copy | .saved copy | .finished copy => some copy
  | .waiting => none

/-- The process has saved. -/
def Run.done : Run → Bool
  | .saved _ _ | .finished _ _ => true
  | .attempting _ | .reading _ _ | .raised => false

def Wrapup.done : Wrapup → Bool
  | .saved _ | .finished _ => true
  | .waiting | .selected _ => false

def Run.sent (job : Ending) : Run → List Template
  | .finished _ copy => runSends job copy
  | _ => []

def Wrapup.sent : Wrapup → List Template
  | .finished copy => wrapupSends copy
  | _ => []

/-- The row is what the processes that are done have made of it, and a copy shows what was stored
before it was read. Nothing is stored while another one holds the lock. -/
structure Inv (job : Ending) (s : State) : Prop where
  length : s.row.stores.length = s.run.done.toNat + s.wrapup.done.toNat
  status : s.row.value.status = if s.run.done then job.status else s.row.first.status
  counts : s.row.value.hostStatusCounts = if s.wrapup.done then some job.counts else none
  runRead : ∀ a c, s.run.read = some (a, c) →
    c.seen = 0 ∧ c.value.hostStatusCounts = none ∨
    c.seen = 1 ∧ c.value.hostStatusCounts = some job.counts ∧
      ∃ c', s.wrapup.read = some c' ∧ c'.seen = 0
  wrapupRead : ∀ c, s.wrapup.read = some c →
    c.seen = 0 ∧ c.value.status = s.row.first.status ∨
    c.seen = 1 ∧ c.value.status = job.status ∧ s.run.done = true
  runLock : ∀ a c, s.run = .reading a c → a.selectForUpdate = true →
    s.lock = some .run ∧ c.seen = s.row.stores.length
  wrapupLock : ∀ c, s.wrapup = .selected c → s.lock = some .wrapup
  atomic : ∀ a c, s.run.read = some (a, c) → a.selectForUpdate = true → s.run.done = true →
    c.seen = 0 → ∀ c', s.wrapup.read = some c' → c'.seen = 1
  notifications : s.notifications.Perm (s.run.sent job ++ s.wrapup.sent)

theorem Inv.read (h : Inv job s) {a : Attempt} (ha : s.run = .attempting a) {lock : Option Owner}
    (hlock : a.selectForUpdate = true → lock = some .run)
    (hwrapup : ∀ c, s.wrapup = .selected c → lock = some .wrapup) :
    Inv job { s with run := .reading a s.row.read, lock := lock } := by
  obtain ⟨row, lock₀, run, wrapup, notifications⟩ := s
  obtain rfl : run = .attempting a := ha
  refine ⟨h.length, h.status, h.counts, ?_, ?_, ?_, hwrapup, nofun, h.notifications⟩
  · rintro _ _ ⟨⟩
    have hlength := h.length
    have hcounts := h.counts
    cases hw : wrapup with
    | waiting | selected =>
      rw [hw] at hlength hcounts
      exact .inl ⟨hlength, hcounts⟩
    | saved c | finished c =>
      rw [hw] at hlength hcounts
      refine .inr ⟨hlength, hcounts, c, rfl, ?_⟩
      rcases h.wrapupRead c (by rw [hw]; rfl) with ⟨hc, -⟩ | ⟨-, -, hdone⟩
      · exact hc
      · cases hdone
  · intro c hc
    rcases h.wrapupRead c hc with hread | ⟨-, -, hdone⟩
    · exact .inl hread
    · cases hdone
  · rintro _ _ ⟨⟩ hl
    exact ⟨hlock hl, rfl⟩

theorem Inv.runSave (h : Inv job s) {a : Attempt} {c : Register.Copy UnifiedJob}
    (hr : s.run = .reading a c) (hlock : a.selectForUpdate = true ∨ s.lock = none) :
    Inv job { s with
      row := s.row.store { s.row.value with status := job.status }
      run := .saved a c
      lock := none } := by
  obtain ⟨row, lock, run, wrapup, notifications⟩ := s
  obtain rfl : run = .reading a c := hr
  -- the lock is not the wrap-up's
  have hfree (c' : Register.Copy UnifiedJob) : wrapup ≠ .selected c' := by
    intro hw
    have hheld := h.wrapupLock c' hw
    rcases hlock with hl | hl
    · rw [(h.runLock a c rfl hl).1] at hheld
      cases hheld
    · rw [show lock = none from hl] at hheld
      cases hheld
  refine ⟨?_, ?_, ?_, ?_, ?_, nofun, fun c' hw => absurd hw (hfree c'), ?_, h.notifications⟩
  · have hlength := h.length
    simp only [Run.done, Bool.toNat_false, Bool.toNat_true] at hlength ⊢
    rw [Register.stores_store, List.length_append, hlength, List.length_singleton, Nat.zero_add]
    exact Nat.add_comm _ _
  · rw [Register.value_store]
    rfl
  · rw [Register.value_store]
    exact h.counts
  · rintro _ _ ⟨⟩
    exact h.runRead a c rfl
  · intro c' hc'
    rcases h.wrapupRead c' hc' with hread | ⟨-, -, hdone⟩
    · exact .inl hread
    · cases hdone
  · rintro _ _ ⟨⟩ hl - hseen c' hc'
    have hlength := h.length
    rw [← (h.runLock a c rfl hl).2, hseen] at hlength
    cases wrapup with
    | waiting => cases hc'
    | selected c₀ => exact absurd rfl (hfree c₀)
    | saved | finished => cases hlength

theorem Inv.runTest (h : Inv job s) {a : Attempt} {c : Register.Copy UnifiedJob}
    (hr : s.run = .saved a c) :
    Inv job { s with run := .finished a c, notifications := s.notifications ++ runSends job c } := by
  obtain ⟨row, lock, run, wrapup, notifications⟩ := s
  obtain rfl : run = .saved a c := hr
  refine ⟨h.length, h.status, h.counts, ?_, h.wrapupRead, nofun, h.wrapupLock, ?_, ?_⟩
  · rintro _ _ ⟨⟩
    exact h.runRead a c rfl
  · rintro _ _ ⟨⟩ hl hd
    exact h.atomic a c rfl hl hd
  · have hn : notifications.Perm wrapup.sent := h.notifications
    exact (hn.append_right _).trans List.perm_append_comm

/-- An attempt has failed, and its lock is released. -/
theorem Inv.again (h : Inv job s) (hd : s.run.done = false) {run : Run} {lock : Option Owner}
    (hrun : run = .raised ∨ ∃ a, run = .attempting a)
    (hlock : ∀ c, s.wrapup = .selected c → lock = some .wrapup) :
    Inv job { s with run := run, lock := lock } := by
  obtain ⟨row, lock₀, run₀, wrapup, notifications⟩ := s
  have hread (c : Register.Copy UnifiedJob) (hc : wrapup.read = some c) :
      c.seen = 0 ∧ c.value.status = row.first.status := by
    rcases h.wrapupRead c hc with hread | ⟨-, -, hdone⟩
    · exact hread
    · rw [show run₀.done = true from hdone] at hd
      cases hd
  have hlength := h.length
  have hstatus := h.status
  have hn := h.notifications
  have hsent : run₀.sent job = [] := by
    cases run₀ with
    | finished => cases hd
    | _ => rfl
  rw [show run₀.done = false from hd] at hlength hstatus
  rw [show run₀.sent job = [] from hsent] at hn
  rcases hrun with rfl | ⟨a, rfl⟩ <;>
  exact ⟨hlength, hstatus, h.counts, nofun, fun c hc => .inl (hread c hc), nofun, hlock, nofun, hn⟩

theorem Inv.wrapupSelect (h : Inv job s) (hw : s.wrapup = .waiting) (hlock : s.lock = none) :
    Inv job { s with wrapup := .selected s.row.read, lock := some .wrapup } := by
  obtain ⟨row, lock, run, wrapup, notifications⟩ := s
  obtain rfl : wrapup = .waiting := hw
  have hlength := h.length
  have hstatus := h.status
  refine ⟨hlength, hstatus, h.counts, ?_, ?_, ?_, fun _ _ => rfl, ?_, h.notifications⟩
  · intro a c hc
    rcases h.runRead a c hc with hread | ⟨-, -, c', hc', -⟩
    · exact .inl hread
    · cases hc'
  · rintro _ ⟨⟩
    cases hd : run.done with
    | false =>
      rw [show run.done = false from hd] at hlength hstatus
      exact .inl ⟨hlength, hstatus⟩
    | true =>
      rw [show run.done = true from hd] at hlength hstatus
      exact .inr ⟨hlength, hstatus, rfl⟩
  · intro a c hr hl
    have hheld := (h.runLock a c hr hl).1
    rw [show lock = none from hlock] at hheld
    cases hheld
  · rintro a c - - hd - _ ⟨⟩
    rw [show run.done = true from hd] at hlength
    exact hlength

theorem Inv.wrapupSave (h : Inv job s) {c : Register.Copy UnifiedJob} (hw : s.wrapup = .selected c) :
    Inv job { s with
      row := s.row.store { s.row.value with hostStatusCounts := some job.counts }
      wrapup := .saved c
      lock := none } := by
  obtain ⟨row, lock, run, wrapup, notifications⟩ := s
  obtain rfl : wrapup = .selected c := hw
  refine ⟨?_, ?_, ?_, h.runRead, h.wrapupRead, ?_, nofun, h.atomic, h.notifications⟩
  · have hlength := h.length
    simp only [Wrapup.done, Bool.toNat_false, Bool.toNat_true] at hlength ⊢
    rw [Register.stores_store, List.length_append, hlength]
    rfl
  · rw [Register.value_store]
    exact h.status
  · rw [Register.value_store]
    rfl
  · intro a c' hr hl
    have hheld := (h.runLock a c' hr hl).1
    rw [show lock = some .wrapup from h.wrapupLock c rfl] at hheld
    cases hheld

theorem Inv.wrapupTest (h : Inv job s) {c : Register.Copy UnifiedJob} (hw : s.wrapup = .saved c) :
    Inv job { s with wrapup := .finished c, notifications := s.notifications ++ wrapupSends c } := by
  obtain ⟨row, lock, run, wrapup, notifications⟩ := s
  obtain rfl : wrapup = .saved c := hw
  refine ⟨h.length, h.status, h.counts, h.runRead, h.wrapupRead, h.runLock, nofun, h.atomic, ?_⟩
  have hn : notifications.Perm (run.sent job ++ []) := h.notifications
  rw [List.append_nil] at hn
  exact hn.append_right _

theorem Inv.step (h : Inv job s) {e : Event} (hs : exec job s e = some s') : Inv job s' := by
  cases e with
  | runRead =>
    cases hr : s.run with
    | attempting a =>
      simp only [exec, hr] at hs
      split_ifs at hs with hl hfree
      · obtain rfl := Option.some.inj hs
        exact h.read hr (fun hl' => by rw [hl'] at hl; cases hl) h.wrapupLock
      · obtain rfl := Option.some.inj hs
        refine h.read hr (fun _ => rfl) fun c hw => ?_
        rw [h.wrapupLock c hw] at hfree
        cases hfree
    | reading | saved | finished | raised =>
      simp only [exec, hr] at hs
      cases hs
  | runSave =>
    cases hr : s.run with
    | reading a c =>
      simp only [exec, hr] at hs
      obtain ⟨hl, hs⟩ := Option.ite_none_right_eq_some.mp hs
      exact Option.some.inj hs ▸ h.runSave hr hl
    | attempting | saved | finished | raised =>
      simp only [exec, hr] at hs
      cases hs
  | runTest =>
    cases hr : s.run with
    | saved a c =>
      simp only [exec, hr] at hs
      exact Option.some.inj hs ▸ h.runTest hr
    | attempting | reading | finished | raised =>
      simp only [exec, hr] at hs
      cases hs
  | databaseError =>
    have hfailed (a : Attempt) : failed job a = .raised ∨ ∃ a', failed job a = .attempting a' := by
      unfold failed
      split_ifs
      · exact .inr ⟨_, rfl⟩
      · exact .inl rfl
    cases hr : s.run with
    | attempting a =>
      simp only [exec, hr] at hs
      exact Option.some.inj hs ▸ h.again (by rw [hr]; rfl) (hfailed a) h.wrapupLock
    | reading a c =>
      simp only [exec, hr] at hs
      refine Option.some.inj hs ▸ h.again (by rw [hr]; rfl) (hfailed a) fun c' hw => ?_
      have hheld := h.wrapupLock c' hw
      split_ifs with hl
      · rw [(h.runLock a c hr hl).1] at hheld
        cases hheld
      · exact hheld
    | saved | finished | raised =>
      simp only [exec, hr] at hs
      cases hs
  | abort =>
    cases hr : s.run with
    | attempting a =>
      simp only [exec, hr] at hs
      obtain ⟨-, hs⟩ := Option.ite_none_right_eq_some.mp hs
      exact Option.some.inj hs ▸ h.again (by rw [hr]; rfl) (.inl rfl) h.wrapupLock
    | reading | saved | finished | raised =>
      simp only [exec, hr] at hs
      cases hs
  | wrapupSelect =>
    cases hw : s.wrapup with
    | waiting =>
      simp only [exec, hw] at hs
      obtain ⟨hl, hs⟩ := Option.ite_none_right_eq_some.mp hs
      exact Option.some.inj hs ▸ h.wrapupSelect hw hl
    | selected | saved | finished =>
      simp only [exec, hw] at hs
      cases hs
  | wrapupSave =>
    cases hw : s.wrapup with
    | selected c =>
      simp only [exec, hw] at hs
      exact Option.some.inj hs ▸ h.wrapupSave hw
    | waiting | saved | finished =>
      simp only [exec, hw] at hs
      cases hs
  | wrapupTest =>
    cases hw : s.wrapup with
    | saved c =>
      simp only [exec, hw] at hs
      exact Option.some.inj hs ▸ h.wrapupTest hw
    | waiting | selected | finished =>
      simp only [exec, hw] at hs
      cases hs

theorem inv (h : (endings job).Reachable s) : Inv job s := by
  refine h.invariant ?_ fun s e s' _ hi hs => hi.step hs
  rintro _ ⟨status, rfl⟩
  exact ⟨rfl, rfl, rfl, nofun, nofun, nofun, nofun, nofun, .nil⟩

/-- What the two have sent, by what they have read. -/
theorem sent_iff (hd : job.wrapupEventDispatched = true) (ht : job.status.terminal = true)
    (h : Inv job s) {a : Attempt} {c c' : Register.Copy UnifiedJob} (hr : s.run = .finished a c)
    (hw : s.wrapup = .finished c') :
    s.notifications = [template job.status] ↔ Ordered job s.row.first.status c c' := by
  have hactive : job.status.active = false := by
    cases hs : job.status <;> rw [hs] at ht <;> first | rfl | cases ht
  have hn := h.notifications
  rw [hr, hw] at hn
  have hrun := h.runRead a c (by rw [hr]; rfl)
  have hwrapup := h.wrapupRead c' (by rw [hw]; rfl)
  have hperm : s.notifications = [template job.status] ↔
      runSends job c ++ wrapupSends c' = [template job.status] := by
    constructor
    · intro hs
      rw [hs] at hn
      exact List.perm_singleton.mp hn.symm
    · intro hs
      rw [show Run.sent job (.finished a c) ++ Wrapup.sent (.finished c') = _ from hs] at hn
      exact List.perm_singleton.mp hn
  rw [hperm]
  unfold runSends wrapupSends Ordered
  rw [hd]
  rcases hrun with ⟨hseen, hcounts⟩ | ⟨hseen, hcounts, c₀, hc₀, hseen₀⟩
  · rcases hwrapup with ⟨hseen', hstatus⟩ | ⟨hseen', hstatus, -⟩
    · rw [hseen, hseen', hcounts, hstatus]
      cases s.row.first.status.active <;> simp
    · rw [hseen', hcounts, hstatus, hactive]
      simp
  · obtain rfl : c' = c₀ := by
      rw [hw] at hc₀
      exact Option.some.inj hc₀
    rcases hwrapup with ⟨hseen', hstatus⟩ | ⟨hseen', -, -⟩
    · rw [hseen, hseen', hcounts, hstatus]
      cases s.row.first.status.active <;> simp
    · rw [hseen₀] at hseen'
      cases hseen'

/-- When both have ended the final notification was sent once exactly if they were ordered, and
they were if the attempt that succeeded held the lock and the job was active. -/
theorem notified_once (hd : job.wrapupEventDispatched = true) (ht : job.status.terminal = true)
    (h : (endings job).Reachable s) {a : Attempt} {c c' : Register.Copy UnifiedJob}
    (hr : s.run = .finished a c) (hw : s.wrapup = .finished c') :
    (s.notifications = [template job.status] ↔ Ordered job s.row.first.status c c') ∧
    (a.selectForUpdate = true → s.row.first.status.active = true →
      s.notifications = [template job.status]) := by
  have hi := inv h
  refine ⟨sent_iff hd ht hi hr hw, fun hl hactive => (sent_iff hd ht hi hr hw).mpr ?_⟩
  rcases hi.runRead a c (by rw [hr]; rfl) with ⟨hseen, -⟩ | ⟨hseen, -⟩
  · exact .inl (hi.atomic a c (by rw [hr]; rfl) hl (by rw [hr]; rfl) hseen c' (by rw [hw]; rfl))
  · exact .inr (.inl ⟨hseen, hactive⟩)

end Runs

/-! ### A database error at the end of a job -/

def successfulEnding : Ending := ⟨.successful, true, 5, [("ok", 1)]⟩

def runningJob : State := ⟨⟨⟨.running, none⟩, []⟩, none, .attempting ⟨0, true⟩, .waiting, []⟩

def State.finished (s : State) : Bool := match s.run, s.wrapup with
  | .finished _ _, .finished _ => true
  | _, _ => false

theorem State.exists_of_finished {s : State} (h : s.finished = true) :
    ∃ a c c', s.run = .finished a c ∧ s.wrapup = .finished c' := by
  obtain ⟨row, lock, run, wrapup, notifications⟩ := s
  cases run with
  | finished a c =>
    cases wrapup with
    | finished c' => exact ⟨a, c, c', rfl, rfl⟩
    | waiting | selected | saved => cases h
  | attempting | reading | saved | raised => cases h

/-- The second attempt reads without the lock, the wrap-up comes before its save, and nobody
notifies. -/
theorem never_notified : ∃ s, (endings successfulEnding).Reachable s ∧ s.finished = true ∧
    s.notifications = [] := by
  obtain ⟨s, hrun, hs⟩ := System.exists_of_runAll (f := exec successfulEnding) (s := runningJob)
    (l := [.runRead, .databaseError, .runRead, .wrapupSelect, .wrapupSave, .wrapupTest, .runSave,
      .runTest])
    (P := fun s => s.finished = true ∧ s.notifications = []) (by decide)
  exact ⟨s, .runAll (fun _ _ _ _ h => h) (.init ⟨_, rfl⟩) hrun, hs⟩

/-- With the lock the wrap-up waits, and then notifies. -/
theorem notified_once_locked : ∃ s : State, s.notifications = [.succeeded] ∧
    ∃ c c', Ordered successfulEnding .running c c' := by
  obtain ⟨s, hrun, hs⟩ := System.exists_of_runAll (f := exec successfulEnding) (s := runningJob)
    (l := [.runRead, .runSave, .wrapupSelect, .wrapupSave, .runTest, .wrapupTest])
    (P := fun s => s.finished = true ∧ s.notifications = [.succeeded] ∧
      s.row.first.status = .running) (by decide)
  obtain ⟨a, c, c', hr, hw⟩ := s.exists_of_finished hs.1
  have hreach : (endings successfulEnding).Reachable s :=
    .runAll (fun _ _ _ _ h => h) (.init ⟨_, rfl⟩) hrun
  have hiff := (notified_once rfl rfl hreach hr hw).1
  exact ⟨s, hs.2.1, c, c', hs.2.2 ▸ hiff.mp hs.2.1⟩

end Forail.FinalNotification
