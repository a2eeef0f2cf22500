import Forail.Base.Dict
import Mathlib.Data.Nat.Init

/-! One worker of the dispatcher pool: the parent's view of it (`managed_tasks`, the two
queues) and its child process, which takes a message, works on it and reports its uuid.
In every state that the two can reach together the parent's view is the child's: the
managed tasks are the messages reported but not read back, then the one being run, then
those in the queue, in this order. -/

namespace Forail.Dispatch

/-- A message as some caller built it; `put` stamps one that has no uuid. -/
structure Body where
  uuid : Option ℕ
  task : String
  errbacks : List String
  deriving DecidableEq

structure Message where
  uuid : ℕ
  task : String
  errbacks : List String
  deriving DecidableEq

def Body.stamp (b : Body) (fresh : ℕ) : Message := ⟨b.uuid.getD fresh, b.task, b.errbacks⟩

def Message.body (m : Message) : Body := ⟨some m.uuid, m.task, m.errbacks⟩

/-- An error callback is a message of its own, without a uuid. -/
def Message.errbackBodies (m : Message) : List Body := m.errbacks.map fun t => ⟨none, t, []⟩

/-- A value of `managed_tasks`: the message, with the two entries that `cleanup` adds. -/
structure Task where
  message : Message
  started : Option ℤ
  age : Option ℤ
  deriving DecidableEq

inductive Item
  | message (m : Message)
  | quit
  deriving DecidableEq

def Item.message? : Item → Option Message
  | .message m => some m
  | .quit => none

/-- `running` and `alive` belong to the child process. -/
structure PoolWorker where
  ident : ℕ
  messagesSent : ℕ
  messagesFinished : ℕ
  managedTasks : Dict ℕ Task
  queue : List Item
  finished : List ℕ
  running : Option Message
  alive : Bool

/-- What `finished` still holds is read back: delete the task, unless the uuid was a duplicate. -/
def forget (acc : Dict ℕ Task × ℕ) (uuid : ℕ) : Dict ℕ Task × ℕ :=
  if uuid ∈ acc.1.keys then (acc.1.erase uuid, acc.2 + 1) else acc

def endings : List String := ["tasks.task_manager", "tasks.dependency_manager", "tasks.workflow_manager"]

def managesTasks (task : String) : Bool :=
  endings.any fun e => e.toList.isSuffixOf task.toList

/-- The start time is set when the task is first seen. -/
def Task.timed (t : Task) (now : ℤ) : Task :=
  { t with started := some (t.started.getD now), age := some (now - t.started.getD now) }

namespace PoolWorker

def start (ident : ℕ) : PoolWorker := ⟨ident, 0, 0, .empty, [], [], none, true⟩

def calculateManagedTasks (w : PoolWorker) : PoolWorker :=
  { w with
    managedTasks := (w.finished.foldl forget (w.managedTasks, w.messagesFinished)).1
    messagesFinished := (w.finished.foldl forget (w.managedTasks, w.messagesFinished)).2
    finished := [] }

/-- The queue has room for the message. -/
def put (w : PoolWorker) (m : Message) : PoolWorker :=
  calculateManagedTasks { w with
    managedTasks := w.managedTasks.set m.uuid ⟨m, none, none⟩
    queue := w.queue ++ [.message m]
    messagesSent := w.messagesSent + 1 }

def quit (w : PoolWorker) : PoolWorker := { w with queue := w.queue ++ [.quit] }

/-- The first managed task, and the worker after the reading of `finished` that comes before. -/
def currentTask (w : PoolWorker) : Option Task × PoolWorker :=
  let w := w.calculateManagedTasks
  (w.managedTasks.entries.head?.map Prod.snd, w)

def orphanedTasks (w : PoolWorker) : List Body × PoolWorker :=
  if w.alive then ([], w)
  else
    let (current, w) := w.currentTask
    ((current.map fun t => t.message.errbackBodies).getD [] ++
      (w.queue.filterMap Item.message?).map Message.body, { w with queue := [] })

def busy (w : PoolWorker) : Bool × PoolWorker :=
  let w := w.calculateManagedTasks
  (decide (0 < w.managedTasks.entries.length), w)

/-- The end of the loop body of `cleanup`; the answer says that SIGUSR1 is sent. -/
def checkTimeout (w : PoolWorker) (timeout now : ℤ) : Bool × PoolWorker :=
  match w.currentTask with
  | (none, w) => (false, w)
  | (some t, w) =>
    if managesTasks t.message.task then
      (decide (timeout < now - t.started.getD now),
        { w with managedTasks := w.managedTasks.set t.message.uuid (t.timed now) })
    else (false, w)

/-! ### The child process -/

/-- `work_loop` reads the next item; QUIT ends it. -/
def take (w : PoolWorker) : Option PoolWorker :=
  if w.alive ∧ w.running = none then
    match w.queue with
    | [] => none
    | .message m :: q => some { w with running := some m, queue := q }
    | .quit :: q => some { w with alive := false, queue := q }
  else none

def finish (w : PoolWorker) : Option (ℕ × PoolWorker) :=
  match w.alive, w.running with
  | true, some m => some (m.uuid, { w with running := none, finished := w.finished ++ [m.uuid] })
  | _, _ => none

def die (w : PoolWorker) : Option PoolWorker :=
  if w.alive then some { w with alive := false } else none

/-! ### The two views -/

/-- The uuids of the messages in the queue. -/
def queued (w : PoolWorker) : List ℕ := (w.queue.filterMap Item.message?).map Message.uuid

/-- The uuid of the message that the child runs, or ran when it died. -/
def inWork (w : PoolWorker) : List ℕ := (w.running.map Message.uuid).toList

/-- The messages that the worker has and has not finished. -/
def held (w : PoolWorker) : List ℕ := w.inWork ++ w.queued

/-- The managed tasks are in the order of the child, each under the uuid of its message. -/
structure Ok (w : PoolWorker) : Prop where
  keys : w.managedTasks.keys = w.finished ++ w.held
  uuids : ∀ e ∈ w.managedTasks.entries, e.2.message.uuid = e.1

theorem keys_forget (fin rest : List ℕ) (d : Dict ℕ Task) (n : ℕ) (h : d.keys = fin ++ rest) :
    (fin.foldl forget (d, n)).1.keys = rest := by
  induction fin generalizing d n with
  | nil => exact h
  | cons u fin ih =>
    have hd : (u :: (fin ++ rest)).Nodup := by
      have hd := d.nodup
      rwa [show d.entries.map Prod.fst = u :: (fin ++ rest) from h] at hd
    have hu : u ∈ d.keys := by
      rw [h]
      exact List.mem_cons_self
    rw [List.foldl_cons, forget, if_pos hu]
    apply ih
    rw [Dict.keys_erase, h, List.cons_append, List.filter_cons_of_neg (by simp)]
    apply List.filter_eq_self.mpr
    intro v hv
    simpa using fun he : v = u => (List.nodup_cons.mp hd).1 (he ▸ hv)

theorem mem_forget {fin : List ℕ} {d : Dict ℕ Task} {n : ℕ} {e : ℕ × Task}
    (h : e ∈ (fin.foldl forget (d, n)).1.entries) : e ∈ d.entries := by
  induction fin generalizing d n with
  | nil => exact h
  | cons u fin ih =>
    rw [List.foldl_cons, forget] at h
    split_ifs at h
    · exact Dict.mem_erase (ih h)
    · exact ih h

theorem Ok.calculate {w : PoolWorker} (h : w.Ok) : w.calculateManagedTasks.Ok where
  keys := keys_forget _ _ _ _ h.keys
  uuids e he := h.uuids e (mem_forget he)

theorem ok_start (i : ℕ) : (start i).Ok where
  keys := rfl
  uuids _ he := absurd he List.not_mem_nil

theorem queued_append (w : PoolWorker) (m : Message) :
    ({ w with queue := w.queue ++ [.message m] } : PoolWorker).queued = w.queued ++ [m.uuid] := by
  simp [queued, Item.message?]

theorem held_put (w : PoolWorker) (m : Message) : (w.put m).held = w.held ++ [m.uuid] := by
  have hq : (w.put m).queued = w.queued ++ [m.uuid] := queued_append w m
  rw [held, hq, held, List.append_assoc]
  rfl

/-- A message with a new uuid goes to the end of both views. -/
theorem Ok.put {w : PoolWorker} (h : w.Ok) {m : Message} (hf : m.uuid ∉ w.finished)
    (hh : m.uuid ∉ w.held) : (w.put m).Ok := by
  refine Ok.calculate ⟨?_, fun e he => ?_⟩
  · rw [Dict.keys_set, h.keys, if_neg (by simp [hf, hh]), List.append_assoc]
    congr 1
    exact (held_put w m).symm
  · rcases Dict.mem_setEntries he with rfl | he
    · rfl
    · exact h.uuids e he

/-- The current task is the message in work, else the next one in the queue. -/
theorem Ok.currentTask {w : PoolWorker} (h : w.Ok) :
    w.currentTask.1.map (fun t => t.message.uuid) = w.held.head? := by
  have hc := h.calculate
  have hk : (w.calculateManagedTasks.managedTasks.entries.map Prod.fst).head? = w.held.head? := by
    rw [show w.calculateManagedTasks.managedTasks.entries.map Prod.fst = w.held from hc.keys]
  have hu := hc.uuids
  rw [← hk]
  show (w.calculateManagedTasks.managedTasks.entries.head?.map Prod.snd).map _ = _
  generalize w.calculateManagedTasks.managedTasks.entries = es at hu
  cases es with
  | nil => rfl
  | cons e es => exact congrArg some (hu e List.mem_cons_self)

theorem Ok.busy {w : PoolWorker} (h : w.Ok) : w.busy.1 = decide (w.held ≠ []) := by
  have hk : w.calculateManagedTasks.managedTasks.entries.length = w.held.length := by
    rw [← show w.calculateManagedTasks.managedTasks.keys = w.held from h.calculate.keys, Dict.keys,
      List.length_map]
  show decide (0 < w.calculateManagedTasks.managedTasks.entries.length) = _
  rw [hk, decide_eq_decide, List.length_pos_iff]

theorem Ok.checkTimeout {w : PoolWorker} (h : w.Ok) (timeout now : ℤ) :
    (w.checkTimeout timeout now).2.Ok := by
  have hc := h.calculate
  unfold PoolWorker.checkTimeout
  cases hcur : w.currentTask with
  | mk current w' =>
    have hw' : w' = w.calculateManagedTasks := congrArg Prod.snd hcur.symm
    subst hw'
    cases current with
    | none => exact hc
    | some t =>
      dsimp only
      split_ifs
      · have hmem : ∃ e ∈ w.calculateManagedTasks.managedTasks.entries, e.2 = t := by
          have ht := congrArg Prod.fst hcur
          obtain ⟨e, he, rfl⟩ := Option.map_eq_some_iff.mp ht
          exact ⟨e, List.mem_of_head? he, rfl⟩
        obtain ⟨e, he, rfl⟩ := hmem
        have hkey := hc.uuids e he
        have hin : e.2.message.uuid ∈ w.calculateManagedTasks.managedTasks.keys := by
          rw [hkey]
          exact List.mem_map_of_mem he
        refine ⟨?_, fun e' he' => ?_⟩
        · rw [Dict.keys_set, if_pos hin]
          exact hc.keys
        · rcases Dict.mem_setEntries he' with rfl | he'
          · rfl
          · exact hc.uuids e' he'
      · exact hc

theorem checkTimeout_frame (w : PoolWorker) (timeout now : ℤ) :
    (w.checkTimeout timeout now).2.ident = w.ident ∧
      (w.checkTimeout timeout now).2.held = w.held ∧
      (w.checkTimeout timeout now).2.finished = [] := by
  unfold PoolWorker.checkTimeout
  cases hcur : w.currentTask with
  | mk current w' =>
    have hw' : w' = w.calculateManagedTasks := congrArg Prod.snd hcur.symm
    subst hw'
    cases current with
    | none => exact ⟨rfl, rfl, rfl⟩
    | some t =>
      dsimp only
      split_ifs <;> exact ⟨rfl, rfl, rfl⟩

theorem take_eq {w w' : PoolWorker} (h : w.take = some w') : w.alive = true ∧
    w'.held = w.held ∧ ∃ r q a, w' = { w with running := r, queue := q, alive := a } := by
  rw [take] at h
  split_ifs at h with hw
  obtain ⟨ha, hr⟩ := hw
  refine ⟨ha, ?_⟩
  cases hq : w.queue with
  | nil => simp [hq] at h
  | cons item q =>
    cases item with
    | message m =>
      simp only [hq, Option.some.injEq] at h
      subst h
      refine ⟨?_, _, _, _, rfl⟩
      simp [held, inWork, queued, hr, hq, Item.message?]
    | quit =>
      simp only [hq, Option.some.injEq] at h
      subst h
      refine ⟨?_, _, _, _, rfl⟩
      simp [held, inWork, queued, hq, List.filterMap_cons, Item.message?]

theorem Ok.take {w w' : PoolWorker} (h : w.Ok) (ht : w.take = some w') : w'.Ok := by
  obtain ⟨-, hheld, r, q, a, rfl⟩ := take_eq ht
  refine ⟨?_, h.uuids⟩
  rw [hheld]
  exact h.keys

theorem finish_eq {w w' : PoolWorker} {u : ℕ} (h : w.finish = some (u, w')) :
    w.held = u :: w'.held ∧ w' = { w with running := none, finished := w.finished ++ [u] } := by
  unfold finish at h
  split at h
  · next m _ hr =>
    obtain ⟨rfl, rfl⟩ := Prod.mk.inj (Option.some.inj h)
    refine ⟨?_, rfl⟩
    simp [held, inWork, queued, hr]
  · cases h

theorem Ok.finish {w w' : PoolWorker} {u : ℕ} (h : w.Ok) (hf : w.finish = some (u, w')) :
    w'.Ok := by
  obtain ⟨hheld, rfl⟩ := finish_eq hf
  refine ⟨?_, h.uuids⟩
  have hk := h.keys
  rw [hheld] at hk
  rw [List.append_assoc]
  exact hk

theorem die_eq {w w' : PoolWorker} (h : w.die = some w') : w' = { w with alive := false } := by
  rw [die] at h
  split_ifs at h
  exact (Option.some.inj h).symm

theorem Ok.die {w w' : PoolWorker} (h : w.Ok) (hd : w.die = some w') : w'.Ok := by
  rw [die_eq hd]
  exact ⟨h.keys, h.uuids⟩

/-- The messages of a dead worker's queue, after the callbacks of its current task. -/
theorem orphanedTasks_uuids {w : PoolWorker} (h : w.alive = false) :
    w.orphanedTasks.1.filterMap Body.uuid = w.queued := by
  have herr : ∀ m : Message, m.errbackBodies.filterMap Body.uuid = [] := fun m => by
    simp [Message.errbackBodies, List.filterMap_map]
  rw [orphanedTasks, if_neg (by simp [h])]
  cases hcur : w.currentTask with
  | mk current w' =>
    have hw' : w' = w.calculateManagedTasks := congrArg Prod.snd hcur.symm
    subst hw'
    have hq : ((w.queue.filterMap Item.message?).map Message.body).filterMap Body.uuid =
        w.queued := by
      rw [List.filterMap_map, queued, ← List.filterMap_eq_map]
      rfl
    dsimp only
    rw [List.filterMap_append]
    cases current with
    | none => exact hq
    | some t =>
      rw [Option.map_some, Option.getD_some, herr]
      exact hq

end PoolWorker

end Forail.Dispatch
