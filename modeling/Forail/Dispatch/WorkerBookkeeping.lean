import Forail.Base.Runs
import Forail.Dispatch.PoolWorker
import Mathlib.Data.List.Nodup

/-! One worker of the pool and its child process when the queue between them has a bound. A message
that finds the queue full is refused, but it has been entered into `managed_tasks` before. -/

namespace Forail.Dispatch

namespace PoolWorker

/-- `calculate_managed_tasks` may see only the first so many of the uuids in `finished`. -/
def calculateSome (w : PoolWorker) (n : ℕ) : PoolWorker :=
  { calculateManagedTasks { w with finished := w.finished.take n } with
    finished := w.finished.drop n }

/-- `put` on a queue with a bound; the answer is `false` where it raises. -/
def tryPut (w : PoolWorker) (queueSize n : ℕ) (m : Message) : PoolWorker × Bool :=
  let w := { w with managedTasks := w.managedTasks.set m.uuid ⟨m, none, none⟩ }
  if w.queue.length < queueSize then
    (calculateSome { w with
      queue := w.queue ++ [.message m]
      messagesSent := w.messagesSent + 1 } n, true)
  else (w, false)

end PoolWorker

/-- A worker with its history: the messages that were put, each with whether the queue took it, and
the uuids that were read back from `finished`. -/
structure Ledger where
  worker : PoolWorker
  sent : List (Message × Bool)
  readBack : List ℕ

/-- The messages that the queue took. -/
def Ledger.accepted (s : Ledger) : List Message := (s.sent.filter Prod.snd).map Prod.fst

inductive WorkerEvent
  | put (message : Message) (n : ℕ)
  | calculate (n : ℕ)
  | take
  | finish

/-- The uuids of the messages that are put are distinct. The child waits while `finished` is full. -/
inductive Ledger.Step (queueSize : ℕ) : Ledger → WorkerEvent → Ledger → Prop
  | put {s : Ledger} {m : Message} {n : ℕ} (h : ∀ e ∈ s.sent, e.1.uuid ≠ m.uuid) :
    Step queueSize s (.put m n)
      { worker := (s.worker.tryPut queueSize n m).1
        sent := s.sent ++ [(m, (s.worker.tryPut queueSize n m).2)]
        readBack := if (s.worker.tryPut queueSize n m).2 then
          s.readBack ++ s.worker.finished.take n else s.readBack }
  | calculate {s : Ledger} {n : ℕ} : Step queueSize s (.calculate n)
      { s with
        worker := s.worker.calculateSome n
        readBack := s.readBack ++ s.worker.finished.take n }
  | take {s : Ledger} {w : PoolWorker} (h : s.worker.take = some w) :
    Step queueSize s .take { s with worker := w }
  | finish {s : Ledger} {w : PoolWorker} {uuid : ℕ}
    (hroom : s.worker.finished.length < queueSize) (h : s.worker.finish = some (uuid, w)) :
    Step queueSize s .finish { s with worker := w }

def bookkeeping (queueSize : ℕ) : System Ledger WorkerEvent where
  init s := ∃ ident, s = ⟨.start ident, [], []⟩
  step := Ledger.Step queueSize

/-- The queue has room for every message that is put. -/
def HasRoom (queueSize : ℕ) (s : Ledger) : WorkerEvent → Prop
  | .put _ _ => s.worker.queue.length < queueSize
  | _ => True

/-- The managed tasks are the messages that the queue took and whose end has not been read back, in
the order in which they were put; the current task is what the child runs, or runs next. -/
structure Exact (s : Ledger) : Prop where
  tasks : s.worker.managedTasks.entries.map (fun e => e.2.message) =
    s.accepted.filter fun m => m.uuid ∉ s.readBack
  current : s.worker.currentTask.1.map (fun t => t.message.uuid) = s.worker.held.head?

variable {queueSize n : ℕ} {s s' : Ledger} {m : Message} {e : WorkerEvent}

/-! ### What a call does to the managed tasks -/

def entry (m : Message) : ℕ × Task := (m.uuid, ⟨m, none, none⟩)

theorem entries_forget (uuids : List ℕ) (d : Dict ℕ Task) (n : ℕ) :
    (uuids.foldl forget (d, n)).1.entries = d.entries.filter fun e => e.1 ∉ uuids := by
  induction uuids generalizing d n with
  | nil => exact (List.filter_eq_self.mpr fun e _ => decide_eq_true List.not_mem_nil).symm
  | cons u uuids ih =>
    have hsplit : d.entries.filter (fun e => e.1 ∉ u :: uuids) =
        (d.entries.filter fun e => e.1 ≠ u).filter fun e => e.1 ∉ uuids := by
      rw [List.filter_filter]
      refine List.filter_congr fun e _ => ?_
      rw [← Bool.decide_and]
      refine decide_eq_decide.mpr ?_
      rw [List.mem_cons, not_or, and_comm]
    rw [List.foldl_cons, forget]
    split_ifs with hu
    · rw [ih, hsplit]
      rfl
    · rw [ih, hsplit]
      have hsame : d.entries.filter (fun e => e.1 ≠ u) = d.entries := by
        refine List.filter_eq_self.mpr fun e he => decide_eq_true ?_
        rintro rfl
        exact hu (List.mem_map_of_mem he)
      rw [hsame]

theorem entries_calculateSome (w : PoolWorker) (n : ℕ) :
    (w.calculateSome n).managedTasks.entries =
      w.managedTasks.entries.filter fun e => e.1 ∉ w.finished.take n :=
  entries_forget ..

/-! ### All runs -/

/-- The managed tasks are all messages that were put and not read back, whether the queue took them
or not; the child gets the others in their order. -/
structure Tracked (s : Ledger) : Prop where
  tasks : s.worker.managedTasks.entries =
    ((s.sent.map Prod.fst).filter fun m => m.uuid ∉ s.readBack).map entry
  order : s.accepted.map Message.uuid = s.readBack ++ s.worker.finished ++ s.worker.held
  uuids : (s.sent.map fun e => e.1.uuid).Nodup
  alive : s.worker.alive = true
  queue : ∀ i ∈ s.worker.queue, ∃ m, i = .message m

namespace Tracked

theorem mem_sent_of_accepted {u : ℕ} (hu : u ∈ s.accepted.map Message.uuid) :
    u ∈ s.sent.map fun e => e.1.uuid := by
  obtain ⟨m, hm, rfl⟩ := List.mem_map.mp hu
  obtain ⟨e, he, rfl⟩ := List.mem_map.mp hm
  exact List.mem_map_of_mem (List.mem_filter.mp he).1

theorem calculate (h : Tracked s) (n : ℕ) : Tracked { s with
    worker := s.worker.calculateSome n
    readBack := s.readBack ++ s.worker.finished.take n } where
  tasks := by
    rw [entries_calculateSome, h.tasks, List.filter_map, List.filter_filter]
    refine congrArg _ (List.filter_congr fun m _ => ?_)
    rw [Function.comp, ← Bool.decide_and]
    refine decide_eq_decide.mpr ?_
    rw [List.mem_append, not_or, and_comm]
    rfl
  order := by
    change s.accepted.map Message.uuid =
      s.readBack ++ s.worker.finished.take n ++ s.worker.finished.drop n ++ s.worker.held
    rw [h.order, List.append_assoc s.readBack (s.worker.finished.take n), List.take_append_drop]
  uuids := h.uuids
  alive := h.alive
  queue := h.queue

/-- A message is put, and the queue takes it or not. -/
theorem enter (h : Tracked s) (hm : ∀ e ∈ s.sent, e.1.uuid ≠ m.uuid) {w : PoolWorker} {b : Bool}
    (htasks : w.managedTasks = s.worker.managedTasks.set m.uuid ⟨m, none, none⟩)
    (hfinished : w.finished = s.worker.finished)
    (hheld : w.held = s.worker.held ++ if b then [m.uuid] else [])
    (halive : w.alive = s.worker.alive) (hqueue : ∀ i ∈ w.queue, ∃ m, i = .message m) :
    Tracked { s with worker := w, sent := s.sent ++ [(m, b)] } where
  tasks := by
    have hread : m.uuid ∉ s.readBack := fun hin => by
      obtain ⟨e, he, heq⟩ := List.mem_map.mp (mem_sent_of_accepted (s := s) (h.order ▸
        List.mem_append_left _ (List.mem_append_left _ hin)))
      exact hm e he heq
    have hnew : m.uuid ∉ s.worker.managedTasks.entries.map Prod.fst := fun hin => by
      rw [h.tasks, List.map_map] at hin
      obtain ⟨m', hm', heq⟩ := List.mem_map.mp hin
      obtain ⟨e, he, rfl⟩ := List.mem_map.mp (List.mem_filter.mp hm').1
      exact hm e he heq
    have hentries : w.managedTasks.entries = s.worker.managedTasks.entries ++ [entry m] := by
      rw [htasks]
      exact Dict.setEntries_of_not_mem hnew
    change w.managedTasks.entries = (((s.sent ++ [(m, b)]).map Prod.fst).filter fun m =>
      m.uuid ∉ s.readBack).map entry
    have hkept : [m].filter (fun m => m.uuid ∉ s.readBack) = [m] :=
      List.filter_cons_of_pos (decide_eq_true hread)
    rw [hentries, h.tasks, List.map_append, List.filter_append, List.map_append]
    exact congrArg _ (congrArg (List.map entry) hkept).symm
  order := by
    change (((s.sent ++ [(m, b)]).filter Prod.snd).map Prod.fst).map Message.uuid =
      s.readBack ++ w.finished ++ w.held
    have horder : ((s.sent.filter Prod.snd).map Prod.fst).map Message.uuid =
        s.readBack ++ s.worker.finished ++ s.worker.held := h.order
    rw [hfinished, hheld, List.filter_append, List.map_append, List.map_append, horder,
      ← List.append_assoc]
    cases b <;> rfl
  uuids := by
    change ((s.sent ++ [(m, b)]).map _).Nodup
    rw [List.map_append, List.map_singleton]
    refine List.nodup_append.mpr ⟨h.uuids, List.nodup_singleton _, fun u hu v hv heq => ?_⟩
    obtain ⟨e, he, rfl⟩ := List.mem_map.mp hu
    rw [List.mem_singleton.mp hv] at heq
    exact hm e he heq
  alive := halive.trans h.alive
  queue := hqueue

theorem step (h : Tracked s) (hstep : Ledger.Step queueSize s e s') : Tracked s' := by
  cases hstep with
  | @put m n hm =>
    by_cases hroom : s.worker.queue.length < queueSize
    · have htry : s.worker.tryPut queueSize n m = (PoolWorker.calculateSome { s.worker with
          managedTasks := s.worker.managedTasks.set m.uuid ⟨m, none, none⟩
          queue := s.worker.queue ++ [.message m]
          messagesSent := s.worker.messagesSent + 1 } n, true) := if_pos hroom
      rw [htry]
      refine (h.enter hm (b := true) (w := { s.worker with
        managedTasks := s.worker.managedTasks.set m.uuid ⟨m, none, none⟩
        queue := s.worker.queue ++ [.message m]
        messagesSent := s.worker.messagesSent + 1 }) rfl rfl (PoolWorker.held_put s.worker m) rfl
        fun i hi => ?_).calculate n
      rcases List.mem_append.mp hi with hi | hi
      · exact h.queue i hi
      · exact ⟨m, List.mem_singleton.mp hi⟩
    · have htry : s.worker.tryPut queueSize n m = ({ s.worker with
          managedTasks := s.worker.managedTasks.set m.uuid ⟨m, none, none⟩ }, false) := if_neg hroom
      rw [htry]
      exact h.enter hm (b := false) (w := { s.worker with
        managedTasks := s.worker.managedTasks.set m.uuid ⟨m, none, none⟩ }) rfl rfl
        (List.append_nil _).symm rfl h.queue
  | calculate => exact h.calculate _
  | @take w hw =>
    rw [PoolWorker.take] at hw
    obtain ⟨⟨-, hrunning⟩, hw⟩ := Option.ite_none_right_eq_some.mp hw
    split at hw
    · cases hw
    · rename_i m q hqueue
      cases hw
      refine ⟨h.tasks, ?_, h.uuids, h.alive, fun i hi => h.queue i (hqueue ▸ List.mem_cons_of_mem _ hi)⟩
      have hheld : s.worker.held = m.uuid :: (q.filterMap Item.message?).map Message.uuid := by
        rw [PoolWorker.held, PoolWorker.inWork, PoolWorker.queued, hrunning, hqueue]
        rfl
      change s.accepted.map Message.uuid = s.readBack ++ s.worker.finished ++ _
      rw [h.order, hheld]
      rfl
    · rename_i q hqueue
      obtain ⟨m, hm⟩ := h.queue .quit (hqueue ▸ List.mem_cons_self)
      cases hm
  | @finish w uuid hroom hw =>
    rw [PoolWorker.finish] at hw
    split at hw
    · rename_i m _ hrunning
      cases hw
      refine ⟨h.tasks, ?_, h.uuids, h.alive, h.queue⟩
      have hheld : s.worker.held = m.uuid :: s.worker.queued := by
        rw [PoolWorker.held, PoolWorker.inWork, hrunning]
        rfl
      change s.accepted.map Message.uuid = s.readBack ++ (s.worker.finished ++ [m.uuid]) ++
        s.worker.queued
      rw [h.order, hheld, List.append_assoc, List.append_assoc, List.append_assoc]
      rfl
    · cases hw

theorem of_reachable (h : (bookkeeping queueSize).Reachable s) : Tracked s := by
  refine h.invariant (I := Tracked) (fun s hs => ?_) fun _ _ _ _ ht hstep => ht.step hstep
  obtain ⟨ident, rfl⟩ := hs
  exact ⟨rfl, rfl, List.nodup_nil, rfl, fun i hi => absurd hi List.not_mem_nil⟩

theorem messages (h : Tracked s) : s.worker.managedTasks.entries.map (fun e => e.2.message) =
    (s.sent.map Prod.fst).filter fun m => m.uuid ∉ s.readBack := by
  rw [h.tasks, List.map_map]
  exact List.map_id _

/-- Where nothing was refused, the worker's view is the child's. -/
theorem exact (h : Tracked s) (htaken : ∀ e ∈ s.sent, e.2 = true) : Exact s where
  tasks := by
    rw [h.messages, Ledger.accepted, List.filter_eq_self.mpr htaken]
  current := by
    refine PoolWorker.Ok.currentTask ⟨?_, fun e he => ?_⟩
    · have huuids : (s.sent.map Prod.fst).map Message.uuid =
          s.readBack ++ s.worker.finished ++ s.worker.held := by
        rw [← h.order, Ledger.accepted, List.filter_eq_self.mpr htaken]
      have hnodup : (s.readBack ++ (s.worker.finished ++ s.worker.held)).Nodup := by
        rw [← List.append_assoc, ← huuids, List.map_map]
        exact h.uuids
      have hkeys : s.worker.managedTasks.keys = (((s.sent.map Prod.fst).map Message.uuid).filter
          fun u => u ∉ s.readBack) := by
        rw [List.filter_map (f := Message.uuid), Dict.keys, h.tasks, List.map_map]
        rfl
      rw [hkeys, huuids, List.append_assoc, List.filter_append, List.filter_eq_nil_iff.mpr,
        List.filter_eq_self.mpr, List.nil_append]
      · intro u hu
        exact decide_eq_true fun hr => List.disjoint_of_nodup_append hnodup hr hu
      · intro u hu hnot
        exact of_decide_eq_true hnot hu
    · rw [h.tasks] at he
      obtain ⟨m, -, rfl⟩ := List.mem_map.mp he
      rfl

/-- A message that was refused stays among the managed tasks. -/
theorem taken_of_exact (h : Tracked s) (hexact : Exact s) : ∀ e ∈ s.sent, e.2 = true := by
  intro e he
  have hdistinct : ∀ e' ∈ s.sent, e'.1.uuid = e.1.uuid → e' = e := fun e' he' heq =>
    List.inj_on_of_nodup_map h.uuids he' he heq
  have htaken : ∀ u ∈ s.accepted.map Message.uuid, u = e.1.uuid → e.2 = true := by
    intro u hu heq
    obtain ⟨m, hm, rfl⟩ := List.mem_map.mp hu
    obtain ⟨e', he', rfl⟩ := List.mem_map.mp hm
    obtain ⟨he', htrue⟩ := List.mem_filter.mp he'
    exact hdistinct e' he' heq ▸ htrue
  by_cases hread : e.1.uuid ∈ s.readBack
  · refine htaken _ ?_ rfl
    rw [h.order]
    exact List.mem_append_left _ (List.mem_append_left _ hread)
  · have hmem : e.1 ∈ s.accepted.filter fun m => m.uuid ∉ s.readBack := by
      rw [← hexact.tasks, h.messages]
      exact List.mem_filter.mpr ⟨List.mem_map_of_mem he, decide_eq_true hread⟩
    exact htaken _ (List.mem_map_of_mem (List.mem_filter.mp hmem).1) rfl

end Tracked

theorem taken_of_restrict (h : ((bookkeeping queueSize).restrict (HasRoom queueSize)).Reachable s) :
    ∀ e ∈ s.sent, e.2 = true := by
  refine h.invariant (I := fun s => ∀ e ∈ s.sent, e.2 = true) (fun s hs => ?_)
    fun s e s' _ hs hstep => ?_
  · obtain ⟨ident, rfl⟩ := hs
    exact fun e he => absurd he List.not_mem_nil
  · obtain ⟨hstep, hroom⟩ := hstep
    cases hstep with
    | @put m n hm =>
      intro e he
      rcases List.mem_append.mp he with he | he
      · exact hs e he
      · rw [List.mem_singleton.mp he]
        exact congrArg Prod.snd (if_pos hroom)
    | calculate => exact hs
    | take _ => exact hs
    | finish _ _ => exact hs

/-- As long as the queue has room for every message that is put, the managed tasks are those that the
queue took and whose end was not read back; in any run they are exactly if none was refused. -/
theorem managedTasks_exact (queueSize : ℕ) :
    (∀ s, ((bookkeeping queueSize).restrict (HasRoom queueSize)).Reachable s → Exact s) ∧
      ∀ s, (bookkeeping queueSize).Reachable s → (Exact s ↔ ∀ e ∈ s.sent, e.2 = true) := by
  refine ⟨fun s hs => ?_, fun s hs => ?_⟩
  · exact (Tracked.of_reachable hs.of_restrict).exact (taken_of_restrict hs)
  · have ht := Tracked.of_reachable hs
    exact ⟨ht.taken_of_exact, ht.exact⟩

/-- One message is being run, and the next one is in the queue. -/
theorem managedTasks_exact_busy : ∃ s, ((bookkeeping 1).restrict (HasRoom 1)).Reachable s ∧
    s.worker.managedTasks.keys = [1, 2] ∧ Exact s := by
  obtain ⟨s, hs, hkeys⟩ : ∃ s, ((bookkeeping 1).restrict (HasRoom 1)).Reachable s ∧
      s.worker.managedTasks.keys = [1, 2] :=
    ⟨_, .step (e := .put ⟨2, "b", []⟩ 0) (.step (e := .take) (.step (e := .put ⟨1, "a", []⟩ 0)
      (.init ⟨0, rfl⟩) ⟨.put (fun e he => absurd he List.not_mem_nil), Nat.one_pos⟩)
        ⟨.take rfl, trivial⟩) ⟨.put (by decide), Nat.one_pos⟩, by decide⟩
  exact ⟨s, hs, hkeys, (managedTasks_exact 1).1 s hs⟩

/-- The child is idle, and the parent holds a message that it never sent. -/
theorem refused_message_managed : ¬ ∀ queueSize s, (bookkeeping queueSize).Reachable s → Exact s := by
  intro h
  obtain ⟨s, hs, hmanaged, haccepted⟩ : ∃ s, (bookkeeping 1).Reachable s ∧
      s.worker.managedTasks.entries.length = 1 ∧
        (s.accepted.filter fun m => m.uuid ∉ s.readBack).length = 0 :=
    ⟨_, .step (e := .calculate 1) (.step (e := .finish) (.step (e := .take) (.step
      (e := .put ⟨2, "b", []⟩ 0) (.step (e := .put ⟨1, "a", []⟩ 0) (.init ⟨0, rfl⟩)
        (.put (fun e he => absurd he List.not_mem_nil))) (.put (by decide))) (.take rfl))
          (.finish (by decide) rfl)) .calculate, by decide, by decide⟩
  have hlength := congrArg List.length (h 1 s hs).tasks
  rw [List.length_map, hmanaged, haccepted] at hlength
  cases hlength

end Forail.Dispatch
