import Forail.Base.Runs
import Mathlib.Data.Int.Notation
import Mathlib.Data.Nat.Notation

/-! The callback receiver: `perform_work` puts an event into the buffer of its class and flushes,
and flushes anew after an exception, up to a bound. A step is the part of `perform_work` before
the flush, or one flush; which saves, connections and emissions fail comes with the flush. -/

namespace Forail.CallbackBroker

inductive EventClass
  | jobEvent | adHocCommandEvent | projectUpdateEvent | inventoryUpdateEvent | systemJobEvent
  deriving DecidableEq

/-- The classes in the order in which a body is tried. -/
def EventClass.all : List EventClass :=
  [.jobEvent, .adHocCommandEvent, .projectUpdateEvent, .inventoryUpdateEvent, .systemJobEvent]

def EventClass.jobReference : EventClass → String
  | .jobEvent => "job_id"
  | .adHocCommandEvent => "ad_hoc_command_id"
  | .projectUpdateEvent => "project_update_id"
  | .inventoryUpdateEvent => "inventory_update_id"
  | .systemJobEvent => "system_job_id"

def EventClass.wrapupEvent : EventClass → String
  | .jobEvent | .adHocCommandEvent | .projectUpdateEvent => "playbook_on_stats"
  | .inventoryUpdateEvent | .systemJobEvent => "EOF"

/-- What `create_from_data` finds under `created`: nothing, or a value that raises a ValueError;
a time; a value that raises another exception. -/
inductive CreatedField
  | absent | rejected | time (t : ℤ) | broken

/-- A message from the queue; `broken` if the model or `_update_from_event_data` raises on it. -/
structure Body where
  event : Option String
  references : List (String × ℕ)
  created : CreatedField
  stdout : Option String
  skipWebsocketMessage : Bool
  broken : Bool

/-- An event in memory, numbered as it was received. -/
structure Event where
  uid : ℕ
  created : Option ℤ
  modified : Option ℤ
  stdout : Option String
  retryCount : ℕ
  skipWebsocketMessage : Bool
  notificationTriggerEvent : Bool

/-- What a flush can raise: a database error of `ensure_connection`, an error of the channel
layer, a search in a `stdout` that is none, a division by zero in the metrics. -/
inductive Exn
  | database | channel | typeError | zeroDivision
  deriving DecidableEq

/-- Why an event is gone: `create_from_data` raised, its individual saves failed, or the flushes
of `perform_work` raised these and the buffer was dropped. -/
inductive Drop
  | rejected | retries | gaveUp (raised : List Exn)
  deriving DecidableEq

/-- What happened so far, by the numbers of the events: the last two are the websocket messages
and the calls of `job_stats_wrapup`. -/
structure Log where
  stored : List ℕ
  failedSaves : List ℕ
  dropped : List (ℕ × Drop)
  broadcast : List ℕ
  wrapups : List ℕ

def Log.empty : Log := ⟨[], [], [], [], []⟩

def Log.append (l l' : Log) : Log :=
  ⟨l.stored ++ l'.stored, l.failedSaves ++ l'.failedSaves, l.dropped ++ l'.dropped,
    l.broadcast ++ l'.broadcast, l.wrapups ++ l'.wrapups⟩

/-- One flush: the buffer is older than `JOB_EVENT_BUFFER_SECONDS`, the time, and what fails. -/
structure Attempt where
  due : Bool
  now : ℤ
  bulkFails : EventClass → Bool
  unreachable : EventClass → Bool
  saveFails : ℕ → Bool
  emitFails : ℕ → Bool

def maxRetries : ℕ := 2

def individualEventRetries : ℕ := 3

abbrev Buffer := List (EventClass × List Event)

/-! ### Receiving -/

namespace Body

/-- The first class whose reference is in the body, or else the last one. -/
def cls (b : Body) : EventClass :=
  (EventClass.all.find? fun c => b.references.any fun r => r.1 = c.jobReference).getD .systemJobEvent

def jobIdentifier (b : Body) : Option ℕ := b.references.lookup b.cls.jobReference

def notificationTriggerEvent (b : Body) : Bool := b.event = some b.cls.wrapupEvent

/-- `create_from_data`, where none stands for an exception, and the two marks. -/
def createFromData (b : Body) (uid : ℕ) : Option Event :=
  let event (created : Option ℤ) : Event :=
    ⟨uid, created, none, b.stdout, 0, b.skipWebsocketMessage, b.notificationTriggerEvent⟩
  if b.broken then none
  else match b.created with
    | .absent | .rejected => some (event none)
    | .time t => some (event (some t))
    | .broken => none

end Body

/-- `self.buff.setdefault(cls, []).append(event)`. -/
def push (c : EventClass) (e : Event) : Buffer → Buffer
  | [] => [(c, [e])]
  | (c', events) :: rest =>
    if c' = c then (c', events ++ [e]) :: rest else (c', events) :: push c e rest

/-! ### Flushing -/

namespace Event

def stamp (now : ℤ) (e : Event) : Event :=
  { e with modified := some now, created := some (e.created.getD now) }

/-- The NUL characters go at the first failure; none stands for the exception of the search. -/
def sanitize (e : Event) : Option Event :=
  if e.retryCount = 1 then
    e.stdout.map fun s =>
      { e with stdout := some (String.ofList (s.toList.filter fun c => c ≠ Char.ofNat 0)) }
  else some e

end Event

/-- The saves one by one: what stays in the buffer, and the events that were saved. -/
structure Saves where
  kept : List Event
  saved : List Event
  failed : List ℕ
  dropped : List ℕ
  raised : Bool

def saveEach (a : Attempt) : List Event → Saves
  | [] => ⟨[], [], [], [], false⟩
  | e :: events =>
    if a.saveFails e.uid = false then
      let r := saveEach a events
      { r with saved := e :: r.saved }
    else
      match Event.sanitize { e with retryCount := e.retryCount + 1 } with
      | none => ⟨{ e with retryCount := e.retryCount + 1 } :: events, [], [e.uid], [], true⟩
      | some e' =>
        let r := saveEach a events
        if individualEventRetries ≤ e'.retryCount then
          { r with failed := e.uid :: r.failed, dropped := e.uid :: r.dropped }
        else { r with failed := e.uid :: r.failed, kept := e' :: r.kept }

/-- The websocket messages and the calls of `job_stats_wrapup`, to the end or to an exception. -/
def announce (a : Attempt) : List Event → List ℕ × List ℕ × Bool
  | [] => ([], [], false)
  | e :: events =>
    if e.skipWebsocketMessage = false ∧ a.emitFails e.uid = true then ([], [], true)
    else
      let (broadcast, wrapups, raised) := announce a events
      (if e.skipWebsocketMessage then broadcast else e.uid :: broadcast,
        if e.notificationTriggerEvent then e.uid :: wrapups else wrapups, raised)

/-- The flush of one class, or of all: what stays, and the metrics that the division reads. -/
structure Flushed (β : Type) where
  kept : β
  log : Log
  saved : ℕ
  missing : ℕ
  raised : Option Exn

/-- The saved events are announced. -/
def finish (a : Attempt) (s : Saves) (missing : ℕ) : Flushed (List Event) :=
  let log : Log := ⟨s.saved.map Event.uid, s.failed, s.dropped.map fun u => (u, .retries), [], []⟩
  if s.raised then ⟨s.kept, log, s.saved.length, missing, some .typeError⟩
  else
    let (broadcast, wrapups, raised) := announce a s.saved
    ⟨s.kept, { log with broadcast, wrapups }, s.saved.length, missing,
      if raised then some .channel else none⟩

/-- The loop body of `flush`. -/
def flushClass (a : Attempt) (c : EventClass) (events : List Event) : Flushed (List Event) :=
  if events.isEmpty then ⟨[], .empty, 0, 0, none⟩
  else
    let missing := events.countP (·.created.isNone)
    let events := events.map (Event.stamp a.now)
    if a.bulkFails c = false then finish a ⟨[], events, [], [], false⟩ missing
    else if a.unreachable c then ⟨events, .empty, 0, missing, some .database⟩
    else finish a (saveEach a events) missing

/-- The loop of `flush`. -/
def flushAll (a : Attempt) : Buffer → Flushed Buffer
  | [] => ⟨[], .empty, 0, 0, none⟩
  | (c, events) :: rest =>
    let f := flushClass a c events
    match f.raised with
    | some x => ⟨(c, f.kept) :: rest, f.log, f.saved, f.missing, some x⟩
    | none =>
      let r := flushAll a rest
      ⟨(c, f.kept) :: r.kept, f.log.append r.log, f.saved + r.saved, f.missing + r.missing, r.raised⟩

/-- `flush`, with the division of its metrics. -/
def flush (a : Attempt) (force : Bool) (buff : Buffer) : Flushed Buffer :=
  if force || a.due || buff.any fun x => 1000 ≤ x.2.length then
    let f := flushAll a buff
    if f.raised = none ∧ 0 < f.saved ∧ f.saved = f.missing then { f with raised := some .zeroDivision }
    else f
  else ⟨buff, .empty, 0, 0, none⟩

/-! ### The worker -/

/-- Outside `perform_work`, or in its loop, after flushes that raised these. -/
inductive Phase
  | idle
  | flushing (force : Bool) (raised : List Exn)

/-- `received` counts the events, `triggers` holds the wrap-up events among them, `raised` all
exceptions of `flush`, and `eofWrapups` the calls of `job_stats_wrapup` for an EOF. -/
structure Worker where
  buff : Buffer
  received : ℕ
  triggers : List ℕ
  log : Log
  raised : List Exn
  phase : Phase
  eofWrapups : List (Option ℕ)

namespace Worker

def initial : Worker := ⟨[], 0, [], .empty, [], .idle, []⟩

def buffered (w : Worker) : List Event := w.buff.flatMap Prod.snd

/-- `perform_work` up to its loop; `emitFails` for the message of an EOF. -/
def performWork (w : Worker) (body : Body) (emitFails : Bool) : Worker :=
  if body.event = some "FLUSH" then { w with phase := .flushing true [] }
  else if body.event = some "EOF" then
    if emitFails = false ∧ body.notificationTriggerEvent = true then
      { w with eofWrapups := w.eofWrapups ++ [body.jobIdentifier] }
    else w
  else match body.createFromData w.received with
    | none => { w with
        received := w.received + 1
        log := { w.log with dropped := w.log.dropped ++ [(w.received, .rejected)] } }
    | some e => { w with
        buff := push body.cls e w.buff
        received := w.received + 1
        triggers := if e.notificationTriggerEvent then w.triggers ++ [e.uid] else w.triggers
        phase := .flushing false [] }

/-- One turn of the loop of `perform_work`. -/
def turn (w : Worker) (force : Bool) (raised : List Exn) (a : Attempt) : Worker :=
  let f := flush a force w.buff
  let w' := { w with buff := f.kept, log := w.log.append f.log }
  match f.raised with
  | none => { w' with phase := .idle }
  | some x =>
    let w' := { w' with raised := w.raised ++ [x] }
    if maxRetries ≤ raised.length then
      { w' with
        buff := []
        log := { w'.log with
          dropped := w'.log.dropped ++ w'.buffered.map fun e => (e.uid, .gaveUp (raised ++ [x])) }
        phase := .idle }
    else { w' with phase := .flushing force (raised ++ [x]) }

end Worker

inductive Step
  | performWork (body : Body) (emitFails : Bool)
  | flush (a : Attempt)

def exec (w : Worker) : Step → Option Worker
  | .performWork body emitFails =>
    match w.phase with
    | .idle => some (w.performWork body emitFails)
    | .flushing .. => none
  | .flush a =>
    match w.phase with
    | .idle => none
    | .flushing force raised => some (w.turn force raised a)

/-- All runs of a worker. -/
def callbackWorker : System Worker Step where
  init w := w = .initial
  step w e w' := exec w e = some w'

end Forail.CallbackBroker
