import Forail.Base.Dict
import Forail.Base.Runs
import Mathlib.Data.Int.Notation
import Mathlib.Data.Nat.Notation

/-! Event rules and the log of their events: which event a request is, whether its payload
meets the conditions of the rule, the actions and their results, and the throttle. Times
are in microseconds. -/

namespace Forail.Eda

inductive SourceType
  | webhookGeneric | webhookGithub | webhookGitlab | alertmanager | pagerduty | datadog | cloudwatch
  deriving DecidableEq

inductive ActionType
  | launchJobTemplate | launchWorkflow | sendNotification
  | other (name : String)
  deriving DecidableEq

inductive EventStatus
  | received | matched | unmatched | throttled | actionFired | actionFailed | error | signatureFailed
  deriving DecidableEq

structure Condition where
  jinja2Expression : String
  description : String

structure ConditionResult where
  expression : String
  description : String
  matched : Bool
  error : Option String

structure Action where
  actionType : ActionType
  targetId : ℕ
  description : String

inductive ResultStatus
  | success | failed
  deriving DecidableEq

structure ActionResult where
  actionType : ActionType
  targetId : ℕ
  description : String
  status : ResultStatus
  jobId : Option ℕ
  error : Option String

structure EventRule where
  enabled : Bool
  sourceType : SourceType
  conditions : List Condition
  actions : List Action
  throttleSeconds : ℕ
  lastFiredAt : Option ℤ
  fireCount : ℕ

/-- What `post` reads of a request with payloads in `π`. A header that is missing is empty. -/
structure Request (π : Type) where
  githubDelivery : String
  requestId : String
  eventId : String
  bodySha1 : String
  bodyLength : ℕ
  payload : π
  headers : List (String × String)

structure EventLog (π : Type) where
  eventGuid : String
  payload : π
  headers : List (String × String)
  status : EventStatus
  errorDetail : String
  conditionsMatched : Bool
  conditionResults : List ConditionResult
  actionsTriggered : List ActionResult
  jobId : Option ℕ

/-- What is not part of the program: `check_signature` computes HMACs, and `test` asks Jinja2
whether the condition holds of a payload and headers. -/
structure Externals (π : Type) where
  checkSignature : EventRule → Request π → Except String Unit
  test : String → π → List (String × String) → Except String Bool

section Definitions
variable {π : Type} (ext : Externals π)

def extractEventGuid (sourceType : SourceType) (request : Request π) : String :=
  match sourceType with
  | .webhookGithub => request.githubDelivery
  | .webhookGitlab => request.bodySha1
  | .alertmanager | .pagerduty | .datadog | .cloudwatch => request.requestId
  | .webhookGeneric => if request.requestId ≠ "" then request.requestId else request.eventId

/-- The row that `post` creates. -/
def EventLog.received (guid : String) (request : Request π) : EventLog π :=
  ⟨guid, request.payload, request.headers, .received, "", false, [], [], none⟩

/-- The row of a request whose signature is wrong. -/
def EventLog.rejected (request : Request π) (error : String) : EventLog π :=
  ⟨"", request.payload, request.headers, .signatureFailed, error, false, [], [], none⟩

def evaluateCondition (payload : π) (headers : List (String × String)) (c : Condition) :
    ConditionResult :=
  match ext.test c.jinja2Expression payload headers with
  | .ok matched => ⟨c.jinja2Expression, c.description, matched, none⟩
  | .error e => ⟨c.jinja2Expression, c.description, false, some e⟩

def evaluateConditions (conditions : List Condition) (payload : π)
    (headers : List (String × String)) : Bool × List ConditionResult :=
  let results := conditions.map (evaluateCondition ext payload headers)
  (results.all ConditionResult.matched, results)

/-- The outcome is the job that was launched or the text of the exception. -/
def executeAction (action : Action) (outcome : Except String ℕ) : ActionResult :=
  let result (status : ResultStatus) (jobId : Option ℕ) (error : Option String) : ActionResult :=
    ⟨action.actionType, action.targetId, action.description, status, jobId, error⟩
  match action.actionType, outcome with
  | .other name, _ => result .failed none (some ("Unknown action_type: " ++ name))
  | _, .error e => result .failed none (some e)
  | .launchJobTemplate, .ok job | .launchWorkflow, .ok job => result .success (some job) none
  | .sendNotification, .ok _ => result .success none none

def EventRule.isThrottled (rule : EventRule) (now : ℤ) : Bool :=
  if rule.throttleSeconds = 0 then false
  else
    match rule.lastFiredAt with
    | none => false
    | some last => now - last < rule.throttleSeconds * 1000000

/-- `fire_count` is increased in the row, the time is that of the caller. -/
def EventRule.recordFiring (row : EventRule) (now : ℤ) : EventRule :=
  { row with lastFiredAt := some now, fireCount := row.fireCount + 1 }

/-- What `evaluate_event_rule` decides on its copies of the log and of the rule; a log that
is matched has its actions executed. -/
def EventLog.evaluate (log : EventLog π) (rule : Option EventRule) (now : ℤ) : EventLog π :=
  match rule with
  | none => { log with status := .error, errorDetail := "Event rule has been deleted" }
  | some rule =>
    if !rule.enabled then { log with status := .unmatched, errorDetail := "Rule is disabled" }
    else if rule.isThrottled now then { log with status := .throttled }
    else
      let (matched, results) := evaluateConditions ext rule.conditions log.payload log.headers
      { log with
        conditionsMatched := matched, conditionResults := results
        status := if matched then .matched else .unmatched }

/-- A result is appended, and its job becomes that of the log. -/
def EventLog.trigger (log : EventLog π) (result : ActionResult) : EventLog π :=
  { log with
    actionsTriggered := log.actionsTriggered ++ [result]
    jobId := result.jobId.or log.jobId }

/-- The status after the last action. -/
def EventLog.finish (log : EventLog π) : EventLog π :=
  { log with
    status := if log.actionsTriggered.any fun r => r.status = .failed then .actionFailed
      else .actionFired }

end Definitions

end Forail.Eda

/-! Deliveries of webhooks to an event rule, and runs of `evaluate_event_rule` for the logs
that they queue. A delivery asks for duplicates, and creates and queues its log later; a run
reads the log and the rule, checks the throttle, saves, executes the actions one by one,
saves again and records the firing. The steps of all of them interleave in any way. -/

namespace Forail.Eda

variable {π : Type}

inductive DeliveryPhase
  | verified | deduplicated | answered
  deriving DecidableEq

/-- A call of `post` whose signature is right. -/
structure Delivery (π : Type) where
  rule : EventRule
  request : Request π
  phase : DeliveryPhase

def Delivery.eventGuid (d : Delivery π) : String := extractEventGuid d.rule.sourceType d.request

inductive Phase
  | fetched | evaluated
  | acting (rest : List Action)
  | fired | done

/-- A run with its copies of the log and of the rule; `checkedAt` is when it checked the
throttle. -/
structure Run (π : Type) where
  log : EventLog π
  rule : Option EventRule
  phase : Phase
  checkedAt : Option ℤ

/-- An action that was executed for a log. -/
structure Executed where
  log : ℕ
  action : Action
  result : ActionResult

/-- The rows of the rule and of its logs, the queued logs, and the deliveries and runs. -/
structure State (π : Type) where
  rule : Option EventRule
  logs : Dict ℕ (EventLog π)
  queue : List ℕ
  deliveries : Dict ℕ (Delivery π)
  runs : Dict ℕ (Run π)
  executed : List Executed

inductive Event (π : Type)
  | post (d : ℕ) (request : Request π)
  | reject (pk : ℕ) (request : Request π)
  | deduplicate (d : ℕ)
  | create (d pk : ℕ)
  | start (pk : ℕ)
  | check (pk : ℕ) (now : ℤ)
  | save (pk : ℕ)
  | act (pk : ℕ) (outcome : Except String ℕ)
  | record (pk : ℕ) (now : ℤ)

section Definitions
variable (ext : Externals π)

/-- The deduplication check. -/
def previouslyReceived (logs : Dict ℕ (EventLog π)) (guid : String) : Bool :=
  guid ≠ "" && logs.entries.any fun e =>
    e.2.eventGuid = guid && (e.2.status = .matched || e.2.status = .actionFired)

def maxPayload : ℕ := 1048576

/-- The configured actions of the copy of the rule. -/
def Run.actions (run : Run π) : List Action :=
  match run.rule with
  | some rule => rule.actions
  | none => []

/-- The verdict is saved; only a matched log has its actions executed. -/
def Run.saved (run : Run π) : Run π :=
  { run with phase := if run.log.status = .matched then .acting run.actions else .done }

/-- One event; it has no result where it is not possible. A log is queued when it is created
and waits for any time; nothing but its run writes to its row, so that the run saves its
whole copy. -/
def exec (s : State π) : Event π → Option (State π)
  | .post d request => do
    let rule ← s.rule
    if rule.enabled ∧ (s.deliveries.get? d).isNone ∧ (ext.checkSignature rule request).isOk then
      some { s with deliveries := s.deliveries.set d ⟨rule, request, .verified⟩ }
    else none
  | .reject pk request => do
    let rule ← s.rule
    match ext.checkSignature rule request with
    | .error e =>
      if rule.enabled ∧ (s.logs.get? pk).isNone then
        some { s with logs := s.logs.set pk (.rejected request e) }
      else none
    | .ok _ => none
  | .deduplicate d => do
    let delivery ← s.deliveries.get? d
    if delivery.phase = .verified then
      let answered := previouslyReceived s.logs delivery.eventGuid ||
        decide (maxPayload < delivery.request.bodyLength)
      let phase : DeliveryPhase := if answered then .answered else .deduplicated
      some { s with deliveries := s.deliveries.set d { delivery with phase := phase } }
    else none
  | .create d pk => do
    let delivery ← s.deliveries.get? d
    if delivery.phase = .deduplicated ∧ (s.logs.get? pk).isNone then
      let log : EventLog π := .received delivery.eventGuid delivery.request
      let deliveries := s.deliveries.set d { delivery with phase := .answered }
      some { s with logs := s.logs.set pk log, queue := s.queue ++ [pk], deliveries := deliveries }
    else none
  | .start pk => do
    let log ← s.logs.get? pk
    if pk ∈ s.queue then
      let run : Run π := ⟨log, s.rule, .fetched, none⟩
      some { s with queue := s.queue.erase pk, runs := s.runs.set pk run }
    else none
  | .check pk now => do
    let run ← s.runs.get? pk
    match run.phase with
    | .fetched =>
      let run' : Run π := ⟨run.log.evaluate ext run.rule now, run.rule, .evaluated, some now⟩
      some { s with runs := s.runs.set pk run' }
    | _ => none
  | .save pk => do
    let run ← s.runs.get? pk
    match run.phase with
    | .evaluated => some { s with logs := s.logs.set pk run.log, runs := s.runs.set pk run.saved }
    | .acting [] =>
      let run' : Run π := { run with log := run.log.finish, phase := .fired }
      some { s with logs := s.logs.set pk run'.log, runs := s.runs.set pk run' }
    | _ => none
  | .act pk outcome => do
    let run ← s.runs.get? pk
    match run.phase with
    | .acting (action :: rest) =>
      let result := executeAction action outcome
      let run' : Run π := { run with log := run.log.trigger result, phase := .acting rest }
      some { s with runs := s.runs.set pk run', executed := s.executed ++ [⟨pk, action, result⟩] }
    | _ => none
  | .record pk now => do
    let run ← s.runs.get? pk
    match run.phase with
    | .fired =>
      let rule := s.rule.map fun row => row.recordFiring now
      some { s with rule := rule, runs := s.runs.set pk { run with phase := .done } }
    | _ => none

/-- The rule may have any configuration, and may have fired before. -/
def events : System (State π) (Event π) where
  init s := ∃ rule, s = ⟨rule, .empty, [], .empty, .empty, []⟩
  step s e s' := exec ext s e = some s'

end Definitions

/-! ### A rule with one action -/

/-- Every signature is right and every condition holds. -/
def trusting : Externals Unit := ⟨fun _ _ => .ok (), fun _ _ _ => .ok true⟩

/-- A rule of one action, with its throttle. -/
def launchRule (throttleSeconds : ℕ) : EventRule :=
  ⟨true, .webhookGithub, [], [⟨.launchJobTemplate, 5, ""⟩], throttleSeconds, none, 0⟩

def pushRequest (delivery : String) : Request Unit := ⟨delivery, "", "", "", 100, (), []⟩

def idle (throttleSeconds : ℕ) : State Unit :=
  ⟨some (launchRule throttleSeconds), .empty, [], .empty, .empty, []⟩

def receive (d pk : ℕ) (delivery : String) : List (Event Unit) :=
  [.post d (pushRequest delivery), .deduplicate d, .create d pk]

/-- A whole run with one action. -/
def evaluateAll (pk job : ℕ) (now : ℤ) : List (Event Unit) :=
  [.start pk, .check pk now, .save pk, .act pk (.ok job), .save pk, .record pk now]

theorem reachable_idle {throttleSeconds : ℕ} {events' : List (Event Unit)} {s : State Unit}
    (h : System.runAll (exec trusting) (idle throttleSeconds) events' = some s) :
    (events trusting).Reachable s :=
  System.Reachable.runAll (fun _ _ _ _ h => h) (.init ⟨some (launchRule throttleSeconds), rfl⟩) h

end Forail.Eda
