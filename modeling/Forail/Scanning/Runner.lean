import Forail.Base.PosixPath
import Forail.Scanning.Adapters

/-! `run_scanners_for_launch`: the scanners of a launch run one after another, and each is stored as a
report with the findings at or above its threshold, or as unavailable. -/

namespace Forail.Scanning

structure Scanner where
  id : ℕ
  name : String
  organization : Option ℕ
  tool : String
  severityThreshold : String
  enforcement : String
  enabled : Bool
  appliesTo : List String
  triggerCount : ℕ

/-- What becomes of a subprocess. -/
inductive Subprocess
  | completed (stdout stderr : Str) (returncode : ℤ)
  | timedOut (e : String)
  | failed (e : String)
  | raised (e : String)

inductive Status
  | ok | warn | blocked | error | timeout
  deriving DecidableEq

/-- The settings, the rows of the scanners in their order, and for each of them the subprocess. -/
structure Environment where
  python : Python
  scannerEnabled : Bool
  timeoutS : ℤ
  failMode : String
  rawMax : ℕ
  scanners : List Scanner
  subprocess : Scanner → Subprocess

/-- The job that shall start. -/
structure Launch where
  className : String
  unifiedJob : ℕ
  unifiedJobTemplate : Option ℕ
  templateOrganization : Option ℕ
  organization : Option ℕ
  triggeredBy : Option ℕ
  projectPath : Option Str
  playbook : Str

structure ScanResult where
  scanner : ℕ
  scannerName : String
  unifiedJob : Option ℕ
  unifiedJobTemplate : Option ℕ
  organizationId : Option ℕ
  triggeredBy : Option ℕ
  status : Status
  findingCount : ℕ
  highestSeverity : String
  message : String
  rawOutput : String
  findings : List Finding

/-- What one scanner adds: its row, its messages, and the new value of `trigger_count`. -/
structure Outcome where
  result : ScanResult
  allowed : Bool
  warnMessages : List String
  blockMessages : List String
  triggers : List (ℕ × ℕ)

structure ScanRunResult where
  allowed : Bool
  warnMessages : List String
  blockMessages : List String
  results : List ScanResult
  triggers : List (ℕ × ℕ)

/-! ### Severities -/

def severityOrder : List (String × ℕ) :=
  [("info", 0), ("low", 1), ("medium", 2), ("high", 3), ("critical", 4)]

/-- `severity_at_or_above`. Unknown severities count as `info`. -/
def severityAtOrAbove (lower : String → String) (findingSev threshold : String) : Bool :=
  (severityOrder.lookup (lower threshold)).getD 0 ≤ (severityOrder.lookup (lower findingSev)).getD 0

/-- `aggregate_status`. -/
def aggregateStatus (lower : String → String) (severities : List String) (threshold : String) : Status :=
  if severities.isEmpty then .ok
  else if severities.any fun sev => severityAtOrAbove lower sev threshold then .blocked
  else .warn

/-- The highest severity; the one that is kept so far counts below all if it is unknown. -/
def highestSeverity (fs : List Finding) : String :=
  fs.foldl (fun highest f =>
    if ((severityOrder.lookup highest).elim (-1 : ℤ) fun n => n) <
      (severityOrder.lookup f.severity).getD 0 then f.severity else highest) ""

def effectiveEnforcement (globalEnabled : Bool) (scannerEnforcement : String) : String :=
  if !globalEnabled then "none"
  else if scannerEnforcement = "enforce" then "enforce"
  else "warn"

def failModeDecision (scannerUnavailable : Bool) (failMode : String) : String :=
  if !scannerUnavailable then "allow"
  else if failMode = "allow" then "allow"
  else "deny"

/-- A slice from the start. -/
def slice (n : ℕ) (s : String) : String := String.ofList (s.toList.take n)

/-! ### The launch -/

def Launch.resourceType (lower : String → String) (l : Launch) : String :=
  if l.className = "Job" then "job_template"
  else if l.className = "WorkflowJob" then "workflow_job_template"
  else if l.className = "AdHocCommand" then "ad_hoc_command"
  else lower l.className

def Launch.orgId (l : Launch) : Option ℕ := l.templateOrganization.or l.organization

/-- `_resolve_target`. -/
def resolveTarget (l : Launch) (resourceType toolName : String) : Option Str := do
  let projectPath ← l.projectPath
  if projectPath = [] then none
  else if resourceType = "workflow_job_template" then none
  else if resourceType = "job_template" then
    if l.playbook = [] then none else some (PosixPath.join [projectPath, l.playbook])
  else if resourceType = "ad_hoc_command" then
    if toolName = "ansible-lint" then none else some projectPath
  else some projectPath

def Scanner.appliesToResource (s : Scanner) (resourceType : String) : Bool :=
  s.appliesTo.isEmpty || resourceType ∈ s.appliesTo

namespace Environment
variable (env : Environment) (l : Launch)

/-- The scanners that a launch runs, with their adapters. -/
def launched : List (Scanner × Tool) :=
  if !env.scannerEnabled then []
  else
    let resourceType := l.resourceType env.python.lower
    let scanners := env.scanners.filter fun s => s.enabled ∧
      (s.organization = none ∨ l.orgId ≠ none ∧ s.organization = l.orgId) ∧
      s.appliesToResource resourceType
    scanners.filterMap fun s => do
      let tool ← getAdapter s.tool
      let _ ← resolveTarget l resourceType s.tool
      some (s, tool)

/-- The findings of a run with its standard output, or why it is unavailable, with what is left of its
outputs. -/
def runSubprocess (s : Scanner) (tool : Tool) : Except (Status × Str × Str) (Str × List Finding) :=
  match env.subprocess s with
  | .completed stdout stderr _ =>
    match parseOutput env.python tool stdout with
    | some fs => .ok (stdout, fs)
    | none => .error (.error, stdout, stderr)
  | .timedOut e => .error (.timeout, [],
      ("Scanner timed out after " ++ toString env.timeoutS ++ "s: " ++ e).toList)
  | .failed e => .error (.error, [], ("Scanner subprocess failed: " ++ e).toList)
  | .raised e => .error (.error, [], ("Scanner subprocess exception: " ++ e).toList)

def unavailable (s : Scanner) (status : Status) (stdout stderr : Str) : Outcome :=
  let denied := failModeDecision true env.failMode = "deny"
  let message := if stderr = [] then "Scanner " ++ s.tool ++ " unavailable."
    else String.ofList (stderr.take 512)
  let line := "[" ++ s.name ++ "] " ++ message
  { result := {
      scanner := s.id
      scannerName := s.name
      unifiedJob := if denied then none else some l.unifiedJob
      unifiedJobTemplate := l.unifiedJobTemplate
      organizationId := l.orgId
      triggeredBy := l.triggeredBy
      status := status
      findingCount := 0
      highestSeverity := ""
      message := message
      rawOutput := String.ofList ((if stdout = [] then stderr else stdout).take env.rawMax)
      findings := [] }
    allowed := !decide denied
    warnMessages := if denied then [] else [line]
    blockMessages := if denied then [line] else []
    triggers := [] }

/-- The findings at or above the threshold. -/
def kept (s : Scanner) (fs : List Finding) : List Finding :=
  fs.filter fun f => severityAtOrAbove env.python.lower f.severity s.severityThreshold

def reportStatus (s : Scanner) (filtered : List Finding) : Status :=
  if filtered.isEmpty then .ok
  else if aggregateStatus env.python.lower (filtered.map Finding.severity) s.severityThreshold = .blocked ∧
    effectiveEnforcement true s.enforcement = "enforce" then .blocked
  else .warn

def blockMessage (s : Scanner) (f : Finding) : String :=
  let line := match f.line with
    | none => ""
    | some n => if n = 0 then "" else toString n
  slice 512 ("[" ++ s.name ++ "] " ++ f.ruleId ++ " " ++ f.filePath ++ ":" ++ line ++ " " ++ f.message)

def reportMessage (filtered : List Finding) : String :=
  match filtered with
  | [] => ""
  | f :: _ => slice 512 (toString filtered.length ++ " finding(s); first: [" ++ f.severity ++ "] " ++
      f.ruleId ++ " " ++ f.message)

def report (s : Scanner) (stdout : Str) (fs : List Finding) : Outcome :=
  let filtered := env.kept s fs
  let status := env.reportStatus s filtered
  { result := {
      scanner := s.id
      scannerName := s.name
      unifiedJob := if status = .blocked then none else some l.unifiedJob
      unifiedJobTemplate := l.unifiedJobTemplate
      organizationId := l.orgId
      triggeredBy := l.triggeredBy
      status := status
      findingCount := filtered.length
      highestSeverity := highestSeverity filtered
      message := reportMessage filtered
      rawOutput := String.ofList (stdout.take env.rawMax)
      findings := filtered }
    allowed := status ≠ .blocked
    warnMessages := if status = .warn ∧ filtered ≠ [] then
        ["[" ++ s.name ++ "] " ++ toString filtered.length ++ " finding(s), highest=" ++
          highestSeverity filtered]
      else []
    blockMessages := if status = .blocked then filtered.map (blockMessage s) else []
    triggers := if filtered = [] then [] else [(s.id, s.triggerCount + 1)] }

/-- The body of the loop. -/
def runScanner (s : Scanner) (tool : Tool) : Outcome :=
  match env.runSubprocess s tool with
  | .error (status, stdout, stderr) => env.unavailable l s status stdout stderr
  | .ok (stdout, fs) => env.report l s stdout fs

def addOutcome (r : ScanRunResult) (o : Outcome) : ScanRunResult where
  allowed := r.allowed && o.allowed
  warnMessages := r.warnMessages ++ o.warnMessages
  blockMessages := r.blockMessages ++ o.blockMessages
  results := r.results ++ [o.result]
  triggers := r.triggers ++ o.triggers

/-- `run_scanners_for_launch`. -/
def runScannersForLaunch : ScanRunResult :=
  ((env.launched l).map fun p => env.runScanner l p.1 p.2).foldl addOutcome ⟨true, [], [], [], []⟩

/-- The result has the rows of all scanners, and each of them can forbid the launch. -/
theorem foldl_addOutcome (os : List Outcome) (r : ScanRunResult) :
    (os.foldl addOutcome r).results = r.results ++ os.map Outcome.result ∧
      (os.foldl addOutcome r).allowed = (r.allowed && os.all Outcome.allowed) := by
  induction os generalizing r with
  | nil => simp
  | cons o os ih =>
    obtain ⟨hresults, hallowed⟩ := ih (addOutcome r o)
    rw [List.foldl_cons, hresults, hallowed]
    exact ⟨by simp [addOutcome], by simp [addOutcome, Bool.and_assoc]⟩

end Environment

end Forail.Scanning
