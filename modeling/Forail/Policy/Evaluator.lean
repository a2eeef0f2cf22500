import Forail.Base.Json
import Mathlib.Data.List.Perm.Basic

/-! The client of the OPA sidecar: the value under `result` of an answer, and the warnings and denials
that it stands for. -/

namespace Forail.LaunchPolicies

/-- `evaluate`: the outcome of the request is the text of an exception or the answer. -/
def evaluate (serverUrl : String) (response : Except String Value) : Except String Value :=
  if serverUrl = "" then .error "OPA_SERVER_URL is not set"
  else
    match response with
    | .error e => .error e
    | .ok (.dict es) => .ok ((es.lookup "result").getD (.dict []))
    | .ok _ => .ok (.dict [])

section Parse
variable (quote : String → String)

def policyDenied : Value := .str "Policy denied launch."

/-- `entry if isinstance(entry, str) else str(entry)`. -/
def entryText (entry : Value) : Value := .str (entry.smartStr quote)

/-- A violation is a dictionary; its message is the text of all of it where it has none. -/
def addViolation (r : List Value × List Value) (es : List (String × Value)) :
    List Value × List Value :=
  let message := (es.lookup "message").getD .null
  let msg := if message.truth then message else .str (String.ofList (Json.dumps (.dict es)))
  if ((es.lookup "severity").getD .null).eq (.str "warn") then (r.1 ++ [msg], r.2)
  else (r.1, r.2 ++ [msg])

/-- A member of an answer that is a list. -/
def addItem (r : List Value × List Value) : Value → List Value × List Value
  | .str s => (r.1, r.2 ++ [.str s])
  | .dict es => addViolation r es
  | _ => r

/-- A member of `violations`. -/
def addViolationItem (r : List Value × List Value) : Value → List Value × List Value
  | .dict es => addViolation r es
  | _ => r

/-- `parse_decision`: the warnings and the denials. -/
def parseDecision (result : Value) : List Value × List Value :=
  if !result.truth then ([], [])
  else
    match result with
    | .bool _ => ([], [policyDenied])
    | .str s => ([], [.str s])
    | .list items => items.foldl addItem ([], [])
    | .dict es =>
      let warns := match es.lookup "warn" with
        | some (.list entries) => entries.map (entryText quote)
        | _ => []
      let denies := match es.lookup "deny" with
        | some (.list entries) => entries.map (entryText quote)
        | some (.bool true) => [policyDenied]
        | _ => []
      match es.lookup "violations" with
      | some (.list items) => items.foldl addViolationItem (warns, denies)
      | _ => (warns, denies)
    | _ => ([], [])

end Parse

end Forail.LaunchPolicies

/-! `evaluate_launch`: the enabled policies that apply to a launch are evaluated one after the other, and
each warning, denial or unavailability is stored as a decision. Where OPA is unavailable only the fail
mode decides, and not the enforcement of the policy. -/

namespace Forail.LaunchPolicies

inductive Enforcement
  | none | warn | enforce
  deriving DecidableEq

inductive Decision
  | allow | warn | deny
  deriving DecidableEq

structure Policy where
  id : ℕ
  name : String
  organization : Option ℕ
  enforcement : Enforcement
  enabled : Bool
  appliesTo : List String
  triggerCount : ℕ

/-- The settings, the enforcement of each organization (none where it cannot be read), and for each
policy the outcome of the request. -/
structure Environment where
  opaEnabled : Bool
  opaServerUrl : String
  opaFailMode : String
  policyEnforcement : ℕ → Option Enforcement
  response : Policy → Except String Value
  quote : String → String

/-- The job that shall start: its class, and the organizations of its template and of itself. -/
structure Launch where
  className : String
  unifiedJob : ℕ
  unifiedJobTemplate : Option ℕ
  templateOrganization : Option ℕ
  organization : Option ℕ
  triggeredBy : Option ℕ

structure PolicyDecision where
  policy : ℕ
  policyName : String
  decision : Decision
  unifiedJob : Option ℕ
  unifiedJobTemplate : Option ℕ
  organizationId : Option ℕ
  triggeredBy : Option ℕ
  message : String

/-- `triggers` are the updates of `trigger_count`. -/
structure PolicyDecisionResult where
  allowed : Bool
  warnMessages : List String
  denyMessages : List String
  decisions : List PolicyDecision
  triggers : List (ℕ × ℕ)

def effectiveEnforcement (globalEnabled : Bool) (orgEnforcement policyEnforcement : Enforcement) :
    Enforcement :=
  if !globalEnabled then .none
  else
    match orgEnforcement with
    | .none => .none
    | .warn => .warn
    | .enforce => policyEnforcement

def failModeDecision (opaUnavailable : Bool) (failMode : String) : Decision :=
  if !opaUnavailable then .allow
  else if failMode = "allow" then .allow
  else .deny

def Policy.appliesToResource (p : Policy) (resourceType : String) : Bool :=
  p.appliesTo.isEmpty || resourceType ∈ p.appliesTo

def Launch.resourceType (lower : String → String) (l : Launch) : String :=
  if l.className = "Job" then "job_template"
  else if l.className = "WorkflowJob" then "workflow_job_template"
  else if l.className = "AdHocCommand" then "ad_hoc_command"
  else lower l.className

def Launch.orgId (l : Launch) : Option ℕ := l.templateOrganization.or l.organization

namespace Environment
variable (env : Environment) (l : Launch)

def orgEnforcement : Enforcement :=
  (l.orgId.bind env.policyEnforcement).getD .none

/-- A decision that is stored for a policy. -/
def createDecision (p : Policy) (decision : Decision) (unifiedJob : Option ℕ) (message : String) :
    PolicyDecision where
  policy := p.id
  policyName := p.name
  decision := decision
  unifiedJob := unifiedJob
  unifiedJobTemplate := l.unifiedJobTemplate
  organizationId := l.orgId
  triggeredBy := l.triggeredBy
  message := message

/-- OPA is unavailable. -/
def addUnavailable (r : PolicyDecisionResult) (p : Policy) (e : String) : PolicyDecisionResult :=
  let msg := "OPA unavailable: " ++ e
  if failModeDecision true env.opaFailMode = .deny then
    { r with
      decisions := r.decisions ++ [createDecision l p .deny none msg]
      allowed := false
      denyMessages := r.denyMessages ++ [msg] }
  else
    { r with
      decisions := r.decisions ++ [createDecision l p .warn (some l.unifiedJob) msg]
      warnMessages := r.warnMessages ++ [msg] }

def addWarn (p : Policy) (r : PolicyDecisionResult) (w : Value) : PolicyDecisionResult :=
  let text := w.smartStr env.quote
  { r with
    decisions := r.decisions ++ [createDecision l p .warn (some l.unifiedJob) text]
    warnMessages := r.warnMessages ++ ["[" ++ p.name ++ "] " ++ text] }

def addDeny (eff : Enforcement) (p : Policy) (r : PolicyDecisionResult) (d : Value) :
    PolicyDecisionResult :=
  let text := d.smartStr env.quote
  if eff = .enforce then
    { r with
      decisions := r.decisions ++ [createDecision l p .deny none text]
      allowed := false
      denyMessages := r.denyMessages ++ ["[" ++ p.name ++ "] " ++ text] }
  else
    { r with
      decisions := r.decisions ++
        [createDecision l p .deny (if eff = .warn then some l.unifiedJob else none) text]
      warnMessages := r.warnMessages ++ ["[" ++ p.name ++ "] (deny in warn-only) " ++ text] }

/-- The body of the loop. -/
def evaluatePolicy (r : PolicyDecisionResult) (p : Policy) : PolicyDecisionResult :=
  let eff := effectiveEnforcement true (env.orgEnforcement l) p.enforcement
  if eff = .none then r
  else
    match evaluate env.opaServerUrl (env.response p) with
    | .error e => env.addUnavailable l r p e
    | .ok opaResult =>
      let (warns, denies) := parseDecision env.quote opaResult
      if warns.isEmpty && denies.isEmpty then r
      else
        let r := { r with triggers := r.triggers ++ [(p.id, p.triggerCount + 1)] }
        denies.foldl (env.addDeny l eff p) (warns.foldl (env.addWarn l p) r)

/-- The filters of the query and of the list. -/
def applies (lower : String → String) (p : Policy) : Bool :=
  p.enabled && (p.organization = l.orgId || p.organization.isNone) &&
    p.appliesToResource (l.resourceType lower)

def evaluateLaunch (lower : String → String) (policies : List Policy) : PolicyDecisionResult :=
  let result : PolicyDecisionResult := ⟨true, [], [], [], []⟩
  if !env.opaEnabled then result
  else if env.orgEnforcement l = .none then result
  else (policies.filter (applies l lower)).foldl (env.evaluatePolicy l) result

/-! ### The verdict -/

/-- What the switch, the organization and the policy make of the enforcement. -/
def effective (p : Policy) : Enforcement :=
  effectiveEnforcement env.opaEnabled (env.orgEnforcement l) p.enforcement

def outcome (p : Policy) : Except String Value := evaluate env.opaServerUrl (env.response p)

def Denies (p : Policy) : Prop :=
  ∃ opaResult, env.outcome p = .ok opaResult ∧ (parseDecision env.quote opaResult).2 ≠ []

/-- OPA is unavailable, and the fail mode is to deny. -/
def FailsClosed (p : Policy) : Prop :=
  (∃ e, env.outcome p = .error e) ∧ failModeDecision true env.opaFailMode = .deny

/-- The policy is enforced, and its answer or its absence denies the launch. -/
def Blocks (p : Policy) : Prop :=
  env.effective l p = .enforce ∧ (env.Denies p ∨ env.FailsClosed p)

/-- The policy only warns, and its absence denies the launch. -/
def Overruled (p : Policy) : Prop := env.effective l p = .warn ∧ env.FailsClosed p

/-- The rows of a policy, each a policy, a decision and a message. -/
def rows (p : Policy) : List (ℕ × Decision × String) :=
  if env.effective l p = .none then []
  else
    match env.outcome p with
    | .error e =>
      [(p.id, if failModeDecision true env.opaFailMode = .deny then .deny else .warn,
        "OPA unavailable: " ++ e)]
    | .ok opaResult =>
      (parseDecision env.quote opaResult).1.map (fun w => (p.id, .warn, w.smartStr env.quote)) ++
        (parseDecision env.quote opaResult).2.map fun d => (p.id, .deny, d.smartStr env.quote)

/-- The launch is denied exactly when a policy that applies blocks it, in whatever order the policies
are listed, and each warning, denial or unavailability has its row. -/
structure Correct (lower : String → String) (policies : List Policy) : Prop where
  verdict : (env.evaluateLaunch l lower policies).allowed = false ↔
    ∃ p ∈ policies, applies l lower p = true ∧ env.Blocks l p
  order : ∀ policies', policies.Perm policies' →
    (env.evaluateLaunch l lower policies').allowed = (env.evaluateLaunch l lower policies).allowed
  recorded : (env.evaluateLaunch l lower policies).decisions.map
    (fun d => (d.policy, d.decision, d.message)) = (policies.filter (applies l lower)).flatMap (env.rows l)

section Loop
variable {env l} {r : PolicyDecisionResult} {p : Policy} {lower : String → String}

def rowOf (d : PolicyDecision) : ℕ × Decision × String := (d.policy, d.decision, d.message)

theorem foldl_addWarn (ws : List Value) :
    (ws.foldl (env.addWarn l p) r).allowed = r.allowed ∧
      (ws.foldl (env.addWarn l p) r).decisions.map rowOf =
        r.decisions.map rowOf ++ ws.map fun w => (p.id, .warn, w.smartStr env.quote) := by
  induction ws generalizing r with
  | nil => exact ⟨rfl, (List.append_nil _).symm⟩
  | cons w ws ih =>
    rw [List.foldl_cons, ih.1, ih.2, List.map_cons]
    refine ⟨rfl, ?_⟩
    simp only [addWarn, List.map_append, List.map_singleton, List.append_assoc]
    rfl

theorem foldl_addDeny {eff : Enforcement} (ds : List Value) :
    ((ds.foldl (env.addDeny l eff p) r).allowed = false ↔
        r.allowed = false ∨ eff = .enforce ∧ ds ≠ []) ∧
      (ds.foldl (env.addDeny l eff p) r).decisions.map rowOf =
        r.decisions.map rowOf ++ ds.map fun d => (p.id, .deny, d.smartStr env.quote) := by
  induction ds generalizing r with
  | nil => simp
  | cons d ds ih =>
    rw [List.foldl_cons, ih.1, ih.2, List.map_cons]
    unfold addDeny
    dsimp only
    by_cases heff : eff = .enforce
    · rw [if_pos heff]
      simp [heff, rowOf, createDecision]
    · rw [if_neg heff]
      simp [heff, rowOf, createDecision]

theorem effectiveEnforcement_on (hon : env.opaEnabled = true) :
    effectiveEnforcement true (env.orgEnforcement l) p.enforcement = env.effective l p := by
  rw [effective, hon]

/-- What the evaluation of a policy does to the verdict and to the rows. -/
theorem evaluatePolicy_spec (hon : env.opaEnabled = true) :
    ((env.evaluatePolicy l r p).allowed = false ↔
        r.allowed = false ∨ env.Blocks l p ∨ env.Overruled l p) ∧
      (env.evaluatePolicy l r p).decisions.map rowOf = r.decisions.map rowOf ++ env.rows l p := by
  unfold evaluatePolicy rows
  rw [effectiveEnforcement_on hon, ← outcome]
  dsimp only
  by_cases heff : env.effective l p = .none
  · rw [if_pos heff, if_pos heff]
    simp [Blocks, Overruled, heff]
  · rw [if_neg heff, if_neg heff]
    cases hout : env.outcome p with
    | error e =>
      have hcases : env.effective l p = .enforce ∨ env.effective l p = .warn := by
        cases h : env.effective l p with
        | none => exact absurd h heff
        | warn => exact .inr rfl
        | enforce => exact .inl rfl
      have hdenies : ¬ env.Denies p := by
        rintro ⟨opaResult, hok, -⟩
        rw [hout] at hok
        cases hok
      have hunavailable : env.FailsClosed p ↔ failModeDecision true env.opaFailMode = .deny :=
        and_iff_right ⟨e, hout⟩
      dsimp only
      unfold addUnavailable
      split_ifs with hdeny
      · refine ⟨iff_of_true rfl (.inr ?_), by simp [rowOf, createDecision]⟩
        rcases hcases with h | h
        · exact .inl ⟨h, .inr (hunavailable.mpr hdeny)⟩
        · exact .inr ⟨h, hunavailable.mpr hdeny⟩
      · simp [Blocks, Overruled, hdenies, hunavailable, hdeny, rowOf, createDecision]
    | ok opaResult =>
      have hfails : ¬ env.FailsClosed p := by
        rintro ⟨⟨e, herror⟩, -⟩
        rw [hout] at herror
        cases herror
      have hdenies : env.Denies p ↔ (parseDecision env.quote opaResult).2 ≠ [] := by
        constructor
        · rintro ⟨result, hok, hne⟩
          rw [hout] at hok
          cases hok
          exact hne
        · exact fun hne => ⟨opaResult, hout, hne⟩
      dsimp only
      generalize parseDecision env.quote opaResult = answer at hdenies ⊢
      obtain ⟨warns, denies⟩ := answer
      dsimp only at hdenies ⊢
      split_ifs with hsilent
      · rw [Bool.and_eq_true, List.isEmpty_iff, List.isEmpty_iff] at hsilent
        simp [Blocks, Overruled, hdenies, hfails, hsilent.1, hsilent.2]
      · rw [(foldl_addDeny denies).1, (foldl_addDeny denies).2, (foldl_addWarn warns).1,
          (foldl_addWarn warns).2]
        simp [Blocks, Overruled, hdenies, hfails]

theorem foldl_evaluatePolicy (hon : env.opaEnabled = true) (policies : List Policy) :
    ((policies.foldl (env.evaluatePolicy l) r).allowed = false ↔
        r.allowed = false ∨ ∃ p ∈ policies, env.Blocks l p ∨ env.Overruled l p) ∧
      (policies.foldl (env.evaluatePolicy l) r).decisions.map rowOf =
        r.decisions.map rowOf ++ policies.flatMap (env.rows l) := by
  induction policies generalizing r with
  | nil => simp
  | cons p policies ih =>
    rw [List.foldl_cons, ih.1, ih.2, (evaluatePolicy_spec hon).1, (evaluatePolicy_spec hon).2,
      List.flatMap_cons, List.append_assoc, List.exists_mem_cons_iff, or_assoc]
    exact ⟨.rfl, rfl⟩

/-- A policy that is switched off, or whose organization is, is not enforced. -/
theorem effective_off (h : env.opaEnabled = false ∨ env.orgEnforcement l = .none) :
    env.effective l p = .none := by
  unfold effective effectiveEnforcement
  rcases h with h | h
  · rw [h]
    rfl
  · rw [h]
    cases env.opaEnabled <;> rfl

theorem evaluateLaunch_spec (policies : List Policy) :
    ((env.evaluateLaunch l lower policies).allowed = false ↔
        ∃ p ∈ policies, applies l lower p = true ∧ (env.Blocks l p ∨ env.Overruled l p)) ∧
      (env.evaluateLaunch l lower policies).decisions.map rowOf =
        (policies.filter (applies l lower)).flatMap (env.rows l) := by
  have hoff : env.opaEnabled = false ∨ env.orgEnforcement l = .none →
      (∀ p, ¬ (env.Blocks l p ∨ env.Overruled l p)) ∧ ∀ p, env.rows l p = [] := by
    intro h
    refine ⟨fun p => ?_, fun p => ?_⟩
    · simp [Blocks, Overruled, effective_off h]
    · rw [rows, if_pos (effective_off h)]
  unfold evaluateLaunch
  dsimp only
  split_ifs with hdisabled horg
  · have hnone := hoff (.inl (by simpa using hdisabled))
    simp [hnone.1, hnone.2]
  · have hnone := hoff (.inr horg)
    simp [hnone.1, hnone.2]
  · have hon : env.opaEnabled = true := by simpa using hdisabled
    rw [(foldl_evaluatePolicy hon _).1, (foldl_evaluatePolicy hon _).2]
    refine ⟨?_, rfl⟩
    simp only [Bool.true_eq_false, false_or, List.mem_filter, and_assoc]

end Loop

/-- All is right if and only if no policy that only warns is overruled by the fail mode, or the launch is
blocked anyway. -/
theorem correct_iff_capped (lower : String → String) (policies : List Policy) :
    env.Correct l lower policies ↔
      (∀ p ∈ policies, applies l lower p = true → ¬ env.Overruled l p) ∨
        ∃ p ∈ policies, applies l lower p = true ∧ env.Blocks l p := by
  have hverdict (policies : List Policy) : (env.evaluateLaunch l lower policies).allowed = false ↔
      ∃ p ∈ policies, applies l lower p = true ∧ (env.Blocks l p ∨ env.Overruled l p) :=
    (evaluateLaunch_spec policies).1
  constructor
  · intro hcorrect
    by_cases hblocked : ∃ p ∈ policies, applies l lower p = true ∧ env.Blocks l p
    · exact .inr hblocked
    · refine .inl fun p hp happlies hover => hblocked (hcorrect.verdict.mp ?_)
      exact (hverdict policies).mpr ⟨p, hp, happlies, .inr hover⟩
  · intro hcapped
    refine ⟨?_, fun policies' hperm => ?_, (evaluateLaunch_spec policies).2⟩
    · rw [hverdict]
      constructor
      · rintro ⟨p, hp, happlies, hblocks | hover⟩
        · exact ⟨p, hp, happlies, hblocks⟩
        · exact hcapped.resolve_left fun hnone => hnone p hp happlies hover
      · rintro ⟨p, hp, happlies, hblocks⟩
        exact ⟨p, hp, happlies, .inl hblocks⟩
    · refine Bool.eq_iff_iff.mpr (not_iff_not.mp ?_)
      rw [Bool.not_eq_true, Bool.not_eq_true, hverdict, hverdict]
      exact exists_congr fun p => and_congr_left fun _ => hperm.symm.mem_iff

/-! An organization that only warns, while the sidecar is down. -/

def sidecarDown : Environment where
  opaEnabled := true
  opaServerUrl := "http://opa:8181"
  opaFailMode := "deny"
  policyEnforcement := fun _ => some .warn
  response := fun _ => .error "Connection refused"
  quote := fun s => "'" ++ s ++ "'"

def launchJob : Launch := ⟨"Job", 40, some 10, some 1, some 1, some 7⟩

def tagPolicy : Policy := ⟨3, "tags", some 1, .enforce, true, [], 0⟩

theorem warn_mode_blocks : (sidecarDown.evaluateLaunch launchJob id [tagPolicy]).allowed = false ∧
    sidecarDown.effective launchJob tagPolicy = .warn ∧
    ¬ sidecarDown.Correct launchJob id [tagPolicy] := by
  refine ⟨by decide, rfl, fun hcorrect => ?_⟩
  obtain ⟨p, hp, -, henforced, -⟩ := hcorrect.verdict.mp (by decide)
  rw [List.mem_singleton.mp hp] at henforced
  cases henforced

end Environment

end Forail.LaunchPolicies
