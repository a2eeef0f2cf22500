import Forail.Base.Dict
import Forail.Base.Runs
import Mathlib.Algebra.Order.Group.Int

/-! Runs of `evaluate_drift_alerts`. A run loads the rules with the time of their last trigger, and goes
through its copies: it checks the scope and the cooldown, counts the rows of the window, creates an alert
and records the trigger. The steps of the runs interleave in any way. -/

namespace Forail.DriftAlerts

/-- The settings of an alert rule; the window and the cooldown are in minutes. -/
structure Rule where
  organization : Option ℕ
  enabled : Bool
  inventory : Option ℕ
  hostFilter : String
  categories : List String
  severityMin : String
  thresholdCount : ℕ
  thresholdWindow : ℕ
  cooldown : ℕ

/-- A host, with the organization of its inventory. -/
structure Host where
  name : String
  inventory : ℕ
  organization : Option ℕ

structure Drift where
  host : ℕ
  detectedAt : ℤ
  category : String
  severity : String

/-- What does not change during the runs. -/
structure Site where
  fnmatch : String → String → Bool
  rules : Dict ℕ Rule
  hosts : Dict ℕ Host

/-- An alert; the time at which its rows were counted is not stored. -/
structure Alert where
  rule : ℕ
  host : ℕ
  organization : Option ℕ
  driftCount : ℕ
  countedAt : ℤ
  createdAt : ℤ
  deriving DecidableEq

structure Trigger where
  lastTriggeredAt : Option ℤ
  triggerCount : ℕ

/-- A rule as a run has loaded it. -/
structure Copy where
  pk : ℕ
  rule : Rule
  lastTriggeredAt : Option ℤ

inductive Phase
  | next | checked
  | counted (count : ℕ) (countedAt : ℤ)
  | alerted
  deriving DecidableEq

/-- A run, with the rules that it has to go through; the phase is that of the first one. -/
structure Run where
  hostId : ℕ
  host : Host
  rules : List Copy
  phase : Phase

structure State where
  triggers : ℕ → Trigger
  drifts : List Drift
  runs : Dict ℕ Run
  alerts : List Alert
  clock : ℤ

inductive Event
  | detect (drift : Drift)
  | start (run host : ℕ)
  | check (run : ℕ) (now : ℤ)
  | count (run : ℕ) (now : ℤ)
  | create (run : ℕ) (now : ℤ)
  | record (run : ℕ) (now : ℤ)

/-- Minutes in microseconds. -/
def minutes (n : ℕ) : ℤ := 60000000 * n

def severityOrder : List (String × ℕ) := [("low", 0), ("medium", 1), ("high", 2), ("critical", 3)]

/-- The severities that are no lower than that of the rule. -/
def severityValues (severityMin : String) : List String :=
  (severityOrder.filter fun e => (severityOrder.lookup severityMin).getD 0 ≤ e.2).map Prod.fst

/-- `is_in_cooldown`. -/
def inCooldown (cooldown : ℕ) (lastTriggeredAt : Option ℤ) (now : ℤ) : Bool :=
  match lastTriggeredAt with
  | none => false
  | some last => 0 < cooldown ∧ now - last < minutes cooldown

/-- The rows that a rule counts for a host. -/
def Rule.counts (rule : Rule) (host : ℕ) (now : ℤ) (drift : Drift) : Bool :=
  drift.host = host ∧ now - minutes rule.thresholdWindow ≤ drift.detectedAt ∧
    (rule.categories = [] ∨ drift.category ∈ rule.categories) ∧
    drift.severity ∈ severityValues rule.severityMin

section Definitions
variable (site : Site)

/-- The rules that a run goes through. Without an organization these are all the enabled ones. -/
def loadRules (triggers : ℕ → Trigger) (host : Host) : List Copy :=
  (site.rules.entries.filter fun e => e.2.enabled ∧ (host.organization = none ∨
    e.2.organization = host.organization ∨ e.2.organization = none)).map fun e =>
      ⟨e.1, e.2, (triggers e.1).lastTriggeredAt⟩

/-- The inventory or the host is another one. -/
def outOfScope (rule : Rule) (host : Host) : Bool :=
  (rule.inventory ≠ none ∧ rule.inventory ≠ some host.inventory) ∨
    (rule.hostFilter ≠ "" ∧ site.fnmatch host.name rule.hostFilter = false)

/-- One event, which has no result where it is not possible. -/
def exec (s : State) : Event → Option State
  | .detect drift =>
    if s.clock ≤ drift.detectedAt then
      some { s with clock := drift.detectedAt, drifts := s.drifts ++ [drift] }
    else none
  | .start run hostId => do
    let host ← site.hosts.get? hostId
    if (s.runs.get? run).isSome then none
    else some { s with runs := s.runs.set run ⟨hostId, host, loadRules site s.triggers host, .next⟩ }
  | .check run now => do
    let r ← s.runs.get? run
    match r.phase, r.rules with
    | .next, copy :: rest =>
      if now < s.clock then none
      else if outOfScope site copy.rule r.host ∨ inCooldown copy.rule.cooldown copy.lastTriggeredAt now then
        some { s with clock := now, runs := s.runs.set run { r with rules := rest } }
      else some { s with clock := now, runs := s.runs.set run { r with phase := .checked } }
    | _, _ => none
  | .count run now => do
    let r ← s.runs.get? run
    match r.phase, r.rules with
    | .checked, copy :: rest =>
      let count := (s.drifts.filter (copy.rule.counts r.hostId now)).length
      if now < s.clock then none
      else if count < copy.rule.thresholdCount then
        some { s with clock := now, runs := s.runs.set run { r with rules := rest, phase := .next } }
      else some { s with clock := now, runs := s.runs.set run { r with phase := .counted count now } }
    | _, _ => none
  | .create run now => do
    let r ← s.runs.get? run
    match r.phase, r.rules with
    | .counted count countedAt, copy :: _ =>
      if now < s.clock then none
      else some { s with
        clock := now
        runs := s.runs.set run { r with phase := .alerted }
        alerts := s.alerts ++ [⟨copy.pk, r.hostId, r.host.organization, count, countedAt, now⟩] }
    | _, _ => none
  | .record run now => do
    let r ← s.runs.get? run
    match r.phase, r.rules with
    | .alerted, copy :: rest =>
      if now < s.clock then none
      else some { s with
        clock := now
        runs := s.runs.set run { r with rules := rest, phase := .next }
        triggers := Function.update s.triggers copy.pk
          ⟨some now, (s.triggers copy.pk).triggerCount + 1⟩ }
    | _, _ => none

/-- The runs, from any rows and times of triggers. -/
def system : System State Event where
  init s := s.runs = Dict.empty ∧ s.alerts = [] ∧ ∀ drift ∈ s.drifts, drift.detectedAt ≤ s.clock
  step s e s' := exec site s e = some s'

end Definitions

/-! ### What a step does -/

section Steps
variable {site : Site} {s s' : State}

theorem step_detect {drift : Drift} (h : exec site s (.detect drift) = some s') :
    s.clock ≤ drift.detectedAt ∧
      s' = { s with clock := drift.detectedAt, drifts := s.drifts ++ [drift] } := by
  obtain ⟨hclock, h⟩ := Option.ite_none_right_eq_some.mp h
  exact ⟨hclock, (Option.some.inj h).symm⟩

theorem step_start {run hostId : ℕ} (h : exec site s (.start run hostId) = some s') :
    ∃ host, site.hosts.get? hostId = some host ∧ s.runs.get? run = none ∧
      s' = { s with runs := s.runs.set run ⟨hostId, host, loadRules site s.triggers host, .next⟩ } := by
  obtain ⟨host, hhost, h⟩ := Option.bind_eq_some_iff.mp h
  obtain ⟨hnone, h⟩ := Option.ite_none_left_eq_some.mp h
  exact ⟨host, hhost, Option.not_isSome_iff_eq_none.mp hnone, (Option.some.inj h).symm⟩

theorem step_check {run : ℕ} {now : ℤ} (h : exec site s (.check run now) = some s') :
    ∃ r copy rest, s.runs.get? run = some r ∧ r.phase = .next ∧ r.rules = copy :: rest ∧ s.clock ≤ now ∧
      (s' = { s with clock := now, runs := s.runs.set run { r with rules := rest } } ∨
        outOfScope site copy.rule r.host = false ∧
        inCooldown copy.rule.cooldown copy.lastTriggeredAt now = false ∧
        s' = { s with clock := now, runs := s.runs.set run { r with phase := .checked } }) := by
  obtain ⟨r, hr, h⟩ := Option.bind_eq_some_iff.mp h
  split at h
  case h_1 copy rest hphase hrules =>
    refine ⟨r, copy, rest, hr, hphase, hrules, ?_⟩
    split_ifs at h with hclock hskip
    · exact ⟨not_lt.mp hclock, .inl (Option.some.inj h).symm⟩
    · rw [not_or, Bool.not_eq_true, Bool.not_eq_true] at hskip
      exact ⟨not_lt.mp hclock, .inr ⟨hskip.1, hskip.2, (Option.some.inj h).symm⟩⟩
  case h_2 => exact absurd h (by simp)

theorem step_count {run : ℕ} {now : ℤ} (h : exec site s (.count run now) = some s') :
    ∃ r copy rest, s.runs.get? run = some r ∧ r.phase = .checked ∧ r.rules = copy :: rest ∧
      s.clock ≤ now ∧
      (s' = { s with clock := now, runs := s.runs.set run { r with rules := rest, phase := .next } } ∨
        copy.rule.thresholdCount ≤ (s.drifts.filter (copy.rule.counts r.hostId now)).length ∧
        s' = { s with
          clock := now
          runs := s.runs.set run { r with
            phase := .counted (s.drifts.filter (copy.rule.counts r.hostId now)).length now } }) := by
  obtain ⟨r, hr, h⟩ := Option.bind_eq_some_iff.mp h
  split at h
  case h_1 copy rest hphase hrules =>
    refine ⟨r, copy, rest, hr, hphase, hrules, ?_⟩
    dsimp only at h
    split_ifs at h with hclock hfew
    · exact ⟨not_lt.mp hclock, .inl (Option.some.inj h).symm⟩
    · exact ⟨not_lt.mp hclock, .inr ⟨not_lt.mp hfew, (Option.some.inj h).symm⟩⟩
  case h_2 => exact absurd h (by simp)

theorem step_create {run : ℕ} {now : ℤ} (h : exec site s (.create run now) = some s') :
    ∃ r copy rest count countedAt, s.runs.get? run = some r ∧ r.phase = .counted count countedAt ∧
      r.rules = copy :: rest ∧ s.clock ≤ now ∧
      s' = { s with
        clock := now
        runs := s.runs.set run { r with phase := .alerted }
        alerts := s.alerts ++ [⟨copy.pk, r.hostId, r.host.organization, count, countedAt, now⟩] } := by
  obtain ⟨r, hr, h⟩ := Option.bind_eq_some_iff.mp h
  split at h
  case h_1 count countedAt copy rest hphase hrules =>
    obtain ⟨hclock, h⟩ := Option.ite_none_left_eq_some.mp h
    exact ⟨r, copy, rest, count, countedAt, hr, hphase, hrules, not_lt.mp hclock, (Option.some.inj h).symm⟩
  case h_2 => exact absurd h (by simp)

theorem step_record {run : ℕ} {now : ℤ} (h : exec site s (.record run now) = some s') :
    ∃ r copy rest, s.runs.get? run = some r ∧ r.phase = .alerted ∧ r.rules = copy :: rest ∧
      s.clock ≤ now ∧
      s' = { s with
        clock := now
        runs := s.runs.set run { r with rules := rest, phase := .next }
        triggers := Function.update s.triggers copy.pk
          ⟨some now, (s.triggers copy.pk).triggerCount + 1⟩ } := by
  obtain ⟨r, hr, h⟩ := Option.bind_eq_some_iff.mp h
  split at h
  case h_1 copy rest hphase hrules =>
    obtain ⟨hclock, h⟩ := Option.ite_none_left_eq_some.mp h
    exact ⟨r, copy, rest, hr, hphase, hrules, not_lt.mp hclock, (Option.some.inj h).symm⟩
  case h_2 => exact absurd h (by simp)

end Steps

end Forail.DriftAlerts
