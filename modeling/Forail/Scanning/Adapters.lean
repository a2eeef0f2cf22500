import Forail.Base.Json
import Forail.Base.MapM

/-! The adapters of the scanners: `parse_output` of `ansible-lint`, `checkov` and `pip-audit`. Each reads
the standard output as JSON and goes through the shapes that it tolerates; a value of another shape is
passed over, or makes the adapter fail. An output that is not JSON has no findings. -/

namespace Forail.Scanning

/-- A normalized finding. -/
structure Finding where
  ruleId : String
  severity : String
  filePath : String
  line : Option ℤ
  message : String
  deriving DecidableEq

/-- What of Python the adapters use: the quoted text of a string, `lower`, the value of a number with a
fraction, texts that are nested too deeply to be read, and `int`, which overflows (none) or refuses a
value. -/
structure Python where
  quote : String → String
  lower : String → String
  readFloat : Str → Value
  tooDeep : Str → Bool
  toInt : Value → Option (Option ℤ)

inductive Tool
  | ansibleLint | checkov | pipAudit
  deriving DecidableEq

/-- `get_adapter`. -/
def getAdapter (toolName : String) : Option Tool :=
  if toolName = "ansible-lint" then some .ansibleLint
  else if toolName = "checkov" then some .checkov
  else if toolName = "pip-audit" then some .pipAudit
  else none

/-! ### Values -/

/-- `get` of a dictionary. -/
def field (es : List (String × Value)) (key : String) : Value := (es.lookup key).getD .null

/-- `get` of any value, none where it has no such attribute. -/
def getAttr (v : Value) (key : String) : Option Value := v.get?.map fun get => (get key).getD .null

/-- The first true value, or the last one. -/
def firstOf : List Value → Value
  | [] => .null
  | [v] => v
  | v :: vs => if v.truth then v else firstOf vs

/-- What a loop over a value goes through, none where it cannot. -/
def items : Value → Option (List Value)
  | .list vs => some vs
  | .dict es => some (es.map fun e => .str e.1)
  | .str s => some (s.toList.map fun c => .str (String.singleton c))
  | _ => none

/-- `cats[0] if cats else ''`. -/
def firstItem (v : Value) : Option Value :=
  if v.truth then
    match v with
    | .list (w :: _) => some w
    | .str s => some (.str (s.take 1).toString)
    | _ => none
  else some (.str "")

def dict? : Value → Option (List (String × Value))
  | .dict es => some es
  | _ => none

/-- The findings of the dictionaries in a list; the other members are passed over. -/
def findingsOf (finding : List (String × Value) → Option Finding) (vs : List Value) : Option (List Finding) :=
  (vs.filterMap dict?).mapM finding

section Adapters
variable (py : Python)

def str (v : Value) : String := v.smartStr py.quote

/-! ### `ansible-lint` -/

def lintSeverity (raw : Value) : String :=
  if !raw.truth then "info"
  else if py.lower (str py raw) = "warning" then "low"
  else if py.lower (str py raw) = "error" then "high"
  else "low"

def lintRuleId (item : List (String × Value)) : Option Value :=
  if (field item "check_name").truth then some (field item "check_name")
  else if (field item "rule_id").truth then some (field item "rule_id")
  else do
    let id ← getAttr (firstOf [field item "rule", .dict []]) "id"
    some (firstOf [id, .str ""])

def lintLine (item : List (String × Value)) (lines : Value) : Option (Option ℤ) :=
  let line := match lines with
    | .dict ls => firstOf [field ls "begin", field ls "start"]
    | .int n => .int n
    | .bool b => .bool b
    | _ => .null
  let line := match line with
    | .null => field item "line"
    | v => v
  match line with
  | .null => some none
  | v => py.toInt v

def lintFinding (item : List (String × Value)) : Option Finding := do
  let ruleId ← lintRuleId item
  let sevRaw ← if (field item "severity").truth then some (field item "severity")
    else firstItem (firstOf [field item "categories", .list []])
  let loc := firstOf [field item "location", .dict []]
  let path ← getAttr loc "path"
  let lines ← getAttr loc "lines"
  let line ← lintLine py item (firstOf [lines, .dict []])
  some {
    ruleId := str py ruleId
    severity := lintSeverity py sevRaw
    filePath := str py (firstOf [path, field item "filename", .str ""])
    line := line
    message := str py (firstOf [field item "message", field item "description", .str ""]) }

def parseLint : Value → Option (List Finding)
  | .dict es => do
    let vs ← items (firstOf [field es "issues", field es "results", .list []])
    findingsOf (lintFinding py) vs
  | .list vs => findingsOf (lintFinding py) vs
  | _ => some []

/-! ### `checkov` -/

def checkovSeverity (raw : Value) : String :=
  match raw with
  | .null => "medium"
  | v => if py.lower (str py v) ∈ ["info", "low", "medium", "high", "critical"] then py.lower (str py v)
    else "medium"

def checkovLine (range : Value) : Option (Option ℤ) :=
  match range with
  | .list (v :: _) => py.toInt v
  | _ => some none

def checkovFinding (item : List (String × Value)) : Option Finding := do
  let line ← checkovLine py (field item "file_line_range")
  some {
    ruleId := str py (firstOf [field item "check_id", field item "bc_check_id", .str ""])
    severity := checkovSeverity py (field item "severity")
    filePath := str py (firstOf [field item "file_path", field item "repo_file_path", .str ""])
    line := line
    message := str py (firstOf [field item "check_name", field item "description", .str ""]) }

/-- The failed checks of one framework. -/
def envelopeFindings (env : List (String × Value)) : Option (List Finding) := do
  let failed ← getAttr (firstOf [field env "results", .dict []]) "failed_checks"
  let vs ← items (firstOf [failed, .list []])
  findingsOf (checkovFinding py) vs

def envelopes : Value → List Value
  | .list vs => vs
  | v => [v]

def parseCheckov (data : Value) : Option (List Finding) :=
  (((envelopes data).filterMap dict?).mapM (envelopeFindings py)).map List.flatten

/-! ### `pip-audit` -/

/-- `", ".join(fix)`. -/
def joinFix (fix : Value) : Option String := do
  let vs ← items fix
  let texts ← vs.mapM fun v => match v with
    | .str s => some s
    | _ => none
  some (String.intercalate ", " texts)

def auditFinding (dep vuln : List (String × Value)) : Option Finding := do
  let name := firstOf [field dep "name", field dep "package", .str ""]
  let version := firstOf [field dep "version", .str ""]
  let description := firstOf [field vuln "description", .str ""]
  let fix := firstOf [field vuln "fix_versions", .list []]
  let fixText ← if fix.truth then (joinFix fix).map fun text => " (fix: " ++ text ++ ")" else some ""
  some {
    ruleId := str py (firstOf [field vuln "id", .str ""])
    severity := "high"
    filePath := str py name
    line := none
    message := str py name ++ " " ++ str py version ++ ": " ++ str py description ++ fixText }

/-- The vulnerabilities of one dependency. -/
def dependencyFindings (dep : List (String × Value)) : Option (List Finding) := do
  let vs ← items (firstOf [field dep "vulns", .list []])
  findingsOf (auditFinding py dep) vs

def parseAudit (data : Value) : Option (List Finding) :=
  match data with
  | .dict es => do
    let deps ← items (firstOf [field es "dependencies", .list []])
    ((deps.filterMap dict?).mapM (dependencyFindings py)).map List.flatten
  | .list deps => ((deps.filterMap dict?).mapM (dependencyFindings py)).map List.flatten
  | _ => some []

/-! ### All adapters -/

def parseData : Tool → Value → Option (List Finding)
  | .ansibleLint => parseLint py
  | .checkov => parseCheckov py
  | .pipAudit => parseAudit py

/-- `parse_output`, none where it raises. -/
def parseOutput (tool : Tool) (stdout : Str) : Option (List Finding) :=
  if stdout = [] then some []
  else if py.tooDeep stdout then none
  else
    match Json.loads py.readFloat stdout with
    | none => some []
    | some data => parseData py tool data

end Adapters

/-! ### The findings of a report -/

section Contains
variable (py : Python)

/-- An object in the list of a report of `ansible-lint`, or in the one of its envelope. -/
def Issue (data : Value) (item : List (String × Value)) : Prop :=
  (∃ vs, data = .list vs ∧ .dict item ∈ vs) ∨
    ∃ es key vs, data = .dict es ∧ key ∈ ["issues", "results"] ∧ es.lookup key = some (.list vs) ∧
      .dict item ∈ vs

/-- A failed check of a report of `checkov`, or of one of its frameworks. -/
def FailedCheck (data : Value) (item : List (String × Value)) : Prop :=
  ∃ env, (data = .dict env ∨ ∃ envs, data = .list envs ∧ .dict env ∈ envs) ∧
    ∃ results vs, env.lookup "results" = some (.dict results) ∧
      results.lookup "failed_checks" = some (.list vs) ∧ .dict item ∈ vs

/-- A vulnerability of a dependency in a report of `pip-audit`. -/
def Vulnerability (data : Value) (dep vuln : List (String × Value)) : Prop :=
  ∃ deps, (data = .list deps ∨ ∃ es, data = .dict es ∧ es.lookup "dependencies" = some (.list deps)) ∧
    .dict dep ∈ deps ∧ ∃ vs, dep.lookup "vulns" = some (.list vs) ∧ .dict vuln ∈ vs

/-- A report contains a finding. -/
def Contains : Tool → Value → Finding → Prop
  | .ansibleLint, data, f => ∃ item, Issue data item ∧ lintFinding py item = some f
  | .checkov, data, f => ∃ item, FailedCheck data item ∧ checkovFinding py item = some f
  | .pipAudit, data, f => ∃ dep vuln, Vulnerability data dep vuln ∧ auditFinding py dep vuln = some f

variable {py}

theorem dict?_eq_some {v : Value} {es : List (String × Value)} : dict? v = some es ↔ v = .dict es := by
  cases v <;> simp [dict?]

theorem mem_dicts {vs : List Value} {es : List (String × Value)} :
    es ∈ vs.filterMap dict? ↔ .dict es ∈ vs := by
  simp only [List.mem_filterMap, dict?_eq_some, exists_eq_right]

theorem mem_findingsOf {finding : List (String × Value) → Option Finding} {vs : List Value}
    {fs : List Finding} (h : findingsOf finding vs = some fs) {f : Finding} :
    f ∈ fs ↔ ∃ item, .dict item ∈ vs ∧ finding item = some f := by
  rw [mem_of_mapM h]
  exact exists_congr fun item => and_congr_left' mem_dicts

theorem mem_flatten {find : List (String × Value) → Option (List Finding)} {vs : List Value}
    {fs : List Finding} (h : ((vs.filterMap dict?).mapM find).map List.flatten = some fs) {f : Finding} :
    f ∈ fs ↔ ∃ item gs, .dict item ∈ vs ∧ find item = some gs ∧ f ∈ gs := by
  obtain ⟨gss, hgss, rfl⟩ := Option.map_eq_some_iff.mp h
  rw [List.mem_flatten]
  constructor
  · rintro ⟨gs, hgs, hf⟩
    obtain ⟨item, hitem, hfind⟩ := (mem_of_mapM hgss).mp hgs
    exact ⟨item, gs, mem_dicts.mp hitem, hfind, hf⟩
  · rintro ⟨item, gs, hitem, hfind, hf⟩
    exact ⟨gs, (mem_of_mapM hgss).mpr ⟨item, mem_dicts.mpr hitem, hfind⟩, hf⟩

/-- A list that is there and not empty is the one that the loop goes through. -/
theorem items_firstOf {v : Value} {vs : List Value} (h : v = .list vs) :
    items (firstOf [v, .list []]) = some vs := by
  subst h
  cases vs <;> rfl

theorem firstOf_cons (v w : Value) (vs : List Value) :
    firstOf (v :: w :: vs) = if v.truth then v else firstOf (w :: vs) := rfl

theorem field_of_lookup {es : List (String × Value)} {key : String} {v : Value}
    (h : es.lookup key = some v) : field es key = v := by
  rw [field, h, Option.getD_some]

/-- The failed checks of a report are all found. -/
theorem mem_parseCheckov {data : Value} {fs : List Finding} (h : parseCheckov py data = some fs)
    {f : Finding} (hf : Contains py .checkov data f) : f ∈ fs := by
  obtain ⟨item, ⟨env, henv, results, vs, hresults, hfailed, hmem⟩, hfinding⟩ := hf
  refine (mem_flatten h).mpr ?_
  have hmemEnv : .dict env ∈ envelopes data := by
    rcases henv with rfl | ⟨envs, rfl, hmem⟩
    · exact List.mem_singleton.mpr rfl
    · exact hmem
  obtain ⟨gss, hgss, rfl⟩ := Option.map_eq_some_iff.mp h
  obtain ⟨gs, hgs⟩ := exists_mapM_iff.mp ⟨gss, hgss⟩ env (mem_dicts.mpr hmemEnv)
  refine ⟨env, gs, hmemEnv, hgs, ?_⟩
  have hattr : getAttr (firstOf [field env "results", .dict []]) "failed_checks" = some (.list vs) := by
    rw [field_of_lookup hresults]
    cases results with
    | nil => cases hfailed
    | cons e results => exact congrArg some (field_of_lookup hfailed)
  have hrun := hgs
  rw [envelopeFindings, hattr, Option.bind_eq_bind, Option.bind_some, items_firstOf rfl,
    Option.bind_eq_bind, Option.bind_some] at hrun
  exact (mem_findingsOf hrun).mpr ⟨item, hmem, hfinding⟩

/-- The vulnerabilities of a report are all found. -/
theorem mem_parseAudit {data : Value} {fs : List Finding} (h : parseAudit py data = some fs)
    {f : Finding} (hf : Contains py .pipAudit data f) : f ∈ fs := by
  obtain ⟨dep, vuln, ⟨deps, hdeps, hdep, vs, hvulns, hvuln⟩, hfinding⟩ := hf
  have hall : ((deps.filterMap dict?).mapM (dependencyFindings py)).map List.flatten = some fs := by
    rcases hdeps with rfl | ⟨es, rfl, hlookup⟩
    · exact h
    · rw [parseAudit, field_of_lookup hlookup, items_firstOf rfl] at h
      exact h
  obtain ⟨gss, hgss, rfl⟩ := Option.map_eq_some_iff.mp hall
  obtain ⟨gs, hgs⟩ := exists_mapM_iff.mp ⟨gss, hgss⟩ dep (mem_dicts.mpr hdep)
  refine (mem_flatten hall).mpr ⟨dep, gs, hdep, hgs, ?_⟩
  have hrun := hgs
  rw [dependencyFindings, field_of_lookup hvulns, items_firstOf rfl, Option.bind_eq_bind,
    Option.bind_some] at hrun
  exact (mem_findingsOf hrun).mpr ⟨vuln, hvuln, hfinding⟩

/-- Findings under `results` are passed over where there is something under `issues`. -/
def Shadowed (py : Python) (data : Value) (f : Finding) : Prop :=
  ∃ es vs item, data = .dict es ∧ (field es "issues").truth = true ∧
    es.lookup "results" = some (.list vs) ∧ .dict item ∈ vs ∧ lintFinding py item = some f

/-- The issues of a report are all found, but for those that are shadowed. -/
theorem mem_parseLint {data : Value} {fs : List Finding} (h : parseLint py data = some fs) {f : Finding}
    (hf : Contains py .ansibleLint data f) : f ∈ fs ∨ Shadowed py data f := by
  obtain ⟨item, ⟨vs, rfl, hmem⟩ | ⟨es, key, vs, rfl, hkey, hlookup, hmem⟩, hfinding⟩ := hf
  · exact .inl ((mem_findingsOf h).mpr ⟨item, hmem, hfinding⟩)
  · have hne : (Value.list vs).truth = true := by
      cases vs with
      | nil => cases hmem
      | cons v vs => rfl
    rcases List.mem_pair.mp hkey with rfl | rfl
    · refine .inl ?_
      rw [parseLint, field_of_lookup hlookup, firstOf_cons, if_pos hne, items, Option.bind_eq_bind,
        Option.bind_some] at h
      exact (mem_findingsOf h).mpr ⟨item, hmem, hfinding⟩
    · by_cases hissues : (field es "issues").truth = true
      · exact .inr ⟨es, vs, item, rfl, hissues, hlookup, hmem, hfinding⟩
      · refine .inl ?_
        rw [parseLint, firstOf_cons, if_neg hissues, field_of_lookup hlookup, items_firstOf rfl,
          Option.bind_eq_bind, Option.bind_some] at h
        exact (mem_findingsOf h).mpr ⟨item, hmem, hfinding⟩

end Contains

end Forail.Scanning
