import Forail.Scanning.Runner

/-! When a scanner that has not produced a report does not count as clean: an output that is empty or is
not JSON comes with the return code zero, and no list of findings is shadowed by another one. -/

namespace Forail.Scanning

namespace Environment
variable (env : Environment) (l : Launch) (s : Scanner) (tool : Tool)

/-- The run of a scanner has no report. -/
def Failed : Prop :=
  match env.subprocess s with
  | .completed stdout _ returncode =>
    (returncode ≠ 0 ∧ (stdout = [] ∨ Json.loads env.python.readFloat stdout = none)) ∨
      parseOutput env.python tool stdout = none
  | _ => True

/-- The scanner is unavailable, and the fail mode decides. -/
structure Unavailable (o : Outcome) : Prop where
  status : o.result.status = .error ∨ o.result.status = .timeout
  failMode : o.allowed = decide (env.failMode = "allow")

/-- The findings of the report that reach the threshold are kept, and block where they shall. -/
structure Reported (o : Outcome) : Prop where
  status : o.result.status ≠ .error ∧ o.result.status ≠ .timeout
  kept : ∀ stdout stderr returncode data, env.subprocess s = .completed stdout stderr returncode →
    Json.loads env.python.readFloat stdout = some data → ∀ f, Contains env.python tool data f →
    severityAtOrAbove env.python.lower f.severity s.severityThreshold = true →
    f ∈ o.result.findings ∧ (s.enforcement = "enforce" → o.allowed = false)

/-- The run of a scanner counts as a report or as unavailable, and it counts for the launch. -/
structure Accounted : Prop where
  unavailable : env.Failed s tool → env.Unavailable (env.runScanner l s tool)
  outcome : env.Unavailable (env.runScanner l s tool) ∨ env.Reported s tool (env.runScanner l s tool)
  stored : (env.runScanner l s tool).result ∈ (env.runScannersForLaunch l).results
  blocks : (env.runScanner l s tool).allowed = false → (env.runScannersForLaunch l).allowed = false

/-- No output without a report comes with an error, and no finding is shadowed by the issues of a report
that do not have it. -/
structure Clear : Prop where
  returncode : ∀ stdout stderr returncode, env.subprocess s = .completed stdout stderr returncode →
    stdout = [] ∨ env.python.tooDeep stdout = false ∧ Json.loads env.python.readFloat stdout = none →
    returncode = 0
  shadowed : ∀ stdout stderr returncode data, env.subprocess s = .completed stdout stderr returncode →
    Json.loads env.python.readFloat stdout = some data → tool = .ansibleLint →
    parseOutput env.python tool stdout ≠ none → ∀ f, Shadowed env.python data f →
    severityAtOrAbove env.python.lower f.severity s.severityThreshold = true →
    ∃ es issues item, data = .dict es ∧ es.lookup "issues" = some (.list issues) ∧ .dict item ∈ issues ∧
      lintFinding env.python item = some f

variable {env l s tool}

theorem loads_nil (readFloat : Str → Value) : Json.loads readFloat [] = none := rfl

theorem parseOutput_of_loads {py : Python} {stdout : Str} {data : Value} {fs : List Finding}
    (hdata : Json.loads py.readFloat stdout = some data) (h : parseOutput py tool stdout = some fs) :
    parseData py tool data = some fs := by
  have hne : stdout ≠ [] := by
    rintro rfl
    rw [loads_nil] at hdata
    cases hdata
  rw [parseOutput, if_neg hne, hdata] at h
  exact (Option.ite_none_left_eq_some.mp h).2

theorem mem_kept {fs : List Finding} {f : Finding} : f ∈ env.kept s fs ↔
    f ∈ fs ∧ severityAtOrAbove env.python.lower f.severity s.severityThreshold = true :=
  List.mem_filter

/-- A report that has kept a finding blocks where it shall. -/
theorem report_blocks {stdout : Str} {fs : List Finding} {f : Finding} (hf : f ∈ env.kept s fs)
    (henforce : s.enforcement = "enforce") : (env.report l s stdout fs).allowed = false := by
  have hne : (env.kept s fs).isEmpty = false := List.isEmpty_eq_false_iff.mpr (List.ne_nil_of_mem hf)
  have hblocked : aggregateStatus env.python.lower ((env.kept s fs).map Finding.severity)
      s.severityThreshold = .blocked := by
    rw [aggregateStatus, List.isEmpty_map, hne, if_neg (by simp), if_pos]
    exact List.any_eq_true.mpr ⟨f.severity, List.mem_map_of_mem hf, (mem_kept.mp hf).2⟩
  have hstatus : env.reportStatus s (env.kept s fs) = .blocked := by
    rw [reportStatus, hne, if_neg (by simp), if_pos ⟨hblocked, by rw [effectiveEnforcement, henforce]; rfl⟩]
  simp [report, hstatus]

theorem report_status (s : Scanner) (fs : List Finding) :
    env.reportStatus s fs ≠ .error ∧ env.reportStatus s fs ≠ .timeout := by
  unfold reportStatus
  split_ifs <;> exact ⟨nofun, nofun⟩

theorem unavailable_of_error {status : Status} {stdout stderr : Str}
    (h : env.runSubprocess s tool = .error (status, stdout, stderr)) :
    env.Unavailable (env.runScanner l s tool) := by
  have hstatus : status = .error ∨ status = .timeout := by
    unfold runSubprocess at h
    split at h
    · split at h
      · cases h
      · cases h
        exact .inl rfl
    · cases h
      exact .inr rfl
    · cases h
      exact .inl rfl
    · cases h
      exact .inl rfl
  rw [runScanner, h]
  refine ⟨hstatus, ?_⟩
  by_cases hmode : env.failMode = "allow" <;> simp [unavailable, failModeDecision, hmode]

theorem runSubprocess_ok {stdout : Str} {fs : List Finding} :
    env.runSubprocess s tool = .ok (stdout, fs) ↔ ∃ stderr returncode,
      env.subprocess s = .completed stdout stderr returncode ∧
        parseOutput env.python tool stdout = some fs := by
  unfold runSubprocess
  constructor
  · intro h
    split at h
    case h_1 stdout' stderr returncode hrun =>
      split at h
      case h_1 fs' hparse =>
        cases h
        exact ⟨stderr, returncode, hrun, hparse⟩
      case h_2 => cases h
    case h_2 => cases h
    case h_3 => cases h
    case h_4 => cases h
  · rintro ⟨stderr, returncode, hrun, hparse⟩
    simp only [hrun, hparse]

/-- What a report keeps, if nothing is shadowed. -/
theorem mem_of_contains {stdout stderr : Str} {returncode : ℤ} {data : Value} {fs : List Finding}
    (hrun : env.subprocess s = .completed stdout stderr returncode)
    (hdata : Json.loads env.python.readFloat stdout = some data)
    (hparse : parseOutput env.python tool stdout = some fs) (h : env.Clear s tool) {f : Finding}
    (hf : Contains env.python tool data f)
    (hsev : severityAtOrAbove env.python.lower f.severity s.severityThreshold = true) : f ∈ fs := by
  have hfs := parseOutput_of_loads hdata hparse
  cases tool with
  | checkov => exact mem_parseCheckov hfs hf
  | pipAudit => exact mem_parseAudit hfs hf
  | ansibleLint =>
    refine (mem_parseLint hfs hf).elim id fun hshadowed => ?_
    obtain ⟨es, issues, item, rfl, hissues, hitem, hfinding⟩ := h.shadowed stdout stderr returncode data
      hrun hdata rfl (by rw [hparse]; exact Option.some_ne_none fs) f hshadowed hsev
    have hcontains : Contains env.python .ansibleLint (.dict es) f :=
      ⟨item, .inr ⟨es, "issues", issues, rfl, List.mem_cons_self, hissues, hitem⟩, hfinding⟩
    have htruth : (Value.list issues).truth = true := by
      cases issues with
      | nil => cases hitem
      | cons v vs => rfl
    change parseLint env.python (.dict es) = some fs at hfs
    rw [parseLint, field_of_lookup hissues, firstOf_cons, if_pos htruth, items, Option.bind_eq_bind,
      Option.bind_some] at hfs
    exact (mem_findingsOf hfs).mpr ⟨item, hitem, hfinding⟩

/-- A shadowed finding that is kept is one of the issues. -/
theorem issue_of_mem {py : Python} {data : Value} {fs : List Finding} (hfs : parseLint py data = some fs)
    {f : Finding} (hf : f ∈ fs) (hshadowed : Shadowed py data f) :
    ∃ es issues item, data = .dict es ∧ es.lookup "issues" = some (.list issues) ∧ .dict item ∈ issues ∧
      lintFinding py item = some f := by
  obtain ⟨es, -, -, rfl, htruth, -⟩ := hshadowed
  rw [parseLint, firstOf_cons, if_pos htruth] at hfs
  obtain ⟨vs, hvs, hfindings⟩ := Option.bind_eq_some_iff.mp hfs
  obtain ⟨item, hitem, hfinding⟩ := (mem_findingsOf hfindings).mp hf
  have hlist : field es "issues" = .list vs := by
    cases hfield : field es "issues" with
    | list ws =>
      rw [hfield] at hvs
      cases hvs
      rfl
    | dict ds =>
      rw [hfield] at hvs
      cases hvs
      simp at hitem
    | str t =>
      rw [hfield] at hvs
      cases hvs
      simp at hitem
    | null => rw [hfield] at hvs; cases hvs
    | bool b => rw [hfield] at hvs; cases hvs
    | int n => rw [hfield] at hvs; cases hvs
    | float repr number => rw [hfield] at hvs; cases hvs
  refine ⟨es, vs, item, rfl, ?_, hitem, hfinding⟩
  rw [field] at hlist
  cases hlookup : es.lookup "issues" with
  | none => rw [hlookup] at hlist; cases hlist
  | some v => rw [hlookup] at hlist; exact congrArg some hlist

theorem accounted_of_clear (hmem : (s, tool) ∈ env.launched l) (h : env.Clear s tool) :
    env.Accounted l s tool := by
  obtain ⟨hresults, hallowed⟩ := foldl_addOutcome
    ((env.launched l).map fun p => env.runScanner l p.1 p.2) ⟨true, [], [], [], []⟩
  have hrun : env.runScanner l s tool ∈ (env.launched l).map fun p => env.runScanner l p.1 p.2 :=
    List.mem_map_of_mem (f := fun p : Scanner × Tool => env.runScanner l p.1 p.2) hmem
  have hstored : (env.runScanner l s tool).result ∈ (env.runScannersForLaunch l).results := by
    rw [runScannersForLaunch, hresults]
    exact List.mem_append_right _ (List.mem_map_of_mem hrun)
  have hblocks : (env.runScanner l s tool).allowed = false →
      (env.runScannersForLaunch l).allowed = false := by
    intro hfalse
    rw [runScannersForLaunch, hallowed, Bool.true_and]
    exact List.all_eq_false.mpr ⟨_, hrun, by rw [hfalse]; nofun⟩
  cases hsub : env.runSubprocess s tool with
  | error e =>
    have hun := unavailable_of_error (l := l) hsub
    exact ⟨fun _ => hun, .inl hun, hstored, hblocks⟩
  | ok r =>
    obtain ⟨stdout, fs⟩ := r
    obtain ⟨stderr, returncode, hproc, hparse⟩ := runSubprocess_ok.mp hsub
    refine ⟨fun hfailed => ?_, .inr ?_, hstored, hblocks⟩
    · rw [Failed, hproc] at hfailed
      rcases hfailed with ⟨hcode, hempty⟩ | hnone
      · refine absurd (h.returncode stdout stderr returncode hproc ?_) hcode
        by_cases hnil : stdout = []
        · exact .inl hnil
        · refine .inr ⟨?_, hempty.resolve_left hnil⟩
          rw [parseOutput, if_neg hnil] at hparse
          exact Bool.eq_false_iff.mpr (Option.ite_none_left_eq_some.mp hparse).1
      · rw [hparse] at hnone
        cases hnone
    · rw [runScanner, hsub]
      refine ⟨report_status s _, fun stdout' stderr' returncode' data hproc' hdata f hf hsev => ?_⟩
      rw [hproc] at hproc'
      cases hproc'
      have hkept := mem_kept.mpr ⟨mem_of_contains hproc hdata hparse h hf hsev, hsev⟩
      exact ⟨hkept, report_blocks hkept⟩

theorem clear_of_accounted (h : env.Accounted l s tool) : env.Clear s tool := by
  have hreported : ∀ {stdout stderr returncode fs}, env.subprocess s = .completed stdout stderr returncode →
      parseOutput env.python tool stdout = some fs →
      env.runScanner l s tool = env.report l s stdout fs ∧ ¬ env.Unavailable (env.runScanner l s tool) := by
    intro stdout stderr returncode fs hproc hparse
    have hrun : env.runScanner l s tool = env.report l s stdout fs := by
      rw [runScanner, runSubprocess_ok.mpr ⟨stderr, returncode, hproc, hparse⟩]
    refine ⟨hrun, fun hun => ?_⟩
    rw [hrun] at hun
    exact hun.status.elim (report_status s _).1 (report_status s _).2
  constructor
  · intro stdout stderr returncode hproc hno
    by_contra hcode
    have hparse : parseOutput env.python tool stdout = some [] := by
      unfold parseOutput
      rcases hno with rfl | ⟨hdeep, hnone⟩
      · rfl
      · rw [hdeep, hnone, if_neg (nofun : ¬ false = true), ite_self]
    refine (hreported hproc hparse).2 (h.unavailable ?_)
    rw [Failed, hproc]
    refine .inl ⟨hcode, ?_⟩
    exact hno.imp_right And.right
  · rintro stdout stderr returncode data hproc hdata rfl hparse f hshadowed hsev
    obtain ⟨fs, hfs⟩ := Option.ne_none_iff_exists'.mp hparse
    obtain ⟨hrun, hnot⟩ := hreported hproc hfs
    have hcontains : Contains env.python .ansibleLint data f := by
      obtain ⟨es, vs, item, rfl, -, hlookup, hitem, hfinding⟩ := hshadowed
      exact ⟨item, .inr ⟨es, "results", vs, rfl, by simp, hlookup, hitem⟩, hfinding⟩
    have hkept := ((h.outcome.resolve_left hnot).kept stdout stderr returncode data hproc hdata f hcontains
      hsev).1
    rw [hrun] at hkept
    exact issue_of_mem (parseOutput_of_loads hdata hfs) (mem_kept.mp hkept).1 hshadowed

end Environment

/-! A scanner that crashes without an output. -/

def lab : Environment where
  python := ⟨fun s => s, fun s => s, fun _ => .null, fun _ => false, fun _ => some none⟩
  scannerEnabled := true
  timeoutS := 120
  failMode := "deny"
  rawMax := 8192
  scanners := [⟨1, "lint", none, "ansible-lint", "info", "enforce", true, [], 0⟩]
  subprocess _ := .completed [] "Traceback".toList 1

def labLaunch : Launch := ⟨"Job", 7, none, none, none, none, some "/p".toList, "site.yml".toList⟩

end Forail.Scanning
