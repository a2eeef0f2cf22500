import Forail.Models.SurveyLaunch

/-! A launch without errors gives valid variables to the job. Validation and assembly are related question
by question: the loops of both only touch the variable of the question they are at. -/

namespace Forail.Survey

/-! ### One answer -/

open Platform

theorem boundErrors_eq_nil {bound : Option ℤ} {fails : ℤ → Bool} {error : ℤ → SurveyError} :
    boundErrors bound fails error = [] ↔ ∀ b ∈ bound, fails b = false := by
  cases bound with
  | none => simp [boundErrors]
  | some b => simp [boundErrors]

theorem floatBoundErrors_eq_nil {bound : Option ℤ} {fails : ℚ → Bool} {error : ℤ → SurveyError} :
    floatBoundErrors bound fails error = some [] ↔
      ∀ b ∈ bound, ∃ x, floatOf b = some x ∧ fails x = false := by
  cases bound with
  | none => simp [floatBoundErrors]
  | some b => cases hfloat : floatOf b <;> simp [floatBoundErrors, hfloat]

variable {ν : Type} {platform : Platform ν} {q : Question} {v : Value}

theorem textErrors_eq_nil : textErrors q v = [] ↔ IsText q v := by
  cases v with
  | str s => simp [textErrors, IsText, boundErrors_eq_nil]
  | null | bool | int | float | list | dict => simp [textErrors, IsText]

theorem integerErrors_eq_nil : integerErrors q v = [] ↔ IsInteger q v := by
  cases v with
  | int n => simp [integerErrors, IsInteger, boundErrors_eq_nil]
  | null | bool | str | float | list | dict => simp [integerErrors, IsInteger]

theorem floatOf_eq_some {n : ℤ} {x : ℚ} (h : floatOf n = some x) : x = Binary64.float64 n := by
  rw [floatOf] at h
  split_ifs at h
  exact (Option.some.inj h).symm

/-- Every comparison with `nan` is false, so that it passes both bounds. -/
theorem isFloat_of_floatErrors (h : platform.floatErrors q v = some [])
    (hnan : numeric? v = some none → q.min = none ∧ q.max = none) : platform.IsFloat q v := by
  rw [Platform.floatErrors] at h
  cases hv : numeric? v with
  | none => simp [hv] at h
  | some x =>
    simp only [hv, Option.bind_eq_bind, Option.bind_eq_some_iff, Option.some.injEq,
      List.append_eq_nil_iff] at h
    obtain ⟨small, hsmall, large, hlarge, rfl, rfl⟩ := h
    rw [floatBoundErrors_eq_nil] at hsmall hlarge
    refine ⟨x, hv, ?_⟩
    cases x with
    | none =>
      obtain ⟨hmin, hmax⟩ := hnan hv
      simp [hmin, hmax]
    | some n =>
      constructor
      · intro b hb
        obtain ⟨x, hx, hfails⟩ := hsmall b hb
        rw [← floatOf_eq_some hx]
        exact ⟨n, rfl, by simpa using hfails⟩
      · intro b hb
        obtain ⟨x, hx, hfails⟩ := hlarge b hb
        rw [← floatOf_eq_some hx]
        exact ⟨n, rfl, by simpa using hfails⟩

theorem any_eq_true_iff : (platform.choiceList q).any v.eq = true ↔ platform.IsChoice q v := by
  simp [IsChoice]

theorem multiselectErrors_eq_nil (hstatic : q.dynamicChoices = false) :
    platform.multiselectErrors q v = [] ↔ ∃ vs, v = .list vs ∧ ∀ v ∈ vs, platform.IsChoice q v := by
  cases v with
  | list vs => simp [multiselectErrors, hstatic, IsChoice]
  | null | bool | int | float | str | dict => simp [multiselectErrors]

theorem multiplechoiceErrors_eq_nil (hstatic : q.dynamicChoices = false) :
    platform.multiplechoiceErrors q v = [] ↔ platform.IsChoice q v := by
  rw [multiplechoiceErrors, if_neg (by simp [hstatic]), ← any_eq_true_iff]
  split_ifs with h <;> simp [h]

theorem satisfies_of_valueErrors (hstatic : q.dynamicChoices = false)
    (h : platform.valueErrors q v = some []) (hnan : ¬ NanBounded q v) : platform.Satisfies q v := by
  unfold valueErrors at h
  unfold Satisfies
  cases htype : q.type with
  | text | textarea | password =>
    simp only [htype, Option.some.injEq] at h ⊢
    exact textErrors_eq_nil.mp h
  | integer =>
    simp only [htype, Option.some.injEq] at h ⊢
    exact integerErrors_eq_nil.mp h
  | float =>
    simp only [htype] at h ⊢
    refine isFloat_of_floatErrors h fun hv => ?_
    have hbounds : ¬ (q.min.isSome ∨ q.max.isSome) := fun hsome => hnan ⟨htype, hv, hsome⟩
    simpa using hbounds
  | multiselect =>
    simp only [htype, Option.some.injEq] at h ⊢
    exact (multiselectErrors_eq_nil hstatic).mp h
  | multiplechoice =>
    simp only [htype, Option.some.injEq] at h ⊢
    exact (multiplechoiceErrors_eq_nil hstatic).mp h

theorem valueErrors_password (htype : q.type = .password) :
    platform.valueErrors q v = some [] ↔ platform.Satisfies q v := by
  unfold valueErrors Satisfies
  simp only [htype, Option.some.injEq]
  exact textErrors_eq_nil

theorem not_satisfies_of_nan (h : NanBounded q v) : ¬ platform.Satisfies q v := by
  obtain ⟨htype, hv, hbounds⟩ := h
  unfold Satisfies
  simp only [htype]
  rintro ⟨x, hx, hmin, hmax⟩
  cases hv.symm.trans hx
  rcases hbounds with hsome | hsome
  · obtain ⟨b, hb⟩ := Option.isSome_iff_exists.mp hsome
    obtain ⟨n, hn, -⟩ := hmin b hb
    cases hn
  · obtain ⟨b, hb⟩ := Option.isSome_iff_exists.mp hsome
    obtain ⟨n, hn, -⟩ := hmax b hb
    cases hn

/-! ### The variables that are accepted -/

variable {t : Template} {launch : Launch}

theorem sortElement_spec {s s' : Sorting} (h : platform.sortElement launch s q = some s')
    (hnone : s'.surveyErrors = []) :
    s.surveyErrors = [] ∧ platform.elementErrors launch q = some [] ∧ s'.rejected = s.rejected ∧
      (∀ k, s'.extraVars.get? k = if k = q.variableName then none else s.extraVars.get? k) ∧
      ∀ k, s'.accepted.get? k =
        if k = q.variableName then (s.extraVars.get? k).or (s.accepted.get? k) else s.accepted.get? k := by
  rw [sortElement, Option.bind_eq_bind, Option.bind_eq_some_iff] at h
  obtain ⟨errors, herrors, h⟩ := h
  cases hvalue : s.extraVars.get? q.variableName with
  | none =>
    simp only [hvalue, Option.some.injEq] at h
    subst h
    obtain ⟨hbefore, rfl⟩ := List.append_eq_nil_iff.mp hnone
    refine ⟨hbefore, herrors, rfl, fun k => ?_, fun k => ?_⟩
    · split_ifs with hk
      · rw [hk, hvalue]
      · rfl
    · split_ifs with hk
      · rw [hk, hvalue, Option.none_or]
      · rfl
  | some value =>
    have hboth : s.surveyErrors = [] ∧ errors = [] := by
      rw [← List.append_eq_nil_iff, ← hnone]
      cases herr : errors.isEmpty with
      | true =>
        simp only [hvalue, herr, if_true, Option.some.injEq] at h
        rw [← h]
      | false =>
        simp only [hvalue, herr, if_neg Bool.false_ne_true, Option.some.injEq] at h
        rw [← h]
    obtain ⟨hbefore, rfl⟩ := hboth
    simp only [hvalue, List.isEmpty_nil, if_true, Option.some.injEq] at h
    subst h
    refine ⟨hbefore, herrors, rfl, fun k => Dict.get?_erase _ _ _, fun k => ?_⟩
    rw [Dict.get?_set]
    split_ifs with hk
    · rw [hk, hvalue, Option.some_or]
    · rfl

theorem sortElements_spec {qs : List Question} {s s' : Sorting}
    (h : qs.foldlM (platform.sortElement launch) s = some s') (hnone : s'.surveyErrors = []) :
    s.surveyErrors = [] ∧ (∀ q ∈ qs, platform.elementErrors launch q = some []) ∧
      s'.rejected = s.rejected ∧
      (∀ k, s'.extraVars.get? k =
        if k ∈ qs.map Question.variableName then none else s.extraVars.get? k) ∧
      ∀ k, s'.accepted.get? k = if k ∈ qs.map Question.variableName then
        (s.extraVars.get? k).or (s.accepted.get? k) else s.accepted.get? k := by
  induction qs generalizing s with
  | nil =>
    obtain rfl := Option.some.inj h
    exact ⟨hnone, fun q hq => absurd hq List.not_mem_nil, rfl, fun k => rfl, fun k => rfl⟩
  | cons q qs ih =>
    rw [List.foldlM_cons, Option.bind_eq_bind, Option.bind_eq_some_iff] at h
    obtain ⟨s₁, hstep, hrest⟩ := h
    obtain ⟨hbefore, herrors, hrejected, hextra, haccepted⟩ := ih hrest
    obtain ⟨hfirst, herror, hrejected₁, hextra₁, haccepted₁⟩ := sortElement_spec hstep hbefore
    refine ⟨hfirst, ?_, hrejected.trans hrejected₁, fun k => ?_, fun k => ?_⟩
    · intro q' hq'
      rcases List.mem_cons.mp hq' with rfl | hq'
      · exact herror
      · exact herrors q' hq'
    · rw [hextra, hextra₁, List.map_cons]
      by_cases hk : k = q.variableName <;> simp [hk]
    · rw [haccepted, haccepted₁, hextra₁, List.map_cons]
      by_cases hk : k = q.variableName <;> simp [hk]

/-- Every variable of the launch is accepted or rejected and not both, except those that have the
template's own value; nothing else is. -/
structure Sorted (t : Template) (launch : Launch) (accepted rejected : Dict String Value) : Prop where
  disjoint : ∀ k ∈ accepted.keys, k ∉ rejected.keys
  of_accepted : ∀ k v, accepted.get? k = some v → launch.data.get? k = some v
  of_rejected : ∀ k v, rejected.get? k = some v → launch.data.get? k = some v
  all : ∀ k v, launch.data.get? k = some v → accepted.get? k = some v ∨ rejected.get? k = some v ∨
    ∃ own, t.extraVarsDict.get? k = some own ∧ own.eq v = true

theorem mem_prune_iff {extraVars : Dict String Value} {k : String} :
    (prune t extraVars).get? k = some v ↔ extraVars.get? k = some v ∧
      ∀ own, t.extraVarsDict.get? k = some own → own.eq v = false := by
  rw [prune, Dict.get?_filter]
  cases hown : t.extraVarsDict.get? k with
  | none => simp
  | some own =>
    cases hvalue : extraVars.get? k with
    | none => simp
    | some value =>
      constructor
      · intro h
        dsimp only at h
        split_ifs at h with heq
        cases h
        refine ⟨rfl, fun own' hown' => ?_⟩
        obtain rfl := Option.some.inj hown'
        exact Bool.not_eq_true' _ ▸ heq
      · rintro ⟨hv, hne⟩
        obtain rfl := Option.some.inj hv
        exact if_pos ((Bool.not_eq_true' _).mpr (hne own rfl))

theorem accept_spec {accepted rejected : Dict String Value}
    (h : platform.acceptOrIgnoreVariables t launch = some ⟨accepted, rejected, ⟨[], []⟩⟩) :
    (∀ q ∈ t.questions, platform.elementErrors launch q = some []) ∧
      (∀ q ∈ t.questions, accepted.get? q.variableName = launch.data.get? q.variableName) ∧
      Sorted t launch accepted rejected := by
  rw [acceptOrIgnoreVariables, Option.bind_eq_bind, Option.bind_eq_some_iff] at h
  obtain ⟨s, hrun, h⟩ := h
  by_cases hask : t.askVariablesOnLaunch = true
  · rw [if_pos hask, Option.some.injEq, Answer.mk.injEq, LaunchErrors.mk.injEq] at h
    obtain ⟨rfl, rfl, hnone, -⟩ := h
    obtain ⟨-, herrors, hrejected, hextra, haccepted⟩ := sortElements_spec hrun hnone
    have hall : ∀ k, (s.accepted.update s.extraVars.entries).get? k = launch.data.get? k := by
      intro k
      rw [Dict.get?_update, hextra, haccepted]
      split_ifs <;> simp
    refine ⟨herrors, fun q _ => hall _, ⟨?_, ?_, ?_, ?_⟩⟩
    · intro k _ hk
      rw [hrejected] at hk
      cases hk
    · intro k v hv
      rw [← hall, hv]
    · intro k v hv
      rw [hrejected] at hv
      cases hv
    · intro k v hv
      rw [← hall] at hv
      exact .inl hv
  · rw [if_neg hask, Option.some.injEq, Answer.mk.injEq, LaunchErrors.mk.injEq] at h
    obtain ⟨rfl, rfl, hnone, -⟩ := h
    obtain ⟨-, herrors, hrejected, hextra, haccepted⟩ := sortElements_spec hrun hnone
    have hrest : ∀ k v, (s.rejected.update (prune t s.extraVars).entries).get? k = some v ↔
        k ∉ t.questions.map Question.variableName ∧ launch.data.get? k = some v ∧
          ∀ own, t.extraVarsDict.get? k = some own → own.eq v = false := by
      intro k v
      rw [Dict.get?_update, hrejected, Dict.get?_empty, Option.or_none, mem_prune_iff, hextra]
      split_ifs with hk <;> simp [hk]
    simp only [Dict.get?_empty, Option.or_none] at haccepted
    refine ⟨herrors, fun q hq => ?_, ⟨?_, ?_, ?_, ?_⟩⟩
    · rw [haccepted, if_pos (List.mem_map_of_mem hq)]
    · intro k hk hk'
      obtain ⟨v, hv⟩ := Dict.get?_of_mem_keys hk
      obtain ⟨v', hv'⟩ := Dict.get?_of_mem_keys hk'
      rw [haccepted, if_neg ((hrest k v').mp hv').1] at hv
      cases hv
    · intro k v hv
      rw [haccepted] at hv
      split_ifs at hv
      exact hv
    · exact fun k v hv => ((hrest k v).mp hv).2.1
    · intro k v hv
      by_cases hk : k ∈ t.questions.map Question.variableName
      · exact .inl (by rw [haccepted, if_pos hk, hv])
      · by_cases hown : ∀ own, t.extraVarsDict.get? k = some own → own.eq v = false
        · exact .inr (.inl ((hrest k v).mpr ⟨hk, hv, hown⟩))
        · simp only [not_forall, Bool.not_eq_false] at hown
          obtain ⟨own, hget, heq⟩ := hown
          exact .inr (.inr ⟨own, hget, heq⟩)

/-! ### The variables of the job -/

/-- The answer is not the placeholder of a password. -/
def Question.keeps (q : Question) (v : Value) : Bool := !(decide (q.type = .password) && isPlaceholder v)

theorem surveyDefault_eq_some_iff {d : Value} : platform.surveyDefault q = some (some d) ↔
    q.default = some d ∧ ∃ w, platform.decryptedDefault q d = some w ∧
      platform.surveyElementValidation q (Dict.empty.set q.variableName w) true = some [] := by
  rw [surveyDefault]
  cases q.default with
  | none => simp
  | some d' =>
    simp only [Option.bind_eq_bind, Option.bind_eq_some_iff, Option.some.injEq]
    constructor
    · rintro ⟨w, hw, errors, herrors, hd⟩
      split_ifs at hd with hempty
      obtain rfl := Option.some.inj hd
      obtain rfl := List.isEmpty_iff.mp hempty
      exact ⟨rfl, w, hw, herrors⟩
    · rintro ⟨rfl, w, hw, herrors⟩
      exact ⟨w, hw, [], herrors, rfl⟩

theorem surveyDefault_isSome_iff : (∃ u, platform.surveyDefault q = some u) ↔
    ∀ d ∈ q.default, ∃ w errors, platform.decryptedDefault q d = some w ∧
      platform.surveyElementValidation q (Dict.empty.set q.variableName w) true = some errors := by
  rw [surveyDefault]
  cases q.default with
  | none => simp
  | some d =>
    simp only [Option.bind_eq_bind, Option.bind_eq_some_iff, Option.mem_def, Option.some.injEq, forall_eq']
    constructor
    · rintro ⟨u, w, hw, errors, herrors, -⟩
      exact ⟨w, errors, hw, herrors⟩
    · rintro ⟨w, errors, hw, herrors⟩
      exact ⟨_, w, hw, errors, herrors, rfl⟩

/-- One question changes its own variable only. -/
theorem updateElement_spec {s s' : Dict String Value × Dict String Value}
    (h : platform.updateElement s q = some s') : ∃ d, platform.surveyDefault q = some d ∧
      (∀ k, s'.1.get? k = if k = q.variableName then (s.1.get? k).filter q.keeps else s.1.get? k) ∧
      ∀ k, s'.2.get? k = if k = q.variableName then d.or (s.2.get? k) else s.2.get? k := by
  rw [updateElement, Option.bind_eq_bind, Option.bind_eq_some_iff] at h
  obtain ⟨d, hd, h⟩ := h
  obtain rfl := Option.some.inj h
  refine ⟨d, hd, fun k => ?_, fun k => ?_⟩
  · by_cases hpop : q.type = .password ∧ (s.1.get? q.variableName).any isPlaceholder = true
    · obtain ⟨v, hv, hplaceholder⟩ := (Option.any_eq_true _ _).mp hpop.2
      have hkeeps : q.keeps v = false := by simp [Question.keeps, hpop.1, hplaceholder]
      simp only [if_pos hpop, Dict.get?_erase]
      split_ifs with hk
      · rw [hk, hv, Option.filter_some, if_neg (by simp [hkeeps])]
      · rfl
    · simp only [if_neg hpop]
      split_ifs with hk
      · rw [hk]
        cases hv : s.1.get? q.variableName with
        | none => rfl
        | some v =>
          have hkeeps : q.keeps v = true := by
            simpa [Question.keeps, hv, imp_iff_not_or] using hpop
          rw [Option.filter_some, if_pos hkeeps]
      · rfl
  · cases d with
    | none =>
      rw [Option.none_or, ite_self]
      rfl
    | some d => exact Dict.get?_set _ _ _ _

/-- A loop that ends has found out about every default. -/
theorem updateElements_spec {qs : List Question} (hdistinct : (qs.map Question.variableName).Nodup)
    {s s' : Dict String Value × Dict String Value} (h : qs.foldlM platform.updateElement s = some s') :
    (∀ q ∈ qs, s'.1.get? q.variableName = (s.1.get? q.variableName).filter q.keeps ∧
      ∃ d, platform.surveyDefault q = some d ∧ s'.2.get? q.variableName = d.or (s.2.get? q.variableName)) ∧
    ∀ k, k ∉ qs.map Question.variableName → s'.1.get? k = s.1.get? k ∧ s'.2.get? k = s.2.get? k := by
  induction qs generalizing s with
  | nil =>
    obtain rfl := Option.some.inj h
    exact ⟨fun q hq => absurd hq List.not_mem_nil, fun k _ => ⟨rfl, rfl⟩⟩
  | cons q qs ih =>
    rw [List.foldlM_cons, Option.bind_eq_bind, Option.bind_eq_some_iff] at h
    obtain ⟨s₁, hstep, hrest⟩ := h
    rw [List.map_cons, List.nodup_cons] at hdistinct
    obtain ⟨hfirst, hdistinct⟩ := hdistinct
    obtain ⟨d, hd, hruntime, hdefaults⟩ := updateElement_spec hstep
    obtain ⟨hmem, hother⟩ := ih hdistinct hrest
    constructor
    · intro q' hq'
      rcases List.mem_cons.mp hq' with rfl | hq'
      · obtain ⟨hsame, hsame'⟩ := hother _ hfirst
        rw [hsame, hsame', hruntime, hdefaults, if_pos rfl, if_pos rfl]
        exact ⟨rfl, d, hd, rfl⟩
      · have hne : q'.variableName ≠ q.variableName := fun heq =>
          hfirst (heq ▸ List.mem_map_of_mem hq')
        have hown := hmem q' hq'
        rw [hruntime, hdefaults, if_neg hne, if_neg hne] at hown
        exact hown
    · intro k hk
      obtain ⟨hne, hk⟩ := List.ne_and_not_mem_of_not_mem_cons hk
      obtain ⟨hsame, hsame'⟩ := hother k hk
      rw [hsame, hsame', hruntime, hdefaults, if_neg hne, if_neg hne]
      exact ⟨rfl, rfl⟩

theorem exists_updateElements {qs : List Question} (h : ∀ q ∈ qs, ∃ d, platform.surveyDefault q = some d)
    (s : Dict String Value × Dict String Value) : ∃ s', qs.foldlM platform.updateElement s = some s' := by
  induction qs generalizing s with
  | nil => exact ⟨s, rfl⟩
  | cons q qs ih =>
    obtain ⟨d, hd⟩ := h q List.mem_cons_self
    have hstep : ∃ s₁, platform.updateElement s q = some s₁ := by
      rw [updateElement, hd]
      exact ⟨_, rfl⟩
    obtain ⟨s₁, hstep⟩ := hstep
    rw [List.foldlM_cons, hstep]
    exact ih (fun q' hq' => h q' (List.mem_cons_of_mem _ hq')) s₁

/-! ### The contract -/

variable (platform)

/-- The text that an encrypted answer of a password is the encryption of, and any other answer itself. -/
def plain (secret : Bool) (v : Value) : Value :=
  match v with
  | .str s => if secret && isEncrypted s then .str ((platform.decryptValue s).getD s) else .str s
  | v => v

/-- The answer satisfies its question and does not stand for another one. -/
structure Answers (q : Question) (w : Value) : Prop where
  satisfies : platform.Satisfies q w
  keeps : q.keeps w = true

/-- The answer is a password, or it is among the passwords that were saved. -/
def Launch.isSecret (launch : Launch) (q : Question) : Bool :=
  decide (q.type = .password) || decide (q.variableName ∈ launch.extraPasswords.keys)

/-- The variables of the job have a value for every required question, and the values that come from the
launch or, where this has none, from a default answer their questions. -/
structure Contract (t : Template) (launch : Launch) (accepted : Dict String Value) : Prop where
  made : ∃ runtimeExtraVars surveyDefaults extraVars,
    platform.surveyVariables t accepted = some (runtimeExtraVars, surveyDefaults) ∧
    platform.updateUnifiedJobKwargs t accepted = some extraVars ∧
    (∀ q ∈ t.questions, q.required = true → q.variableName ∈ extraVars.keys) ∧
    ∀ q ∈ t.questions,
      (∀ v, runtimeExtraVars.get? q.variableName = some v →
        extraVars.get? q.variableName = some v ∧
          Answers platform q (plain platform (launch.isSecret q) v)) ∧
      (runtimeExtraVars.get? q.variableName = none → ∀ v, surveyDefaults.get? q.variableName = some v →
        extraVars.get? q.variableName = some v ∧
          Answers platform q (plain platform (decide (q.type = .password)) v))

/-- The default of a question passes validation, encrypted or not, as `w`. -/
def ValidDefault (q : Question) (d w : Value) : Prop :=
  q.default = some d ∧ platform.decryptedDefault q d = some w ∧
    platform.surveyElementValidation q (Dict.empty.set q.variableName w) true = some []

/-- The question is not answered, or only by the placeholder. -/
def Launch.Unanswered (launch : Launch) (q : Question) : Prop :=
  ∀ v, launch.data.get? q.variableName = some v → q.keeps v = false

/-- What the errors of a launch do not tell. -/
structure Clear (t : Template) (launch : Launch) : Prop where
  /-- A required question that is answered by the placeholder has a valid default. -/
  required : ∀ q ∈ t.questions, q.required = true → launch.Unanswered q →
    (∃ d w, ValidDefault platform q d w) ∨ q.variableName ∈ t.extraVarsDict.keys
  /-- A password that comes encrypted has a valid text. -/
  encrypted : ∀ q ∈ t.questions, q.type = .password → ∀ s x,
    launch.data.get? q.variableName = some (.str s) → isEncrypted s = true →
      platform.decryptValue s = some x → q.keeps (.str x) = true ∧ platform.valueErrors q (.str x) = some []
  /-- No float question with bounds is answered by `nan`. -/
  number : ∀ q ∈ t.questions, ∀ v, launch.data.get? q.variableName = some v → ¬ NanBounded q v
  /-- The defaults can be decrypted and compared with their bounds. -/
  readable : ∀ q ∈ t.questions, ∀ d ∈ q.default, ∃ w errors, platform.decryptedDefault q d = some w ∧
    platform.surveyElementValidation q (Dict.empty.set q.variableName w) true = some errors
  /-- The same of the defaults that are used. -/
  defaults : ∀ q ∈ t.questions, launch.Unanswered q → ∀ d w, ValidDefault platform q d w →
    q.keeps w = true ∧ ¬ NanBounded q w

variable {platform}

theorem keeps_of_not_password (htype : q.type ≠ .password) (v : Value) : q.keeps v = true := by
  simp [Question.keeps, htype]

theorem keeps_of_isEncrypted {s : String} (h : isEncrypted s = true) : q.keeps (.str s) = true := by
  have hne : s ≠ "$encrypted$" := by
    rintro rfl
    exact absurd h (by decide)
  simp [Question.keeps, isPlaceholder, hne]

/-- A text that can be decrypted is longer than the marker. -/
theorem isEncrypted_of_decryptValue {s x : String} (hmarker : Encryption.marker.isPrefixOf s.toList = true)
    (h : platform.decryptValue s = some x) : isEncrypted s = true := by
  rw [isEncrypted, hmarker, Bool.true_and, decide_eq_true_eq]
  by_contra hle
  have hdrop : s.toList.drop Encryption.marker.length = [] := List.drop_eq_nil_of_le (not_lt.mp hle)
  rw [decryptValue, Encryption.decryptText, hdrop] at h
  cases h

theorem plain_default {d w : Value} (h : platform.decryptedDefault q d = some w) :
    plain platform (decide (q.type = .password)) d = w := by
  cases d with
  | str s =>
    rw [decryptedDefault] at h
    split_ifs at h with hsecret
    · obtain ⟨x, hx, rfl⟩ := Option.map_eq_some_iff.mp h
      have hencrypted := isEncrypted_of_decryptValue hsecret.2 hx
      simp [plain, hsecret.1, hencrypted, hx]
    · obtain rfl := Option.some.inj h
      have hnot : (decide (q.type = .password) && isEncrypted s) = false := by
        by_contra htrue
        simp only [Bool.not_eq_false, Bool.and_eq_true, decide_eq_true_eq, isEncrypted] at htrue
        exact hsecret ⟨htrue.1, htrue.2.1⟩
      rw [plain, hnot, if_neg Bool.false_ne_true]
  | null | bool | int | float | list | dict => exact Option.some.inj h

/-- Validation reads the variable of the question. -/
theorem validation_of_get? {data : Dict String Value} {validateRequired : Bool}
    (hv : data.get? q.variableName = some v) (hkeeps : q.keeps v = true) :
    platform.surveyElementValidation q data validateRequired = platform.valueErrors q v := by
  have hnot : ¬ (q.type = .password ∧ isPlaceholder v = true) := by
    rintro ⟨htype, hplaceholder⟩
    simp [Question.keeps, htype, hplaceholder] at hkeeps
  rw [surveyElementValidation, hv]
  exact if_neg hnot

theorem validation_single {validateRequired : Bool} (hkeeps : q.keeps v = true) :
    platform.surveyElementValidation q (Dict.empty.set q.variableName v) validateRequired =
      platform.valueErrors q v :=
  validation_of_get? (by rw [Dict.get?_set, if_pos rfl]) hkeeps

theorem not_nanBounded_str (s : String) : ¬ NanBounded q (.str s) := fun h => nomatch h.2.1

/-- What a question without errors says about its answer. -/
theorem element_checked (h : platform.elementErrors launch q = some [])
    (hv : launch.data.get? q.variableName = some v) (hkeeps : q.keeps v = true) :
    (∃ s x, v = .str s ∧ isEncrypted s = true ∧ q.variableName ∈ launch.extraPasswords.keys ∧
      platform.decryptValue s = some x ∧
        (q.keeps (.str x) = true → platform.valueErrors q (.str x) = some [])) ∨
    (¬ (∃ s, v = .str s ∧ isEncrypted s = true ∧ q.variableName ∈ launch.extraPasswords.keys) ∧
      platform.valueErrors q v = some []) := by
  rw [elementErrors, hv] at h
  cases v with
  | str s =>
    dsimp only at h
    split_ifs at h with hsaved
    · obtain ⟨x, hx, hvalid⟩ := Option.bind_eq_some_iff.mp h
      refine .inl ⟨s, x, rfl, hsaved.2, hsaved.1, hx, fun hkeeps' => ?_⟩
      rw [validation_single hkeeps'] at hvalid
      exact hvalid
    · rw [validation_of_get? hv hkeeps] at h
      refine .inr ⟨?_, h⟩
      rintro ⟨s', hs, hencrypted, hmem⟩
      cases hs
      exact hsaved ⟨hmem, hencrypted⟩
  | null | bool | int | float | list | dict =>
    dsimp only at h
    rw [validation_of_get? hv hkeeps] at h
    refine .inr ⟨?_, h⟩
    rintro ⟨s, hs, -⟩
    cases hs

/-- An answer that the launch kept answers its question. -/
theorem Clear.answers (h : Clear platform t launch) (hq : q ∈ t.questions) (hstatic : q.dynamicChoices = false)
    (hchecked : platform.elementErrors launch q = some [])
    (hv : launch.data.get? q.variableName = some v) (hkeeps : q.keeps v = true) :
    Answers platform q (plain platform (launch.isSecret q) v) := by
  rcases element_checked hchecked hv hkeeps with ⟨s, x, rfl, hencrypted, hmem, hx, hvalid⟩ | ⟨hnot, hvalid⟩
  · have hplain : plain platform (launch.isSecret q) (.str s) = .str x := by
      simp [plain, Launch.isSecret, hmem, hencrypted, hx]
    rw [hplain]
    have hkeeps' : q.keeps (.str x) = true := by
      by_cases htype : q.type = .password
      · exact (h.encrypted q hq htype s x hv hencrypted hx).1
      · exact keeps_of_not_password htype _
    exact ⟨satisfies_of_valueErrors hstatic (hvalid hkeeps') (not_nanBounded_str x), hkeeps'⟩
  · by_cases hsecret : ∃ s x, v = .str s ∧ q.type = .password ∧ isEncrypted s = true ∧
        platform.decryptValue s = some x
    · obtain ⟨s, x, rfl, htype, hencrypted, hx⟩ := hsecret
      have hplain : plain platform (launch.isSecret q) (.str s) = .str x := by
        simp [plain, Launch.isSecret, htype, hencrypted, hx]
      obtain ⟨hkeeps', hvalid'⟩ := h.encrypted q hq htype s x hv hencrypted hx
      rw [hplain]
      exact ⟨(valueErrors_password htype).mp hvalid', hkeeps'⟩
    · have hplain : plain platform (launch.isSecret q) v = v := by
        cases v with
        | str s =>
          rw [plain]
          split_ifs with hboth
          · rw [Bool.and_eq_true, Launch.isSecret, Bool.or_eq_true, decide_eq_true_eq,
              decide_eq_true_eq] at hboth
            obtain ⟨htype | hmem, hencrypted⟩ := hboth
            · cases hx : platform.decryptValue s with
              | none => rfl
              | some x => exact absurd ⟨s, x, rfl, htype, hencrypted, hx⟩ hsecret
            · exact absurd ⟨s, rfl, hencrypted, hmem⟩ hnot
          · rfl
        | null | bool | int | float | list | dict => rfl
      rw [hplain]
      exact ⟨satisfies_of_valueErrors hstatic hvalid (h.number q hq v hv), hkeeps⟩

theorem valid_of_default {d w : Value} (hstatic : q.dynamicChoices = false)
    (h : ValidDefault platform q d w) (hkeeps : q.keeps w = true) (hnan : ¬ NanBounded q w) :
    Answers platform q (plain platform (decide (q.type = .password)) d) := by
  obtain ⟨-, hw, hvalid⟩ := h
  rw [validation_single hkeeps] at hvalid
  rw [plain_default hw]
  exact ⟨satisfies_of_valueErrors hstatic hvalid hnan, hkeeps⟩

theorem keeps_filter_eq_none_iff {launch : Launch} :
    (launch.data.get? q.variableName).filter q.keeps = none ↔ launch.Unanswered q := by
  rw [Option.filter_eq_none_iff, Launch.Unanswered]
  simp

theorem get?_overridden (own defaults runtime : Dict String Value) (k : String) :
    ((own.update defaults.entries).update runtime.entries).get? k =
      (runtime.get? k).or ((defaults.get? k).or (own.get? k)) := by
  rw [Dict.get?_update, Dict.get?_update]

theorem contract_of_clear (hdistinct : (t.questions.map Question.variableName).Nodup)
    (hstatic : ∀ q ∈ t.questions, q.dynamicChoices = false) {accepted : Dict String Value}
    (hchecked : ∀ q ∈ t.questions, platform.elementErrors launch q = some [])
    (haccepted : ∀ q ∈ t.questions, accepted.get? q.variableName = launch.data.get? q.variableName)
    (h : Clear platform t launch) : Contract platform t launch accepted := by
  obtain ⟨⟨runtime, defaults⟩, hrun⟩ := exists_updateElements
    (fun q hq => surveyDefault_isSome_iff.mpr (h.readable q hq)) (accepted, .empty)
  obtain ⟨hmem, -⟩ := updateElements_spec hdistinct hrun
  refine ⟨runtime, defaults, (t.extraVarsDict.update defaults.entries).update runtime.entries, hrun, ?_, ?_, ?_⟩
  · rw [updateUnifiedJobKwargs, surveyVariables, hrun]
    rfl
  · intro q hq hrequired
    obtain ⟨hruntime, d, hd, hdefault⟩ := hmem q hq
    dsimp only at hruntime hdefault
    rw [haccepted q hq] at hruntime
    rw [Dict.mem_keys_iff, get?_overridden]
    cases hv : runtime.get? q.variableName with
    | some v => rfl
    | none =>
      rw [hv, eq_comm, keeps_filter_eq_none_iff] at hruntime
      rw [Option.none_or]
      rcases h.required q hq hrequired hruntime with ⟨d', w, hq', hw, hvalid⟩ | hown
      · rw [surveyDefault_eq_some_iff.mpr ⟨hq', w, hw, hvalid⟩] at hd
        obtain rfl := Option.some.inj hd
        rw [hdefault]
        rfl
      · rw [Option.isSome_or, Dict.mem_keys_iff.mp hown, Bool.or_true]
  · intro q hq
    obtain ⟨hruntime, d, hd, hdefault⟩ := hmem q hq
    dsimp only at hruntime hdefault
    rw [haccepted q hq] at hruntime
    rw [get?_overridden]
    constructor
    · intro v hv
      rw [hv, Option.some_or]
      rw [hruntime, Option.filter_eq_some_iff] at hv
      exact ⟨rfl, h.answers hq (hstatic q hq) (hchecked q hq) hv.1 hv.2⟩
    · intro hnone v hv
      rw [hnone, hv, Option.none_or, Option.some_or]
      rw [hdefault, Dict.get?_empty, Option.or_none] at hv
      subst hv
      rw [hruntime, keeps_filter_eq_none_iff] at hnone
      obtain ⟨hq', w, hw, hvalid⟩ := surveyDefault_eq_some_iff.mp hd
      obtain ⟨hkeeps, hnan⟩ := h.defaults q hq hnone v w ⟨hq', hw, hvalid⟩
      exact ⟨rfl, valid_of_default (hstatic q hq) ⟨hq', hw, hvalid⟩ hkeeps hnan⟩

theorem Answers.not_nanBounded {w : Value} (h : Answers platform q w) : ¬ NanBounded q w :=
  fun hnan => not_satisfies_of_nan hnan h.satisfies

theorem clear_of_contract (hdistinct : (t.questions.map Question.variableName).Nodup)
    {accepted : Dict String Value}
    (haccepted : ∀ q ∈ t.questions, accepted.get? q.variableName = launch.data.get? q.variableName)
    (h : Contract platform t launch accepted) : Clear platform t launch := by
  obtain ⟨runtime, defaults, extraVars, hrun, hmade, hrequired, hanswers⟩ := h.made
  obtain ⟨hmem, -⟩ := updateElements_spec hdistinct hrun
  have hextra : extraVars = (t.extraVarsDict.update defaults.entries).update runtime.entries := by
    rw [updateUnifiedJobKwargs, hrun] at hmade
    exact (Option.some.inj hmade).symm
  have hruntime : ∀ q ∈ t.questions, runtime.get? q.variableName =
      (launch.data.get? q.variableName).filter q.keeps := by
    intro q hq
    rw [← haccepted q hq]
    exact (hmem q hq).1
  have hkept : ∀ q ∈ t.questions, ∀ v, launch.data.get? q.variableName = some v → q.keeps v = true →
      Answers platform q (plain platform (launch.isSecret q) v) := by
    intro q hq v hv hkeeps
    refine ((hanswers q hq).1 v ?_).2
    rw [hruntime q hq, hv, Option.filter_some, if_pos hkeeps]
  have hunanswered : ∀ q ∈ t.questions, launch.Unanswered q → runtime.get? q.variableName = none := by
    intro q hq hnone
    rw [hruntime q hq]
    exact keeps_filter_eq_none_iff.mpr hnone
  refine ⟨?_, ?_, ?_, ?_, ?_⟩
  · intro q hq hreq hnone
    have hkey := hrequired q hq hreq
    rw [hextra, Dict.mem_keys_iff, get?_overridden, hunanswered q hq hnone, Option.none_or,
      Option.isSome_or, Bool.or_eq_true] at hkey
    obtain ⟨-, d, hd, hdefault⟩ := hmem q hq
    rcases hkey with hkey | hown
    · dsimp only at hdefault
      rw [hdefault, Dict.get?_empty, Option.or_none] at hkey
      obtain ⟨d, rfl⟩ := Option.isSome_iff_exists.mp hkey
      obtain ⟨hq', w, hw, hvalid⟩ := surveyDefault_eq_some_iff.mp hd
      exact .inl ⟨d, w, hq', hw, hvalid⟩
    · exact .inr (Dict.mem_keys_iff.mpr hown)
  · intro q hq htype s x hv hencrypted hx
    have hplain : plain platform (launch.isSecret q) (.str s) = .str x := by
      simp [plain, Launch.isSecret, htype, hencrypted, hx]
    have hanswer := hkept q hq _ hv (keeps_of_isEncrypted hencrypted)
    rw [hplain] at hanswer
    exact ⟨hanswer.keeps, (valueErrors_password htype).mpr hanswer.satisfies⟩
  · intro q hq v hv hnan
    have htype : q.type ≠ .password := by
      rw [hnan.1]
      decide
    have hplain : plain platform (launch.isSecret q) v = v := by
      cases v with
      | str s => exact absurd hnan (not_nanBounded_str s)
      | null | bool | int | float | list | dict => rfl
    have hanswer := hkept q hq v hv (keeps_of_not_password htype v)
    rw [hplain] at hanswer
    exact hanswer.not_nanBounded hnan
  · intro q hq
    obtain ⟨-, d, hd, -⟩ := hmem q hq
    exact surveyDefault_isSome_iff.mp ⟨d, hd⟩
  · rintro q hq hnone d w ⟨hq', hw, hvalid⟩
    obtain ⟨-, u, hu, hdefault⟩ := hmem q hq
    rw [surveyDefault_eq_some_iff.mpr ⟨hq', w, hw, hvalid⟩] at hu
    obtain rfl := Option.some.inj hu
    have hanswer := ((hanswers q hq).2 (hunanswered q hq hnone) d hdefault).2
    rw [plain_default hw] at hanswer
    exact ⟨hanswer.keeps, hanswer.not_nanBounded⟩

/-- After a launch without errors the variables are sorted, and those of the job are valid if and only if
nothing that the errors do not tell is wrong. -/
theorem contract_iff_clear (hdistinct : (t.questions.map Question.variableName).Nodup)
    (hstatic : ∀ q ∈ t.questions, q.dynamicChoices = false) {accepted rejected : Dict String Value}
    (h : platform.acceptOrIgnoreVariables t launch = some ⟨accepted, rejected, ⟨[], []⟩⟩) :
    Sorted t launch accepted rejected ∧
      (Contract platform t launch accepted ↔ Clear platform t launch) := by
  obtain ⟨hchecked, haccepted, hsorted⟩ := accept_spec h
  exact ⟨hsorted, clear_of_contract hdistinct haccepted,
    contract_of_clear hdistinct hstatic hchecked haccepted⟩

def plainPlatform : Platform Unit := ⟨asciiData, fun _ => ⊥, Encryption.plainCipher, "key".toList⟩

/-- A name of at most eight characters, and a password of at least one that has a blank default. -/
def nameAndPassword : Template where
  surveyEnabled := true
  spec := [⟨"name", .text, true, none, none, some 8, .list [], false⟩,
    ⟨"password", .password, true, some (.str ""), some 1, none, .list [], false⟩]
  askVariablesOnLaunch := false
  extraVarsDict := .empty

def launchWith (password : String) : Launch where
  data := (Dict.empty.set "name" (.str "web")).set "password" (.str password)
  excludeErrors := []
  extraPasswords := .empty

theorem contract_iff_clear_example : Contract plainPlatform nameAndPassword (launchWith "secret")
    (launchWith "secret").data := by
  have haccept : plainPlatform.acceptOrIgnoreVariables nameAndPassword (launchWith "secret") =
      some ⟨(launchWith "secret").data, .empty, ⟨[], []⟩⟩ := rfl
  have hstatic : ∀ q ∈ nameAndPassword.questions, q.dynamicChoices = false := by
    intro q hq
    rcases List.mem_pair.mp hq with rfl | rfl
    · rfl
    · rfl
  refine (contract_iff_clear (by decide) hstatic haccept).2.mpr ⟨?_, ?_, ?_, ?_, ?_⟩
  · intro q hq _ hnone
    rcases List.mem_pair.mp hq with rfl | rfl
    · exact absurd (hnone (.str "web") rfl) (by decide)
    · exact absurd (hnone (.str "secret") rfl) (by decide)
  · intro q hq htype s x hs hencrypted
    rcases List.mem_pair.mp hq with rfl | rfl
    · cases htype
    · cases hs
      exact absurd hencrypted (by decide)
  · intro q hq v hv hnan
    rcases List.mem_pair.mp hq with rfl | rfl
    · cases hnan.1
    · cases hnan.1
  · intro q hq d hd
    rcases List.mem_pair.mp hq with rfl | rfl
    · cases hd
    · cases hd
      exact ⟨_, _, rfl, rfl⟩
  · intro q hq hnone d w _
    rcases List.mem_pair.mp hq with rfl | rfl
    · exact absurd (hnone (.str "web") rfl) (by decide)
    · exact absurd (hnone (.str "secret") rfl) (by decide)

/-- The placeholder passes validation since there is a default, which does not pass it afterwards. -/
theorem blank_default_lost :
    plainPlatform.acceptOrIgnoreVariables nameAndPassword (launchWith "$encrypted$") =
      some ⟨(launchWith "$encrypted$").data, .empty, ⟨[], []⟩⟩ ∧
    ¬ Contract plainPlatform nameAndPassword (launchWith "$encrypted$") (launchWith "$encrypted$").data := by
  refine ⟨rfl, fun h => ?_⟩
  have hclear := clear_of_contract (by decide) (fun q _ => rfl) h
  have hmem : (⟨"password", .password, true, some (.str ""), some 1, none, .list [], false⟩ : Question) ∈
      nameAndPassword.questions := List.mem_cons_of_mem _ List.mem_cons_self
  have hunanswered : (launchWith "$encrypted$").Unanswered
      ⟨"password", .password, true, some (.str ""), some 1, none, .list [], false⟩ := by
    intro v hv
    cases hv
    rfl
  rcases hclear.required _ hmem rfl hunanswered with ⟨d, w, hd, hw, hvalid⟩ | hown
  · cases hd
    cases hw
    cases hvalid
  · cases hown

end Forail.Survey
