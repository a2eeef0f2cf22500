import Forail.Base.Dict

/-! The variables that a template with a survey accepts at launch. The survey sorts the offered
variables that it asks for, the prompt setting accepts the rest or rejects what differs from the
template's own variables. -/

namespace Forail.SurveyVariables

variable {V : Type*}

/-- A survey question: its variable, and whether `_survey_element_validation` finds errors in
the variables of a launch. -/
structure SurveyElement (V : Type*) where
  key : Option String
  invalid : Dict String V → Bool

/-- A job template or a workflow job template; `spec` is empty without a survey. -/
structure SurveyTemplate (V : Type*) where
  isWorkflow : Bool
  surveyEnabled : Bool
  spec : List (SurveyElement V)
  askVariablesOnLaunch : Bool
  extraVarsDict : Dict String V

/-- `is_encrypted` and `decrypt_value` with the key of survey answers. -/
structure Secrets (V : Type*) where
  isEncrypted : V → Bool
  decrypt : V → V

/-- The variables not yet sorted, those sorted, and whether the survey found errors. -/
structure Sorting (V : Type*) where
  extraVars : Dict String V
  accepted : Dict String V
  rejected : Dict String V
  surveyErrors : Bool

/-- The errors of one question. An encrypted password is decrypted first. -/
def elementErrors (secrets : Secrets V) (data : Dict String V) (extraPasswords : Dict String String)
    (e : SurveyElement V) : Bool :=
  let encrypted : Option (String × V) :=
    e.key.bind fun key => (data.get? key).bind fun value =>
      if key ∈ extraPasswords.keys ∧ secrets.isEncrypted value then some (key, value) else none
  match encrypted with
  | some (key, value) => e.invalid (Dict.empty.set key (secrets.decrypt value))
  | none => e.invalid data

def Sorting.element (secrets : Secrets V) (data : Dict String V)
    (extraPasswords : Dict String String) (s : Sorting V) (e : SurveyElement V) : Sorting V :=
  let errors := elementErrors secrets data extraPasswords e
  let s := { s with surveyErrors := s.surveyErrors || errors }
  match e.key with
  | none => s
  | some key =>
    match s.extraVars.get? key with
    | none => s
    | some value =>
      if errors then
        { s with rejected := s.rejected.set key value, extraVars := s.extraVars.erase key }
      else { s with accepted := s.accepted.set key value, extraVars := s.extraVars.erase key }

/-- The variables accepted and rejected, and the fields with errors. -/
structure Answer (V : Type*) where
  accepted : Dict String V
  rejected : Dict String V
  errors : List String

section Accept
variable [BEq V]

/-- The prompted variables without those identical to the template's. -/
def prune (t : SurveyTemplate V) (extraVars : Dict String V) : Dict String V :=
  extraVars.filter fun key =>
    match t.extraVarsDict.get? key, extraVars.get? key with
    | some own, some value => !(own == value)
    | _, _ => true

/-- `_accept_or_ignore_variables` without excluded errors. -/
def acceptOrIgnoreVariables (secrets : Secrets V) (t : SurveyTemplate V) (data : Dict String V)
    (extraPasswords : Dict String String) : Answer V :=
  let questions := if t.surveyEnabled then t.spec else []
  let s := questions.foldl (Sorting.element secrets data extraPasswords)
    ⟨data, .empty, .empty, false⟩
  let surveyErrors := if s.surveyErrors then ["variables_needed_to_start"] else []
  if t.askVariablesOnLaunch then
    ⟨s.accepted.update s.extraVars.entries, s.rejected, surveyErrors⟩
  else
    let extraVars := prune t s.extraVars
    if extraVars.entries.isEmpty then ⟨s.accepted, s.rejected, surveyErrors⟩
    else ⟨s.accepted, s.rejected.update extraVars.entries, surveyErrors ++ ["extra_vars"]⟩

end Accept

/-! ### Accepted variables are offered ones -/

/-- The entries of one dictionary are entries of another. -/
def Within (d e : Dict String V) : Prop := ∀ k v, d.get? k = some v → e.get? k = some v

theorem Within.empty (d : Dict String V) : Within .empty d := fun _ _ h => nomatch h

theorem Within.set {d e : Dict String V} (h : Within d e) {k : String} {v : V}
    (hv : e.get? k = some v) : Within (d.set k v) e := by
  intro k' v' h'
  rw [Dict.get?_set] at h'
  split_ifs at h' with hk
  · cases h'
    rw [hk, hv]
  · exact h k' v' h'

theorem Within.erase {d e : Dict String V} (h : Within d e) (k : String) :
    Within (d.erase k) e := by
  intro k' v' h'
  rw [Dict.get?_erase] at h'
  split_ifs at h'
  exact h k' v' h'

theorem Within.update {d d' e : Dict String V} (h : Within d e) (h' : Within d' e) :
    Within (d.update d'.entries) e := by
  intro k v hv
  rw [Dict.get?_update] at hv
  rcases Option.or_eq_some_iff.mp hv with hv | ⟨-, hv⟩
  · exact h' k v hv
  · exact h k v hv

/-- Nothing is sorted that was not offered. -/
structure Sorting.Offered (data : Dict String V) (s : Sorting V) : Prop where
  extraVars : Within s.extraVars data
  accepted : Within s.accepted data

theorem Sorting.Offered.element {secrets : Secrets V} {data : Dict String V}
    {extraPasswords : Dict String String} {s : Sorting V} (h : s.Offered data)
    (e : SurveyElement V) : (s.element secrets data extraPasswords e).Offered data := by
  unfold Sorting.element
  cases e.key with
  | none => exact ⟨h.extraVars, h.accepted⟩
  | some key =>
    dsimp only
    split
    · exact ⟨h.extraVars, h.accepted⟩
    · rename_i value hv
      split_ifs
      · exact ⟨h.extraVars.erase key, h.accepted⟩
      · exact ⟨h.extraVars.erase key, h.accepted.set (h.extraVars key value hv)⟩

theorem Sorting.Offered.run {secrets : Secrets V} {data : Dict String V}
    {extraPasswords : Dict String String} {s : Sorting V} (h : s.Offered data)
    (spec : List (SurveyElement V)) :
    (spec.foldl (Sorting.element secrets data extraPasswords) s).Offered data := by
  induction spec generalizing s with
  | nil => exact h
  | cons e spec ih => exact ih (h.element e)

theorem accepted_within [BEq V] (secrets : Secrets V) (t : SurveyTemplate V) (data : Dict String V)
    (extraPasswords : Dict String String) :
    Within (acceptOrIgnoreVariables secrets t data extraPasswords).accepted data := by
  have hstart : Sorting.Offered data ⟨data, .empty, .empty, false⟩ :=
    ⟨fun _ _ h => h, Within.empty data⟩
  have hsorted : Sorting.Offered data ((if t.surveyEnabled then t.spec else []).foldl
      (Sorting.element secrets data extraPasswords) ⟨data, .empty, .empty, false⟩) :=
    hstart.run _
  unfold acceptOrIgnoreVariables
  dsimp only
  generalize List.foldl _ _ _ = s at hsorted
  by_cases hask : t.askVariablesOnLaunch = true
  · rw [if_pos hask]
    exact hsorted.accepted.update hsorted.extraVars
  · rw [if_neg hask]
    by_cases hleft : (prune t s.extraVars).entries.isEmpty = true
    · rw [if_pos hleft]
      exact hsorted.accepted
    · rw [if_neg hleft]
      exact hsorted.accepted

end Forail.SurveyVariables
