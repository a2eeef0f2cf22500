import Forail.Base.Binary64
import Forail.Base.Percent
import Forail.Utils.Encryption
import Mathlib.Algebra.Order.Monoid.WithTop

/-! The questions of a survey and `_survey_element_validation` (`main/models/mixins.py`), which finds the
errors of one answer. The bounds and the choices of a question are as the view that stores a survey
accepts them. -/

namespace Forail.Survey

open Encryption (Cipher)

inductive QuestionType
  | text
  | textarea
  | password
  | multiplechoice
  | multiselect
  | integer
  | float
  deriving DecidableEq

/-- The choices as one text of lines or as a list. -/
inductive Choices
  | lines (s : Str)
  | list (vs : List Value)

/-- An element of the survey. A missing default or bound is null, and `dynamicChoices` says whether the
choices are resolved elsewhere. -/
structure Question where
  variableName : String
  type : QuestionType
  required : Bool
  default : Option Value
  min : Option ℤ
  max : Option ℤ
  choices : Choices
  dynamicChoices : Bool

/-- What the survey rests on: the Unicode table, the numbers that the texts of fractions and infinities
stand for, and the cipher with the secret key of the settings. -/
structure Platform (ν : Type) where
  unicode : UnicodeData
  denotes : String → WithBot (WithTop ℚ)
  cipher : Cipher ν
  settingsKey : Str

/-- One message for each kind of error. -/
inductive SurveyError
  | missing (variableName : String)
  | notString (value : Value) (variableName : String)
  | tooShort (variableName : String) (value : String) (min : ℤ)
  | tooLong (variableName : String) (value : String) (max : ℤ)
  | notInteger (value : Value) (variableName : String)
  | notNumeric (value : Value) (variableName : String)
  | tooSmall (variableName : String) (value : Value) (min : ℤ)
  | tooLarge (variableName : String) (value : Value) (max : ℤ)
  | notList (variableName : String)
  | notChoice (value : Value) (variableName : String) (choices : List Value)

/-! ### Values -/

/-- What stands for an answer that is kept secret. -/
def isPlaceholder : Value → Bool
  | .str s => s = "$encrypted$"
  | _ => false

/-- `is_encrypted`. -/
def isEncrypted (s : String) : Bool :=
  Encryption.marker.isPrefixOf s.toList && Encryption.marker.length < s.toList.length

/-- The number of an integer or a float, which is none for `nan`. A truth value is not of these types. -/
def numeric? : Value → Option (Option Number)
  | .int n => some (some (.integer n))
  | .float _ number => some number
  | _ => none

/-- The lines of a text with the line breaks that `splitlines` knows. -/
def splitlines : Str → List Str
  | [] => []
  | '\r' :: '\n' :: s => [] :: splitlines s
  | c :: s =>
    if c ∈ ['\n', '\r', '\x0b', '\x0c', '\x1c', '\x1d', '\x1e', '\u0085', '\u2028', '\u2029'] then
      [] :: splitlines s
    else
      match splitlines s with
      | [] => [[c]]
      | l :: ls => (c :: l) :: ls

/-- `float(n)`, none where it overflows. -/
def floatOf (n : ℤ) : Option ℚ :=
  let x := Binary64.float64 n
  if |x| < 2 ^ 1024 then some x else none

/-- The errors of a bound: `fails` compares the answer with it. -/
def boundErrors (bound : Option ℤ) (fails : ℤ → Bool) (error : ℤ → SurveyError) : List SurveyError :=
  match bound with
  | some b => if fails b then [error b] else []
  | none => []

/-- The errors of a bound of a float question, which becomes a float first. -/
def floatBoundErrors (bound : Option ℤ) (fails : ℚ → Bool) (error : ℤ → SurveyError) :
    Option (List SurveyError) :=
  match bound with
  | some b => do
    let x ← floatOf b
    some (if fails x then [error b] else [])
  | none => some []

namespace Platform

variable {ν : Type} (platform : Platform ν)

/-- `decrypt_value` with the key of survey answers, none where it raises. -/
def decryptValue (s : String) : Option String :=
  (Encryption.decryptText platform.cipher
    (Encryption.getEncryptionKey platform.settingsKey ⟨"value", none⟩ []) s.toList).map String.ofList

def numberValue : Number → WithBot (WithTop ℚ)
  | .integer n => ((n : ℚ) : WithTop ℚ)
  | .fraction s => platform.denotes s

def choiceList (q : Question) : List Value :=
  match q.choices with
  | .lines s => ((splitlines s).filter fun choice => platform.unicode.strip choice ≠ []).map
      fun choice => .str (String.ofList choice)
  | .list vs => vs

def textErrors (q : Question) : Value → List SurveyError
  | .str s => boundErrors q.min (fun b => (s.length : ℤ) < b) (.tooShort q.variableName s) ++
      boundErrors q.max (fun b => (s.length : ℤ) > b) (.tooLong q.variableName s)
  | value => [.notString value q.variableName]

def integerErrors (q : Question) : Value → List SurveyError
  | .int n => boundErrors q.min (fun b => n < b) (.tooSmall q.variableName (.int n)) ++
      boundErrors q.max (fun b => n > b) (.tooLarge q.variableName (.int n))
  | value => [.notInteger value q.variableName]

def floatErrors (q : Question) (value : Value) : Option (List SurveyError) :=
  match numeric? value with
  | some x => do
    let small ← floatBoundErrors q.min
      (fun b => x.any fun n => platform.numberValue n < (b : WithTop ℚ)) (.tooSmall q.variableName value)
    let large ← floatBoundErrors q.max
      (fun b => x.any fun n => platform.numberValue n > (b : WithTop ℚ)) (.tooLarge q.variableName value)
    some (small ++ large)
  | none => some [.notNumeric value q.variableName]

def multiselectErrors (q : Question) : Value → List SurveyError
  | .list vs =>
    if q.dynamicChoices then []
    else (vs.filter fun v => !(platform.choiceList q).any v.eq).map
      fun v => .notChoice v q.variableName (platform.choiceList q)
  | _ => [.notList q.variableName]

def multiplechoiceErrors (q : Question) (value : Value) : List SurveyError :=
  if q.dynamicChoices then []
  else if (platform.choiceList q).any value.eq then []
  else [.notChoice value q.variableName (platform.choiceList q)]

/-- The errors of an answer that is there. -/
def valueErrors (q : Question) (value : Value) : Option (List SurveyError) :=
  match q.type with
  | .textarea | .text | .password => some (textErrors q value)
  | .integer => some (integerErrors q value)
  | .float => platform.floatErrors q value
  | .multiselect => some (platform.multiselectErrors q value)
  | .multiplechoice => some (platform.multiplechoiceErrors q value)

/-- `_survey_element_validation`, none where it raises. The placeholder is not validated; the default
will be instead. -/
def surveyElementValidation (q : Question) (data : Dict String Value) (validateRequired : Bool) :
    Option (List SurveyError) :=
  match data.get? q.variableName with
  | none => some (if q.required && validateRequired then [.missing q.variableName] else [])
  | some value =>
    if q.type = .password ∧ isPlaceholder value then
      some (if q.default.isNone && q.required && validateRequired then [.missing q.variableName] else [])
    else platform.valueErrors q value

/-! ### What an answer should be -/

def IsText (q : Question) (value : Value) : Prop :=
  ∃ s, value = .str s ∧ (∀ b ∈ q.min, b ≤ s.length) ∧ ∀ b ∈ q.max, (s.length : ℤ) ≤ b

def IsInteger (q : Question) (value : Value) : Prop :=
  ∃ n, value = .int n ∧ (∀ b ∈ q.min, b ≤ n) ∧ ∀ b ∈ q.max, n ≤ b

/-- A bound of a float question is a float, and `nan` is within no bounds. -/
def IsFloat (q : Question) (value : Value) : Prop :=
  ∃ x, numeric? value = some x ∧
    (∀ b ∈ q.min, ∃ n ∈ x, ((Binary64.float64 b : ℚ) : WithTop ℚ) ≤ platform.numberValue n) ∧
    ∀ b ∈ q.max, ∃ n ∈ x, platform.numberValue n ≤ ((Binary64.float64 b : ℚ) : WithTop ℚ)

def IsChoice (q : Question) (value : Value) : Prop := ∃ choice ∈ platform.choiceList q, value.eq choice = true

/-- The answer has the type of the question, is within its bounds and among its choices. -/
def Satisfies (q : Question) (value : Value) : Prop :=
  match q.type with
  | .textarea | .text | .password => IsText q value
  | .integer => IsInteger q value
  | .float => platform.IsFloat q value
  | .multiselect => ∃ vs, value = .list vs ∧ ∀ v ∈ vs, platform.IsChoice q v
  | .multiplechoice => platform.IsChoice q value

/-- `nan` as the answer of a float question with a bound. -/
def NanBounded (q : Question) (value : Value) : Prop :=
  q.type = .float ∧ numeric? value = some none ∧ (q.min.isSome ∨ q.max.isSome)

end Platform

end Forail.Survey

/-! From the variables of a launch to those of the job (`main/models/mixins.py`): `_accept_or_ignore_variables`
sorts them and collects the errors, `_update_unified_job_kwargs` puts the accepted ones over the defaults of
the survey and these over the template's own. -/

namespace Forail.Survey

/-- A job template or a workflow job template; `spec` is empty without a survey. -/
structure Template where
  surveyEnabled : Bool
  spec : List Question
  askVariablesOnLaunch : Bool
  extraVarsDict : Dict String Value

def Template.questions (t : Template) : List Question := if t.surveyEnabled then t.spec else []

/-- The variables not yet sorted, those sorted, and the errors of the survey. -/
structure Sorting where
  extraVars : Dict String Value
  accepted : Dict String Value
  rejected : Dict String Value
  surveyErrors : List SurveyError

/-- `errors` by its two fields, of which an empty one is not there: the messages of the survey, and the
variables that are not allowed. -/
structure LaunchErrors where
  variablesNeededToStart : List SurveyError
  extraVars : List String

structure Answer where
  accepted : Dict String Value
  rejected : Dict String Value
  errors : LaunchErrors

/-- What a launch gives: the variables, the errors not to report, and the saved passwords. -/
structure Launch where
  data : Dict String Value
  excludeErrors : List String
  extraPasswords : Dict String String

namespace Platform

variable {ν : Type} (platform : Platform ν)

/-- The errors of a question, for which an answer that is a saved password is decrypted. -/
def elementErrors (launch : Launch) (q : Question) : Option (List SurveyError) :=
  let validateRequired := !launch.excludeErrors.contains "required"
  match launch.data.get? q.variableName with
  | some (.str s) =>
    if q.variableName ∈ launch.extraPasswords.keys ∧ isEncrypted s then do
      let x ← platform.decryptValue s
      platform.surveyElementValidation q (Dict.empty.set q.variableName (.str x)) validateRequired
    else platform.surveyElementValidation q launch.data validateRequired
  | _ => platform.surveyElementValidation q launch.data validateRequired

def sortElement (launch : Launch) (s : Sorting) (q : Question) : Option Sorting := do
  let errors ← platform.elementErrors launch q
  let s := { s with surveyErrors := s.surveyErrors ++ errors }
  match s.extraVars.get? q.variableName with
  | none => some s
  | some value =>
    let extraVars := s.extraVars.erase q.variableName
    if errors.isEmpty then
      some { s with accepted := s.accepted.set q.variableName value, extraVars }
    else some { s with rejected := s.rejected.set q.variableName value, extraVars }

/-- The variables without those identical to the template's. -/
def prune (t : Template) (extraVars : Dict String Value) : Dict String Value :=
  extraVars.filter fun key =>
    match t.extraVarsDict.get? key, extraVars.get? key with
    | some own, some value => !own.eq value
    | _, _ => true

/-- `_accept_or_ignore_variables`, none where it raises. -/
def acceptOrIgnoreVariables (t : Template) (launch : Launch) : Option Answer := do
  let s ← t.questions.foldlM (platform.sortElement launch) ⟨launch.data, .empty, .empty, []⟩
  if t.askVariablesOnLaunch then
    some ⟨s.accepted.update s.extraVars.entries, s.rejected, ⟨s.surveyErrors, []⟩⟩
  else
    let extraVars := prune t s.extraVars
    some ⟨s.accepted, s.rejected.update extraVars.entries,
      ⟨s.surveyErrors, if launch.excludeErrors.contains "prompts" then [] else extraVars.keys⟩⟩

/-- The default as it is validated: an encrypted password is decrypted. -/
def decryptedDefault (q : Question) (default : Value) : Option Value :=
  match default with
  | .str s =>
    if q.type = .password ∧ Encryption.marker.isPrefixOf s.toList then
      (platform.decryptValue s).map Value.str
    else some default
  | default => some default

/-- The default that a question gives to its variable: none where it has none or an invalid one. -/
def surveyDefault (q : Question) : Option (Option Value) :=
  match q.default with
  | none => some none
  | some default => do
    let value ← platform.decryptedDefault q default
    let errors ← platform.surveyElementValidation q (Dict.empty.set q.variableName value) true
    some (if errors.isEmpty then some default else none)

/-- One question: the placeholder of a password is taken out, and the default is added. -/
def updateElement (s : Dict String Value × Dict String Value) (q : Question) :
    Option (Dict String Value × Dict String Value) := do
  let runtimeExtraVars :=
    if q.type = .password ∧ (s.1.get? q.variableName).any isPlaceholder then s.1.erase q.variableName
    else s.1
  let default ← platform.surveyDefault q
  some (runtimeExtraVars, (default.map fun default => s.2.set q.variableName default).getD s.2)

/-- The variables of the launch without placeholders, and the defaults of the survey. -/
def surveyVariables (t : Template) (runtimeExtraVars : Dict String Value) :
    Option (Dict String Value × Dict String Value) :=
  t.questions.foldlM platform.updateElement (runtimeExtraVars, .empty)

/-- `_update_unified_job_kwargs`: the dictionary that it writes as JSON, none where it raises. -/
def updateUnifiedJobKwargs (t : Template) (runtimeExtraVars : Dict String Value) :
    Option (Dict String Value) := do
  let (runtimeExtraVars, surveyDefaults) ← platform.surveyVariables t runtimeExtraVars
  some ((t.extraVarsDict.update surveyDefaults.entries).update runtimeExtraVars.entries)

end Platform

end Forail.Survey
