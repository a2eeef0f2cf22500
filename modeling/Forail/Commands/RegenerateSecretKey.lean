import Forail.Base.Dict
import Forail.Base.JsonRoundTrip
import Forail.Utils.Encryption
import Mathlib.Data.List.Infix

/-! `regenerate_secret_key`: the secrets of each table are decrypted with the old key and stored under the
new one, in a single transaction. The loops over the tables go row by row; a row holds the columns that
the command reads, and those that keep secrets. -/

namespace Forail.Commands.RegenerateSecretKey

open Encryption

/-- The encryptions of a run; each draws a nonce of its own. -/
inductive Draw
  | notification (pk : ℕ) (field : String)
  | notificationSave (pk : ℕ) (field : String)
  | credential (pk : ℕ) (field : String)
  | credentialSave (pk : ℕ) (round field : String)
  | startArgs (pk : ℕ)
  | client (pk : ℕ)
  | clientUpdate (pk : ℕ)
  | setting (pk : ℕ)
  | settingSave (pk : ℕ)
  | question (pk index : ℕ)
  | answer (pk : ℕ) (key : String)

/-- What the command runs with. The floats of its JSON reader are read again from their texts. -/
structure Context (ν : Type) where
  cipher : Cipher ν
  nonce : Draw → ν
  quote : String → String
  readFloat : Str → Value
  rereads : Json.Rereads readFloat
  settingsKey : Str
  isSettingEncrypted : String → Bool

section Rows

variable {ν : Type} (cx : Context ν)

def Context.encrypt (draw : Draw) (use : Use) (secretKey : Str) (ask : Bool) (v : Value) : Value :=
  encryptField cx.cipher cx.quote cx.settingsKey (cx.nonce draw) use secretKey ask v

/-- `decrypt_field` with the old key and `encrypt_field` with the new one. -/
def Context.reencrypt (draw : Draw) (use : Use) (newKey : Str) (v : Value) : Option Value :=
  Encryption.reencrypt cx.cipher cx.quote cx.settingsKey (cx.nonce draw) use cx.settingsKey newKey v

/-- The use of values that belong to no row. -/
def valueUse : Use := ⟨"value", none⟩

/-- `decrypt_value` with the old key and `encrypt_value` with the new one. -/
def Context.reencryptValue (draw : Draw) (newKey : Str) (v : Value) : Option Value :=
  (decryptValue cx.cipher (getEncryptionKey cx.settingsKey valueUse cx.settingsKey) v).map
    (cx.encrypt draw valueUse newKey false)

/-! ### Notification templates -/

inductive NotificationType
  | awssns | email | slack | twilio | pagerduty | grafana | webhook | mattermost | rocketchat | irc
  deriving DecidableEq

/-- The fields of type password in the `init_parameters` of the backends. -/
def passwordFields : NotificationType → List String
  | .awssns => ["aws_secret_access_key", "aws_session_token"]
  | .email => ["password"]
  | .slack => ["token"]
  | .twilio => ["account_token"]
  | .pagerduty => ["token"]
  | .grafana => ["grafana_key"]
  | .webhook => ["password"]
  | .mattermost => []
  | .rocketchat => []
  | .irc => ["password"]

structure NotificationTemplate where
  id : ℕ
  notificationType : NotificationType
  notificationConfiguration : Dict String Value

def NotificationTemplate.use (nt : NotificationTemplate) : Use :=
  ⟨"notification_configuration", some nt.id⟩

/-- `NotificationTemplate.save` on one field: what does not start with the marker is encrypted with the
key of the settings, and what is no text raises. -/
def NotificationTemplate.saveField (nt : NotificationTemplate) (field : String) (v : Value) :
    Option Value :=
  match v with
  | .str s =>
    if marker.isPrefixOf s.toList then some v
    else some (cx.encrypt (.notificationSave nt.id field) nt.use [] false v)
  | _ => none

/-- `_notification_templates` on one row; a field that is missing raises. -/
def NotificationTemplate.regenerate (newKey : Str) (nt : NotificationTemplate) :
    Option NotificationTemplate := do
  let fields := passwordFields nt.notificationType
  let config ← fields.foldlM (fun config field =>
    config.modifyM field (cx.reencrypt (.notification nt.id field) nt.use newKey))
    nt.notificationConfiguration
  let config ← fields.foldlM (fun config field => config.modifyM field (nt.saveField cx field)) config
  some { nt with notificationConfiguration := config }

/-! ### Credentials -/

/-- A credential with the fields of its type that are secret or may be asked for. -/
structure Credential where
  id : ℕ
  secretFields : List String
  nodup : secretFields.Nodup
  askableFields : List String
  inputs : Dict String Value

def Credential.use (credential : Credential) (field : String) : Use := ⟨field, some credential.id⟩

/-- A field that shows the marker alone takes the value of the database. -/
def Credential.restoreField (before inputs : Dict String Value) (field : String) : Dict String Value :=
  match inputs.get? field with
  | some (.str s) =>
    if s = "$encrypted$" then inputs.set field ((before.get? field).getD (.str s)) else inputs
  | _ => inputs

/-- `Credential.encrypt_field`: a value that is empty afterwards is deleted. -/
def Credential.encryptField (credential : Credential) (round : String) (inputs : Dict String Value)
    (field : String) : Dict String Value :=
  match inputs.get? field with
  | none => inputs
  | some v =>
    let encrypted := cx.encrypt (.credentialSave credential.id round field) (credential.use field) []
      (field ∈ credential.askableFields) v
    if encrypted.truth then inputs.set field encrypted else inputs.erase field

/-- `Credential.save` of inputs where the database has others. -/
def Credential.save (credential : Credential) (round : String) (before inputs : Dict String Value) :
    Dict String Value :=
  let inputs := if before.entries.isEmpty then inputs
    else credential.secretFields.foldl (Credential.restoreField before) inputs
  credential.secretFields.foldl (credential.encryptField cx round) inputs

/-- One round of the loop over the secret fields; it ends with a save. -/
def Credential.round (newKey : Str) (credential : Credential) (inputs : Dict String Value)
    (field : String) : Option (Dict String Value) :=
  match inputs.get? field with
  | none => some (credential.save cx field inputs inputs)
  | some v => do
    let v ← cx.reencrypt (.credential credential.id field) (credential.use field) newKey v
    some (credential.save cx field inputs (inputs.set field v))

/-- `_credentials` on one row. -/
def Credential.regenerate (newKey : Str) (credential : Credential) : Option Credential := do
  let inputs ← credential.secretFields.foldlM (credential.round cx newKey) credential.inputs
  some { credential with inputs := inputs }

/-! ### Jobs, applications and settings -/

structure UnifiedJob where
  id : ℕ
  startArgs : Value

def UnifiedJob.use (uj : UnifiedJob) : Use := ⟨"start_args", some uj.id⟩

/-- `_unified_jobs` on one row. -/
def UnifiedJob.regenerate (newKey : Str) (uj : UnifiedJob) : Option UnifiedJob :=
  if uj.startArgs.truth then do
    let startArgs ← cx.reencrypt (.startArgs uj.id) uj.use newKey uj.startArgs
    some { uj with startArgs := startArgs }
  else some uj

structure OAuth2Application where
  id : ℕ
  clientSecret : Value

/-- `from_db_value` of the client secret, which is decrypted where it starts with the marker. -/
def fromDbValue (v : Value) : Option Value :=
  match v with
  | .str s =>
    if marker.isPrefixOf s.toList then
      decryptValue cx.cipher (getEncryptionKey cx.settingsKey valueUse []) v
    else some v
  | v => some v

/-- `_oauth2_app_secrets` on one row. The update encrypts once more, which what is encrypted passes. -/
def OAuth2Application.regenerate (newKey : Str) (app : OAuth2Application) :
    Option OAuth2Application := do
  let raw ← fromDbValue cx app.clientSecret
  let encrypted := cx.encrypt (.client app.id) valueUse newKey false raw
  some { app with clientSecret := cx.encrypt (.clientUpdate app.id) valueUse [] false encrypted }

structure Setting where
  id : ℕ
  key : String
  value : Value

def Setting.use (setting : Setting) : Use := ⟨"value", some setting.id⟩

/-- `_settings` on one row; the save encrypts with the key of the settings. -/
def Setting.regenerate (newKey : Str) (setting : Setting) : Option Setting :=
  if cx.isSettingEncrypted setting.key then do
    let value ← cx.reencrypt (.setting setting.id) setting.use newKey setting.value
    some { setting with value := cx.encrypt (.settingSave setting.id) setting.use [] false value }
  else some setting

/-! ### Surveys -/

/-- A job template or workflow job template with the questions of its survey. -/
structure SurveyTemplate where
  id : ℕ
  questions : List (Dict String Value)

def isPassword (question : Dict String Value) : Bool :=
  match question.get? "type" with
  | some (.str type) => type = "password"
  | _ => false

/-- The default of a password question is re-encrypted where it is not empty. -/
def regenerateQuestion (newKey : Str) (pk : ℕ) (question : Dict String Value) (index : ℕ) :
    Option (Dict String Value) :=
  match question.get? "default" with
  | some v =>
    if isPassword question && v.truth then
      (cx.reencryptValue (.question pk index) newKey v).map (question.set "default")
    else some question
  | none => some question

/-- `_survey_passwords` on one template. -/
def SurveyTemplate.regenerate (newKey : Str) (template : SurveyTemplate) : Option SurveyTemplate := do
  let questions ← template.questions.zipIdx.mapM fun q =>
    regenerateQuestion cx newKey template.id q.1 q.2
  some { template with questions := questions }

/-- A job or workflow job with the text of its variables. -/
structure SurveyJob where
  id : ℕ
  surveyPasswords : Dict String Value
  extraVars : Str

/-- The entries of the dictionary that a text stands for, none where it cannot be read as one. -/
def Context.variables (text : Str) : Option (List (String × Value)) :=
  match Json.loads cx.readFloat text with
  | some (.dict es) => some es
  | _ => none

/-- `key in text`: the characters of the key stand somewhere in the text as they are. -/
abbrev Occurs (key : String) (text : Str) : Prop := key.toList <:+: text

/-- One key: the text is read where the key occurs anywhere in it, and written anew with the answer. -/
def SurveyJob.regenerateAnswer (newKey : Str) (job : SurveyJob) (text : Str) (key : String) :
    Option Str :=
  if Occurs key text then do
    let es ← cx.variables text
    match es.lookup key with
    | none => some text
    | some v =>
      if v.truth then do
        let v ← cx.reencryptValue (.answer job.id key) newKey v
        some (Json.dumps (.dict (Dict.setEntries key v es)))
      else some text
  else some text

theorem SurveyJob.regenerateAnswer_of_occurs {newKey : Str} {job : SurveyJob} {text : Str} {key : String}
    {es : List (String × Value)} (h : Occurs key text) (hvars : cx.variables text = some es) :
    job.regenerateAnswer cx newKey text key =
      match es.lookup key with
      | none => some text
      | some v =>
        if v.truth then do
          let v ← cx.reencryptValue (.answer job.id key) newKey v
          some (Json.dumps (.dict (Dict.setEntries key v es)))
        else some text := by
  unfold SurveyJob.regenerateAnswer
  rw [if_pos h, hvars]
  rfl

/-- `_survey_passwords` on one job. -/
def SurveyJob.regenerate (newKey : Str) (job : SurveyJob) : Option SurveyJob := do
  let extraVars ← job.surveyPasswords.keys.foldlM (job.regenerateAnswer cx newKey) job.extraVars
  some { job with extraVars := extraVars }

/-! ### The whole database -/

/-- The saved prompts of a workflow node, workflow job node, schedule or job. -/
structure LaunchConfig where
  surveyPasswords : Dict String Value
  extraData : Dict String Value

structure Db where
  notificationTemplates : List NotificationTemplate
  credentials : List Credential
  unifiedJobs : List UnifiedJob
  oauth2Applications : List OAuth2Application
  settings : List Setting
  jobTemplates : List SurveyTemplate
  workflowJobTemplates : List SurveyTemplate
  jobs : List SurveyJob
  workflowJobs : List SurveyJob
  workflowJobTemplateNodes : List LaunchConfig
  workflowJobNodes : List LaunchConfig
  schedules : List LaunchConfig
  jobLaunchConfigs : List LaunchConfig

/-- The options and environment of the command, with the random key that it would make. -/
structure Options where
  useCustomKey : Bool
  customKey : Option Str
  randomKey : Str
  randomKey_ne_nil : randomKey ≠ []

/-- The new key, none where a custom key is asked for but not there. -/
def Options.newKey (options : Options) : Option Str :=
  if options.useCustomKey then options.customKey.filter (· ≠ []) else some options.randomKey

/-- `handle`, none where it raises or exits, which rolls the transaction back. -/
def handle (options : Options) (db : Db) : Option (Str × Db) := do
  let newKey ← options.newKey
  let notificationTemplates ← db.notificationTemplates.mapM (NotificationTemplate.regenerate cx newKey)
  let credentials ← db.credentials.mapM (Credential.regenerate cx newKey)
  let unifiedJobs ← db.unifiedJobs.mapM (UnifiedJob.regenerate cx newKey)
  let oauth2Applications ← db.oauth2Applications.mapM (OAuth2Application.regenerate cx newKey)
  let settings ← db.settings.mapM (Setting.regenerate cx newKey)
  let jobTemplates ← db.jobTemplates.mapM (SurveyTemplate.regenerate cx newKey)
  let workflowJobTemplates ← db.workflowJobTemplates.mapM (SurveyTemplate.regenerate cx newKey)
  let jobs ← db.jobs.mapM (SurveyJob.regenerate cx newKey)
  let workflowJobs ← db.workflowJobs.mapM (SurveyJob.regenerate cx newKey)
  some (newKey, { db with
    notificationTemplates := notificationTemplates, credentials := credentials
    unifiedJobs := unifiedJobs, oauth2Applications := oauth2Applications, settings := settings
    jobTemplates := jobTemplates, workflowJobTemplates := workflowJobTemplates
    jobs := jobs, workflowJobs := workflowJobs })

end Rows

end Forail.Commands.RegenerateSecretKey
