import Forail.Commands.RotatedAnswers
import Forail.Commands.RotatedCredentials

/-! When a rotation of the key keeps every secret. The prompts that are saved with workflow nodes, schedules
and jobs are never re-encrypted, so none of them may hold an encrypted answer. -/

namespace Forail.Commands.RegenerateSecretKey

open Encryption

variable {ν : Type} {cx : Context ν}

def LaunchConfig.secrets (config : LaunchConfig) : List Slot :=
  config.surveyPasswords.keys.map fun key => (valueUse, config.extraData.get? key)

/-- All saved prompts of the database. -/
def Db.launchConfigs (db : Db) : List LaunchConfig :=
  db.workflowJobTemplateNodes ++ db.workflowJobNodes ++ db.schedules ++ db.jobLaunchConfigs

/-- Each secret of the database is empty or encrypted under the key of the settings. -/
structure Db.Protected (cx : Context ν) (db : Db) : Prop where
  notificationTemplates : ∀ nt ∈ db.notificationTemplates,
    RegenerateSecretKey.Protected cx.cipher cx.settingsKey nt.secrets
  credentials : ∀ credential ∈ db.credentials,
    RegenerateSecretKey.Protected cx.cipher cx.settingsKey credential.secrets
  unifiedJobs : ∀ uj ∈ db.unifiedJobs,
    RegenerateSecretKey.Protected cx.cipher cx.settingsKey uj.secrets
  oauth2Applications : ∀ app ∈ db.oauth2Applications,
    RegenerateSecretKey.Protected cx.cipher cx.settingsKey app.secrets
  settings : ∀ setting ∈ db.settings,
    RegenerateSecretKey.Protected cx.cipher cx.settingsKey (setting.secrets cx)
  surveys : ∀ template ∈ db.jobTemplates ++ db.workflowJobTemplates,
    RegenerateSecretKey.Protected cx.cipher cx.settingsKey template.secrets
  answers : ∀ job ∈ db.jobs ++ db.workflowJobs,
    RegenerateSecretKey.Protected cx.cipher cx.settingsKey (job.secrets cx)
  launchConfigs : ∀ config ∈ db.launchConfigs,
    RegenerateSecretKey.Protected cx.cipher cx.settingsKey config.secrets

/-- The rows of a table keep their secrets one by one. -/
def KeptRows {α : Type} (cx : Context ν) (newKey : Str) (secrets : α → List Slot) (rows rows' : List α) :
    Prop :=
  List.Forall₂ (fun row row' =>
    List.Forall₂ (Kept cx.cipher cx.settingsKey newKey) (secrets row) (secrets row')) rows rows'

/-- Each secret stands for the same under the new key. -/
structure Db.Kept (cx : Context ν) (newKey : Str) (db db' : Db) : Prop where
  notificationTemplates : KeptRows cx newKey NotificationTemplate.secrets db.notificationTemplates
    db'.notificationTemplates
  credentials : KeptRows cx newKey Credential.secrets db.credentials db'.credentials
  unifiedJobs : KeptRows cx newKey UnifiedJob.secrets db.unifiedJobs db'.unifiedJobs
  oauth2Applications : KeptRows cx newKey OAuth2Application.secrets db.oauth2Applications
    db'.oauth2Applications
  settings : KeptRows cx newKey (Setting.secrets cx) db.settings db'.settings
  jobTemplates : KeptRows cx newKey SurveyTemplate.secrets db.jobTemplates db'.jobTemplates
  workflowJobTemplates : KeptRows cx newKey SurveyTemplate.secrets db.workflowJobTemplates
    db'.workflowJobTemplates
  jobs : KeptRows cx newKey (SurveyJob.secrets cx) db.jobs db'.jobs
  workflowJobs : KeptRows cx newKey (SurveyJob.secrets cx) db.workflowJobs db'.workflowJobs
  launchConfigs : KeptRows cx newKey LaunchConfig.secrets db.launchConfigs db'.launchConfigs

/-- The command completes, and each secret stands for the same under the new key. -/
def Rotates (cx : Context ν) (options : Options) (db : Db) : Prop :=
  ∃ newKey db', handle cx options db = some (newKey, db') ∧ db.Kept cx newKey db'

/-- When the secrets of a database are all kept. -/
structure Db.Clear (cx : Context ν) (newKey : Str) (db : Db) : Prop where
  notificationTemplates : ∀ nt ∈ db.notificationTemplates, ∀ field ∈ passwordFields nt.notificationType,
    ∃ v, nt.notificationConfiguration.get? field = some v ∧ v ≠ .null
  credentials : ∀ credential ∈ db.credentials, ∀ field ∈ credential.secretFields.head?,
    credential.inputs.get? field ≠ some .null
  settings : ∀ setting ∈ db.settings, cx.isSettingEncrypted setting.key = true → setting.value ≠ .null
  answers : ∀ job ∈ db.jobs ++ db.workflowJobs, job.Clear cx newKey
  launchConfigs : newKey = cx.settingsKey ∨ ∀ config ∈ db.launchConfigs, ∀ slot ∈ config.secrets,
    slot.2 = none ∨ slot.2 = some .null ∨ slot.2 = some (.str "")

/-! ### Saved prompts -/

/-- A secret that is left as it is. -/
theorem kept_self_iff {newKey : Str} {slot : Slot}
    (h : ∃ x, Carries cx.cipher cx.settingsKey slot.1 x slot.2) :
    Kept cx.cipher cx.settingsKey newKey slot slot ↔ newKey = cx.settingsKey ∨
      (slot.2 = none ∨ slot.2 = some .null ∨ slot.2 = some (.str "")) := by
  obtain ⟨x, hx⟩ := h
  constructor
  · intro hkept
    cases x with
    | none => exact .inr hx
    | some x => exact .inl (hx.unique (hkept.2 _ hx)).1.symm
  · rintro (rfl | hempty)
    · exact ⟨rfl, fun _ hy => hy⟩
    · have hnone : Carries cx.cipher cx.settingsKey slot.1 none slot.2 := hempty
      refine ⟨rfl, fun y hy => ?_⟩
      rw [carries_inj hy hnone]
      exact hempty

theorem keptRows_self_iff {newKey : Str} {configs : List LaunchConfig}
    (h : ∀ config ∈ configs, RegenerateSecretKey.Protected cx.cipher cx.settingsKey config.secrets) :
    KeptRows cx newKey LaunchConfig.secrets configs configs ↔
      newKey = cx.settingsKey ∨ ∀ config ∈ configs, ∀ slot ∈ config.secrets,
        slot.2 = none ∨ slot.2 = some .null ∨ slot.2 = some (.str "") := by
  unfold KeptRows
  simp only [List.forall₂_same]
  by_cases hsame : newKey = cx.settingsKey
  · rw [hsame]
    exact ⟨fun _ => .inl rfl, fun _ _ _ _ _ => ⟨rfl, fun _ hx => hx⟩⟩
  · rw [or_iff_right hsame]
    refine forall₂_congr fun config hconfig => forall₂_congr fun slot hslot => ?_
    rw [kept_self_iff (h config hconfig slot hslot), or_iff_right hsame]

/-! ### The command -/

theorem Options.newKey_ne_nil {options : Options} {newKey : Str} (h : options.newKey = some newKey) :
    newKey ≠ [] := by
  unfold Options.newKey at h
  split_ifs at h
  · obtain ⟨-, hne⟩ := Option.filter_eq_some_iff.mp h
    exact of_decide_eq_true hne
  · rw [← Option.some.inj h]
    exact options.randomKey_ne_nil

/-- What a completed run has stored. -/
structure Completed (cx : Context ν) (newKey : Str) (db db' : Db) : Prop where
  notificationTemplates : db.notificationTemplates.mapM (NotificationTemplate.regenerate cx newKey) =
    some db'.notificationTemplates
  credentials : db.credentials.mapM (Credential.regenerate cx newKey) = some db'.credentials
  unifiedJobs : db.unifiedJobs.mapM (UnifiedJob.regenerate cx newKey) = some db'.unifiedJobs
  oauth2Applications : db.oauth2Applications.mapM (OAuth2Application.regenerate cx newKey) =
    some db'.oauth2Applications
  settings : db.settings.mapM (Setting.regenerate cx newKey) = some db'.settings
  jobTemplates : db.jobTemplates.mapM (SurveyTemplate.regenerate cx newKey) = some db'.jobTemplates
  workflowJobTemplates : db.workflowJobTemplates.mapM (SurveyTemplate.regenerate cx newKey) =
    some db'.workflowJobTemplates
  jobs : db.jobs.mapM (SurveyJob.regenerate cx newKey) = some db'.jobs
  workflowJobs : db.workflowJobs.mapM (SurveyJob.regenerate cx newKey) = some db'.workflowJobs
  workflowJobTemplateNodes : db'.workflowJobTemplateNodes = db.workflowJobTemplateNodes
  workflowJobNodes : db'.workflowJobNodes = db.workflowJobNodes
  schedules : db'.schedules = db.schedules
  jobLaunchConfigs : db'.jobLaunchConfigs = db.jobLaunchConfigs

theorem handle_eq_some {options : Options} {newKey : Str} {db db' : Db} :
    handle cx options db = some (newKey, db') ↔
      options.newKey = some newKey ∧ Completed cx newKey db db' := by
  unfold handle
  simp only [Option.bind_eq_bind, Option.bind_eq_some_iff]
  constructor
  · rintro ⟨key, hkey, nts, hnts, cs, hcs, ujs, hujs, apps, happs, ss, hss, jts, hjts, wjts, hwjts, js,
      hjs, wjs, hwjs, h⟩
    cases h
    exact ⟨hkey, ⟨hnts, hcs, hujs, happs, hss, hjts, hwjts, hjs, hwjs, rfl, rfl, rfl, rfl⟩⟩
  · rintro ⟨hkey, h⟩
    refine ⟨newKey, hkey, _, h.notificationTemplates, _, h.credentials, _, h.unifiedJobs, _,
      h.oauth2Applications, _, h.settings, _, h.jobTemplates, _, h.workflowJobTemplates, _, h.jobs, _,
      h.workflowJobs, ?_⟩
    rw [← h.workflowJobTemplateNodes, ← h.workflowJobNodes, ← h.schedules, ← h.jobLaunchConfigs]

/-- The command never changes the saved prompts. -/
theorem Completed.launchConfigs {newKey : Str} {db db' : Db} (h : Completed cx newKey db db') :
    db'.launchConfigs = db.launchConfigs := by
  unfold Db.launchConfigs
  rw [h.workflowJobTemplateNodes, h.workflowJobNodes, h.schedules, h.jobLaunchConfigs]

/-- A clear database is rotated with the new key. -/
theorem exists_completed {newKey : Str} (hkey : newKey ≠ []) {db : Db} (h : db.Protected cx)
    (hclear : db.Clear cx newKey) :
    ∃ db', Completed cx newKey db db' ∧ db.Kept cx newKey db' := by
  obtain ⟨nts, hnts, hnts'⟩ := exists_mapM_forall₂.mpr fun nt hnt =>
    (NotificationTemplate.regenerate_iff hkey (h.notificationTemplates nt hnt)).mpr
      (hclear.notificationTemplates nt hnt)
  obtain ⟨cs, hcs, hcs'⟩ := exists_mapM_forall₂.mpr fun c hc =>
    (Credential.regenerate_iff hkey (h.credentials c hc)).mpr (hclear.credentials c hc)
  obtain ⟨ujs, hujs, hujs'⟩ := exists_mapM_forall₂.mpr fun uj huj =>
    UnifiedJob.exists_regenerate hkey (h.unifiedJobs uj huj)
  obtain ⟨apps, happs, happs'⟩ := exists_mapM_forall₂.mpr fun app happ =>
    OAuth2Application.exists_regenerate hkey (h.oauth2Applications app happ)
  obtain ⟨ss, hss, hss'⟩ := exists_mapM_forall₂.mpr fun setting hsetting =>
    (Setting.regenerate_iff hkey (h.settings setting hsetting)).mpr (hclear.settings setting hsetting)
  have hsurveys : ∀ templates ⊆ db.jobTemplates ++ db.workflowJobTemplates,
      ∃ templates', templates.mapM (SurveyTemplate.regenerate cx newKey) = some templates' ∧
        KeptRows cx newKey SurveyTemplate.secrets templates templates' := fun templates hsub =>
    exists_mapM_forall₂.mpr fun t ht => SurveyTemplate.exists_regenerate hkey (h.surveys t (hsub ht))
  have hanswers : ∀ jobs ⊆ db.jobs ++ db.workflowJobs,
      ∃ jobs', jobs.mapM (SurveyJob.regenerate cx newKey) = some jobs' ∧
        KeptRows cx newKey (SurveyJob.secrets cx) jobs jobs' := fun jobs hsub =>
    exists_mapM_forall₂.mpr fun job hjob => SurveyJob.regenerate_of_clear hkey
      (h.answers job (hsub hjob)) (hclear.answers job (hsub hjob))
  obtain ⟨jts, hjts, hjts'⟩ := hsurveys _ (List.subset_append_left _ _)
  obtain ⟨wjts, hwjts, hwjts'⟩ := hsurveys _ (List.subset_append_right _ _)
  obtain ⟨js, hjs, hjs'⟩ := hanswers _ (List.subset_append_left _ _)
  obtain ⟨wjs, hwjs, hwjs'⟩ := hanswers _ (List.subset_append_right _ _)
  have hlaunch := (keptRows_self_iff h.launchConfigs).mpr hclear.launchConfigs
  exact ⟨⟨nts, cs, ujs, apps, ss, jts, wjts, js, wjs, db.workflowJobTemplateNodes, db.workflowJobNodes,
      db.schedules, db.jobLaunchConfigs⟩,
    ⟨hnts, hcs, hujs, happs, hss, hjts, hwjts, hjs, hwjs, rfl, rfl, rfl, rfl⟩,
    ⟨hnts', hcs', hujs', happs', hss', hjts', hwjts', hjs', hwjs', hlaunch⟩⟩

/-- The keys of the answers in jobs occur in their texts, except for the first one of each job. -/
def Db.Named (cx : Context ν) (db : Db) : Prop := ∀ job ∈ db.jobs ++ db.workflowJobs, job.Named cx

/-- A rotated database was clear. -/
theorem clear_of_completed {newKey : Str} (hkey : newKey ≠ []) {db db' : Db} (h : db.Protected cx)
    (hnamed : db.Named cx) (hrun : Completed cx newKey db db') (hkept : db.Kept cx newKey db') :
    db.Clear cx newKey where
  notificationTemplates nt hnt :=
    (NotificationTemplate.regenerate_iff hkey (h.notificationTemplates nt hnt)).mp
      (exists_mapM_forall₂.mp ⟨_, hrun.notificationTemplates, hkept.notificationTemplates⟩ nt hnt)
  credentials c hc := (Credential.regenerate_iff hkey (h.credentials c hc)).mp
    (exists_mapM_forall₂.mp ⟨_, hrun.credentials, hkept.credentials⟩ c hc)
  settings setting hsetting := (Setting.regenerate_iff hkey (h.settings setting hsetting)).mp
    (exists_mapM_forall₂.mp ⟨_, hrun.settings, hkept.settings⟩ setting hsetting)
  answers job hjob := by
    have hregenerate : ∃ job', job.regenerate cx newKey = some job' ∧
        List.Forall₂ (Kept cx.cipher cx.settingsKey newKey) (job.secrets cx) (job'.secrets cx) := by
      rcases List.mem_append.mp hjob with hmem | hmem
      · exact exists_mapM_forall₂.mp ⟨_, hrun.jobs, hkept.jobs⟩ job hmem
      · exact exists_mapM_forall₂.mp ⟨_, hrun.workflowJobs, hkept.workflowJobs⟩ job hmem
    obtain ⟨job', hreg, hall⟩ := hregenerate
    exact SurveyJob.clear_of_regenerate hkey (h.answers job hjob) (hnamed job hjob) hreg hall
  launchConfigs := by
    have hlaunch := hkept.launchConfigs
    rw [hrun.launchConfigs] at hlaunch
    exact (keptRows_self_iff h.launchConfigs).mp hlaunch

/-- A rotation keeps all secrets of a clear database, where there is a new key. Where the answered keys
occur in their own texts, it does so for no other one. -/
theorem rotates_iff_clear {options : Options} {db : Db} (h : db.Protected cx) :
    ((∃ newKey, options.newKey = some newKey ∧ db.Clear cx newKey) → Rotates cx options db) ∧
      (db.Named cx → Rotates cx options db →
        ∃ newKey, options.newKey = some newKey ∧ db.Clear cx newKey) := by
  constructor
  · rintro ⟨newKey, hnew, hclear⟩
    obtain ⟨db', hrun, hkept⟩ := exists_completed (Options.newKey_ne_nil hnew) h hclear
    exact ⟨newKey, db', handle_eq_some.mpr ⟨hnew, hrun⟩, hkept⟩
  · rintro hnamed ⟨newKey, db', hhandle, hkept⟩
    obtain ⟨hnew, hrun⟩ := handle_eq_some.mp hhandle
    exact ⟨newKey, hnew, clear_of_completed (Options.newKey_ne_nil hnew) h hnamed hrun hkept⟩

/-! ### A schedule with an answer -/

theorem nan_ne_empty : "nan" ≠ "" := by decide

/-- A reader that takes every float for none. -/
def readNan (_ : Str) : Value := .float ⟨"nan", nan_ne_empty⟩ none

theorem rereads_readNan : Json.Rereads readNan := by
  intro s v rest h
  have hword : Json.scanWord "NaN".toList = some (.float ⟨"nan", by decide⟩ none, []) := rfl
  have hnumber : ∀ (p : Prop) [Decidable p] (n : ℤ) (text : Str),
      Json.Readable readNan (if p then .int n else readNan text) := by
    intro p _ n text
    split_ifs
    · trivial
    · exact Json.readable_of_scanWord readNan hword
  unfold Json.scanNumber at h
  obtain ⟨integer, -, h⟩ := Option.bind_eq_some_iff.mp h
  rw [← (Prod.mk.inj (Option.some.inj h)).1]
  exact hnumber _ _ _

def exampleContext : Context Unit where
  cipher := plainCipher
  nonce _ := ()
  quote s := s
  readFloat := readNan
  rereads := rereads_readNan
  settingsKey := "old".toList
  isSettingEncrypted _ := false

def exampleOptions : Options := ⟨false, none, "new".toList, by decide⟩

/-- A schedule with the answer to a password question of its template. -/
def exampleDb : Db where
  notificationTemplates := []
  credentials := []
  unifiedJobs := []
  oauth2Applications := []
  settings := []
  jobTemplates := []
  workflowJobTemplates := []
  jobs := []
  workflowJobs := []
  workflowJobTemplateNodes := []
  workflowJobNodes := []
  schedules := [⟨Dict.ofList [("pw", .str "$encrypted$")], Dict.ofList [("pw",
    .str (String.ofList (token plainCipher () (keyText "old".toList valueUse) "secret".toList)))]⟩]
  jobLaunchConfigs := []

theorem exampleDb_protected : exampleDb.Protected exampleContext where
  notificationTemplates := nofun
  credentials := nofun
  unifiedJobs := nofun
  oauth2Applications := nofun
  settings := nofun
  surveys := nofun
  answers := nofun
  launchConfigs config hconfig slot hslot := by
    rw [List.mem_singleton.mp hconfig] at hslot
    rw [List.mem_singleton.mp hslot]
    exact ⟨some "secret".toList, ⟨by decide, by decide⟩, (), rfl⟩

theorem rotates_iff_clear_example :
    ((∃ newKey, exampleOptions.newKey = some newKey ∧ exampleDb.Clear exampleContext newKey) →
        Rotates exampleContext exampleOptions exampleDb) ∧
      (exampleDb.Named exampleContext → Rotates exampleContext exampleOptions exampleDb →
        ∃ newKey, exampleOptions.newKey = some newKey ∧ exampleDb.Clear exampleContext newKey) :=
  rotates_iff_clear exampleDb_protected

/-- The answer of the schedule stays under the old key. -/
theorem schedule_not_rotated : exampleDb.Protected exampleContext ∧
    ¬ Rotates exampleContext exampleOptions exampleDb := by
  refine ⟨exampleDb_protected, ?_⟩
  rintro ⟨newKey, db', hhandle, hkept⟩
  obtain ⟨hnew, hrun⟩ := handle_eq_some.mp hhandle
  have hlaunch := hkept.launchConfigs
  rw [hrun.launchConfigs] at hlaunch
  rcases (keptRows_self_iff exampleDb_protected.launchConfigs).mp hlaunch with hsame | hempty
  · rw [hsame] at hnew
    exact absurd hnew (by decide)
  · rcases hempty _ List.mem_cons_self _ List.mem_cons_self with h | h | h
    · cases h
    · cases h
    · exact absurd (Value.str.inj (Option.some.inj h)) (by decide)

end Forail.Commands.RegenerateSecretKey
