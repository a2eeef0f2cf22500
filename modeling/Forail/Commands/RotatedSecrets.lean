import Forail.Base.MapM
import Forail.Commands.RegenerateSecretKey

/-! The secrets of a row, and what the command makes of them: those of notification templates, unified
jobs, applications and settings are re-encrypted one by one, where null is taken for a text. -/

namespace Forail.Commands.RegenerateSecretKey

open Encryption

/-- A place for a secret: what it is encrypted for, and its value, none where it is absent. -/
abbrev Slot := Use × Option Value

section Slots

variable {ν : Type} (cipher : Cipher ν)

/-- Each secret is empty or encrypted under the key. -/
def Protected (secretKey : Str) (slots : List Slot) : Prop :=
  ∀ slot ∈ slots, ∃ x, Carries cipher secretKey slot.1 x slot.2

/-- The secret stands for the same under the new key as under the old one. -/
def Kept (oldKey newKey : Str) (slot slot' : Slot) : Prop :=
  slot'.1 = slot.1 ∧ ∀ x, Carries cipher oldKey slot.1 x slot.2 → Carries cipher newKey slot.1 x slot'.2

end Slots

section Rows

variable {ν : Type} {cx : Context ν}

theorem carries_inj {cipher : Cipher ν} {s : Str} {use : Use} {x y : Option Str} {v : Option Value}
    (hx : Carries cipher s use x v) (hy : Carries cipher s use y v) : x = y := by
  cases x with
  | some x => exact (hx.unique hy).2.symm
  | none =>
    cases y with
    | none => rfl
    | some y => exact (hy.unique hx).2

theorem kept_iff {cipher : Cipher ν} {s t : Str} {use : Use} {x y : Option Str} {v v' : Option Value}
    (hx : Carries cipher s use x v) (hy : Carries cipher t use y v') :
    Kept cipher s t (use, v) (use, v') ↔ y = x := by
  constructor
  · intro h
    exact carries_inj hy (h.2 x hx)
  · rintro rfl
    refine ⟨rfl, fun z hz => ?_⟩
    rw [carries_inj hz hx]
    exact hy

/-- What stands for something is stored as it is. -/
theorem encrypt_of_carries {s : Str} {use : Use} {x : Option Str} {v : Value}
    (h : Carries cx.cipher s use x (some v)) (draw : Draw) (use' : Use) (key : Str) (ask : Bool) :
    cx.encrypt draw use' key ask v = v := by
  cases x with
  | none =>
    rcases h with h | h | h
    · cases h
    · rw [Option.some.inj h]
      rfl
    · rw [Option.some.inj h]
      rfl
  | some x => exact Carries.encryptField cx.quote cx.settingsKey h _ use' key ask

/-- A secret is re-encrypted for the same text, and null for a text that it has not. -/
theorem reencrypt_spec {newKey : Str} (hkey : newKey ≠ []) {use : Use} {x : Option Str} {v : Value}
    (h : Carries cx.cipher cx.settingsKey use x (some v)) (draw : Draw) :
    ∃ s y, cx.reencrypt draw use newKey v = some (.str s) ∧
      Carries cx.cipher newKey use y (some (.str s)) ∧ (y = x ↔ v ≠ .null) := by
  by_cases hnull : v = .null
  · subst hnull
    obtain ⟨v', hv', hcarries⟩ :=
      @reencrypt_null ν cx.cipher cx.quote cx.settingsKey use newKey hkey (cx.nonce draw)
    obtain ⟨s, rfl⟩ := reencrypt_text cx.quote cx.settingsKey hv'
    have hx : x = none := carries_inj h (.inr (.inl rfl))
    refine ⟨s, _, hv', hcarries, ?_⟩
    rw [hx]
    exact ⟨nofun, fun hne => absurd rfl hne⟩
  · obtain ⟨v', hv', hcarries⟩ := h.reencrypt cx.quote cx.settingsKey hkey hnull (cx.nonce draw)
    obtain ⟨s, rfl⟩ := reencrypt_text cx.quote cx.settingsKey hv'
    exact ⟨s, x, hv', hcarries, ⟨fun _ => hnull, fun _ => rfl⟩⟩

/-! ### Notification templates -/

def NotificationTemplate.secrets (nt : NotificationTemplate) : List Slot :=
  (passwordFields nt.notificationType).map fun field =>
    (nt.use, nt.notificationConfiguration.get? field)

theorem passwordFields_nodup (t : NotificationType) : (passwordFields t).Nodup := by
  cases t <;> decide

/-- A save leaves a secret as it is. -/
theorem NotificationTemplate.saveField_of_carries {nt : NotificationTemplate} {key : Str}
    {x : Option Str} {s : String} (h : Carries cx.cipher key nt.use x (some (.str s)))
    (field : String) : nt.saveField cx field (.str s) = some (.str s) := by
  have hself := encrypt_of_carries h (.notificationSave nt.id field) nt.use [] false
  unfold NotificationTemplate.saveField
  dsimp only
  split_ifs
  · rfl
  · rw [hself]

/-- What the two loops make of each field. -/
theorem NotificationTemplate.of_regenerate {newKey : Str} {nt nt' : NotificationTemplate}
    (h : nt.regenerate cx newKey = some nt') :
    nt'.id = nt.id ∧ nt'.notificationType = nt.notificationType ∧
    ∀ field ∈ passwordFields nt.notificationType, ∃ v w w',
      nt.notificationConfiguration.get? field = some v ∧
      cx.reencrypt (.notification nt.id field) nt.use newKey v = some w ∧
      nt.saveField cx field w = some w' ∧ nt'.notificationConfiguration.get? field = some w' := by
  have hnodup := passwordFields_nodup nt.notificationType
  obtain ⟨config, hconfig, h⟩ := Option.bind_eq_some_iff.mp h
  obtain ⟨config', hconfig', h⟩ := Option.bind_eq_some_iff.mp h
  cases h
  refine ⟨rfl, rfl, fun field hfield => ?_⟩
  obtain ⟨w, hw, hget⟩ := (Dict.foldlM_modifyM_eq_some hnodup hconfig).1 field hfield
  obtain ⟨v, hv, hre⟩ := Option.bind_eq_some_iff.mp hw
  obtain ⟨w', hw', hget'⟩ := (Dict.foldlM_modifyM_eq_some hnodup hconfig').1 field hfield
  rw [hget, Option.bind_some] at hw'
  exact ⟨v, w, w', hv, hre, hw', hget'⟩

/-- The two loops go through where each field is there and can be stored. -/
theorem NotificationTemplate.exists_regenerate {newKey : Str} {nt : NotificationTemplate}
    (h : ∀ field ∈ passwordFields nt.notificationType, ∃ v w w',
      nt.notificationConfiguration.get? field = some v ∧
      cx.reencrypt (.notification nt.id field) nt.use newKey v = some w ∧
      nt.saveField cx field w = some w') : ∃ nt', nt.regenerate cx newKey = some nt' := by
  have hnodup := passwordFields_nodup nt.notificationType
  have hfirst : ∀ field ∈ passwordFields nt.notificationType, ∃ w,
      (nt.notificationConfiguration.get? field).bind
        (cx.reencrypt (.notification nt.id field) nt.use newKey) = some w := by
    intro field hfield
    obtain ⟨v, w, -, hv, hw, -⟩ := h field hfield
    exact ⟨w, by rw [hv, Option.bind_some, hw]⟩
  obtain ⟨config, hconfig⟩ := Dict.exists_foldlM_modifyM hnodup hfirst
  have hsecond : ∀ field ∈ passwordFields nt.notificationType, ∃ w',
      (config.get? field).bind (nt.saveField cx field) = some w' := by
    intro field hfield
    obtain ⟨v, w, w', hv, hw, hw'⟩ := h field hfield
    obtain ⟨u, hu, hget⟩ := (Dict.foldlM_modifyM_eq_some hnodup hconfig).1 field hfield
    rw [hv, Option.bind_some, hw] at hu
    exact ⟨w', by rw [hget, Option.bind_some, ← Option.some.inj hu, hw']⟩
  obtain ⟨config', hconfig'⟩ := Dict.exists_foldlM_modifyM hnodup hsecond
  refine ⟨{ nt with notificationConfiguration := config' }, ?_⟩
  unfold NotificationTemplate.regenerate
  simp only [hconfig, hconfig', Option.bind_eq_bind, Option.bind_some]

/-- A notification template keeps its secrets where each field is there and not null. -/
theorem NotificationTemplate.regenerate_iff {newKey : Str} (hkey : newKey ≠ [])
    {nt : NotificationTemplate} (h : Protected cx.cipher cx.settingsKey nt.secrets) :
    (∃ nt', nt.regenerate cx newKey = some nt' ∧
      List.Forall₂ (Kept cx.cipher cx.settingsKey newKey) nt.secrets nt'.secrets) ↔
    ∀ field ∈ passwordFields nt.notificationType,
      ∃ v, nt.notificationConfiguration.get? field = some v ∧ v ≠ .null := by
  -- what the two loops store under a field that is there
  have hstep : ∀ field ∈ passwordFields nt.notificationType, ∀ v,
      nt.notificationConfiguration.get? field = some v → ∃ w,
        cx.reencrypt (.notification nt.id field) nt.use newKey v = some w ∧
        nt.saveField cx field w = some w ∧
        (Kept cx.cipher cx.settingsKey newKey (nt.use, some v) (nt.use, some w) ↔ v ≠ .null) := by
    intro field hfield v hv
    obtain ⟨x, hx⟩ := h _ (List.mem_map_of_mem hfield)
    rw [hv] at hx
    obtain ⟨s, y, hre, hy, hxy⟩ := reencrypt_spec hkey hx (.notification nt.id field)
    exact ⟨.str s, hre, NotificationTemplate.saveField_of_carries hy field, (kept_iff hx hy).trans hxy⟩
  have hkept : ∀ {nt'}, nt.regenerate cx newKey = some nt' →
      (List.Forall₂ (Kept cx.cipher cx.settingsKey newKey) nt.secrets nt'.secrets ↔
        ∀ field ∈ passwordFields nt.notificationType,
          ∃ v, nt.notificationConfiguration.get? field = some v ∧ v ≠ .null) := by
    intro nt' hreg
    obtain ⟨hid, htype, hfields⟩ := NotificationTemplate.of_regenerate hreg
    have huse : nt'.use = nt.use := by rw [NotificationTemplate.use, hid]; rfl
    rw [NotificationTemplate.secrets, NotificationTemplate.secrets, htype, huse,
      List.forall₂_map_left_iff, List.forall₂_map_right_iff, List.forall₂_same]
    refine forall₂_congr fun field hfield => ?_
    obtain ⟨v, w, w', hv, hw, hw', hget⟩ := hfields field hfield
    obtain ⟨u, hu, hsave, hiff⟩ := hstep field hfield v hv
    have hwu : w = u := Option.some.inj (hw.symm.trans hu)
    subst hwu
    have hww : w' = w := Option.some.inj (hw'.symm.trans hsave)
    rw [hget, hww, hv, hiff]
    constructor
    · exact fun hne => ⟨v, rfl, hne⟩
    · rintro ⟨_, heq, hne⟩
      rw [Option.some.inj heq]
      exact hne
  constructor
  · rintro ⟨nt', hreg, hall⟩
    exact (hkept hreg).mp hall
  · intro hall
    obtain ⟨nt', hreg⟩ := NotificationTemplate.exists_regenerate fun field hfield => by
      obtain ⟨v, hv, -⟩ := hall field hfield
      obtain ⟨w, hw, hsave, -⟩ := hstep field hfield v hv
      exact ⟨v, w, w, hv, hw, hsave⟩
    exact ⟨nt', hreg, (hkept hreg).mpr hall⟩

/-! ### Unified jobs, applications and settings -/

def UnifiedJob.secrets (uj : UnifiedJob) : List Slot := [(uj.use, some uj.startArgs)]

/-- The only secret of a row. -/
theorem forall₂_single {cipher : Cipher ν} {s t : Str} {slot slot' : Slot} :
    List.Forall₂ (Kept cipher s t) [slot] [slot'] ↔ Kept cipher s t slot slot' := by
  rw [List.forall₂_cons, and_iff_left .nil]

/-- A unified job always keeps its start arguments. -/
theorem UnifiedJob.exists_regenerate {newKey : Str} (hkey : newKey ≠ []) {uj : UnifiedJob}
    (h : Protected cx.cipher cx.settingsKey uj.secrets) :
    ∃ uj', uj.regenerate cx newKey = some uj' ∧
      List.Forall₂ (Kept cx.cipher cx.settingsKey newKey) uj.secrets uj'.secrets := by
  obtain ⟨x, hx⟩ := h _ List.mem_cons_self
  unfold UnifiedJob.regenerate
  cases x with
  | none =>
    have hempty : Carries cx.cipher newKey uj.use none (some uj.startArgs) := hx
    rw [if_neg (by rw [hx.not_truth]; decide)]
    exact ⟨uj, rfl, forall₂_single.mpr ((kept_iff hx hempty).mpr rfl)⟩
  | some x =>
    have hne : uj.startArgs ≠ .null := by
      intro hnull
      have htruth := hx.truth
      rw [hnull] at htruth
      cases htruth
    obtain ⟨s, y, hre, hy, hxy⟩ := reencrypt_spec hkey hx (.startArgs uj.id)
    rw [if_pos hx.truth, hre]
    exact ⟨_, rfl, forall₂_single.mpr ((kept_iff hx hy).mpr (hxy.mpr hne))⟩

def OAuth2Application.secrets (app : OAuth2Application) : List Slot :=
  [(valueUse, some app.clientSecret)]

theorem fromDbValue_of_carries {x : Option Str} {v : Value}
    (h : Carries cx.cipher cx.settingsKey valueUse x (some v)) :
    fromDbValue cx v = some (x.elim v fun x => .str (String.ofList x)) := by
  cases x with
  | none =>
    rcases h with h | h | h
    · cases h
    · rw [Option.some.inj h]
      rfl
    · rw [Option.some.inj h]
      rfl
  | some x =>
    have hdecrypt := h.decryptValue
    obtain ⟨-, nonce, hv⟩ := h
    rw [Option.some.inj hv] at hdecrypt ⊢
    unfold fromDbValue
    dsimp only
    rw [String.toList_ofList, if_pos (marker_of_token _ _ _ _), getEncryptionKey_nil]
    exact hdecrypt

/-- An application always keeps its client secret. -/
theorem OAuth2Application.exists_regenerate {newKey : Str} (hkey : newKey ≠ [])
    {app : OAuth2Application} (h : Protected cx.cipher cx.settingsKey app.secrets) :
    ∃ app', app.regenerate cx newKey = some app' ∧
      List.Forall₂ (Kept cx.cipher cx.settingsKey newKey) app.secrets app'.secrets := by
  obtain ⟨x, hx⟩ := h _ List.mem_cons_self
  unfold OAuth2Application.regenerate
  rw [fromDbValue_of_carries hx]
  refine ⟨_, rfl, forall₂_single.mpr ((kept_iff hx ?_).mpr rfl)⟩
  cases x with
  | none =>
    have hempty : Carries cx.cipher newKey valueUse none (some app.clientSecret) := hx
    change Carries cx.cipher newKey valueUse none (some (cx.encrypt _ _ _ _ (cx.encrypt _ _ _ _ _)))
    rw [Option.elim_none, encrypt_of_carries hempty, encrypt_of_carries hempty]
    exact hempty
  | some x =>
    have hnew : Carries cx.cipher newKey valueUse (some x)
        (some (cx.encrypt (.client app.id) valueUse newKey false (.str (String.ofList x)))) :=
      encryptField_secret cx.quote cx.settingsKey _ hkey hx.1
    change Carries cx.cipher newKey valueUse (some x)
      (some (cx.encrypt _ _ _ _ (cx.encrypt _ _ _ _ (.str (String.ofList x)))))
    rw [encrypt_of_carries hnew]
    exact hnew

def Setting.secrets (cx : Context ν) (setting : Setting) : List Slot :=
  if cx.isSettingEncrypted setting.key then [(setting.use, some setting.value)] else []

/-- A setting keeps its value where it is not encrypted or not null. -/
theorem Setting.regenerate_iff {newKey : Str} (hkey : newKey ≠ []) {setting : Setting}
    (h : Protected cx.cipher cx.settingsKey (setting.secrets cx)) :
    (∃ setting', setting.regenerate cx newKey = some setting' ∧
      List.Forall₂ (Kept cx.cipher cx.settingsKey newKey) (setting.secrets cx)
        (setting'.secrets cx)) ↔
    (cx.isSettingEncrypted setting.key = true → setting.value ≠ .null) := by
  unfold Setting.regenerate
  by_cases henc : cx.isSettingEncrypted setting.key = true
  · have hsecrets : setting.secrets cx = [(setting.use, some setting.value)] := if_pos henc
    rw [hsecrets] at h
    obtain ⟨x, hx⟩ := h _ List.mem_cons_self
    obtain ⟨s, y, hre, hy, hxy⟩ := reencrypt_spec hkey hx (.setting setting.id)
    have hself := encrypt_of_carries hy (.settingSave setting.id) setting.use [] false
    rw [if_pos henc, hre, hsecrets]
    have hiff : List.Forall₂ (Kept cx.cipher cx.settingsKey newKey) [(setting.use, some setting.value)]
        (Setting.secrets cx { setting with value := .str s }) ↔ setting.value ≠ .null := by
      rw [show Setting.secrets cx { setting with value := .str s } =
        [(setting.use, some (.str s))] from if_pos henc, forall₂_single, kept_iff hx hy, hxy]
    constructor
    · rintro ⟨setting', heq, hkept⟩ -
      have hset : setting' = { setting with value := .str s } := by
        rw [← Option.some.inj heq, hself]
      rw [hset] at hkept
      exact hiff.mp hkept
    · intro hne
      refine ⟨{ setting with value := .str s }, ?_, hiff.mpr (hne henc)⟩
      change some _ = _
      rw [hself]
  · have hsecrets : setting.secrets cx = [] := if_neg henc
    rw [if_neg henc]
    refine ⟨fun _ => fun h => absurd h henc, fun _ => ⟨setting, rfl, ?_⟩⟩
    rw [hsecrets]
    exact .nil

end Rows

end Forail.Commands.RegenerateSecretKey
