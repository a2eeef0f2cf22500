import Forail.Commands.RotatedSecrets

/-! The secret inputs of a credential. The command saves it after each field, and a save deletes the inputs
that are empty; so a null is taken for a text only in the first field, which is re-encrypted before the
first save. -/

namespace Forail.Commands.RegenerateSecretKey

open Encryption

variable {ν : Type} {cx : Context ν}

def Credential.secrets (credential : Credential) : List Slot :=
  credential.secretFields.map fun field => (credential.use field, credential.inputs.get? field)

/-! ### A save -/

/-- What the first loop of a save makes of a value. -/
def restored (before : Dict String Value) (field : String) (v : Option Value) : Option Value :=
  match v with
  | some (.str s) => if s = "$encrypted$" then some ((before.get? field).getD (.str s)) else v
  | _ => v

theorem get?_restoreField (before d : Dict String Value) (field field' : String) :
    (Credential.restoreField before d field).get? field' =
      if field' = field then restored before field (d.get? field) else d.get? field' := by
  unfold Credential.restoreField
  by_cases hfield : field' = field
  · subst hfield
    rw [if_pos rfl]
    cases hv : d.get? field' with
    | none => exact hv
    | some v =>
      cases v with
      | str s =>
        dsimp only [restored]
        split_ifs
        · rw [Dict.get?_set, if_pos rfl]
        · exact hv
      | _ => exact hv
  · rw [if_neg hfield]
    split
    · split_ifs
      · rw [Dict.get?_set, if_neg hfield]
      · rfl
    · rfl

/-- What the second loop makes of it. -/
def cleaned (cx : Context ν) (credential : Credential) (round field : String) (v : Option Value) :
    Option Value :=
  v.bind fun v =>
    let encrypted := cx.encrypt (.credentialSave credential.id round field) (credential.use field) []
      (field ∈ credential.askableFields) v
    if encrypted.truth then some encrypted else none

theorem get?_encryptField (credential : Credential) (round : String) (d : Dict String Value)
    (field field' : String) :
    (credential.encryptField cx round d field).get? field' =
      if field' = field then cleaned cx credential round field (d.get? field) else d.get? field' := by
  unfold Credential.encryptField cleaned
  by_cases hfield : field' = field
  · subst hfield
    rw [if_pos rfl]
    split
    · rename_i hnone
      rw [hnone]
      rfl
    · rename_i v hv
      rw [hv, Option.bind_some]
      dsimp only
      split_ifs
      · rw [Dict.get?_set, if_pos rfl]
      · rw [Dict.get?_erase, if_pos rfl]
  · rw [if_neg hfield]
    split
    · rfl
    · dsimp only
      split_ifs
      · rw [Dict.get?_set, if_neg hfield]
      · rw [Dict.get?_erase, if_neg hfield]

theorem restored_of_carries {s : Str} {use : Use} {x : Option Str} {v : Option Value}
    (h : Carries cx.cipher s use x v) (before : Dict String Value) (field : String) :
    restored before field v = v := by
  unfold restored
  split
  · rename_i t
    refine if_neg fun ht => ?_
    subst ht
    cases x with
    | none =>
      rcases h with h | h | h
      · cases h
      · cases h
      · exact absurd (Value.str.inj (Option.some.inj h)) (by decide)
    | some x =>
      obtain ⟨-, nonce, hv⟩ := h
      have htext := congrArg String.toList (Value.str.inj (Option.some.inj hv))
      rw [String.toList_ofList, String.toList_ofList] at htext
      -- what follows the marker is not empty
      have hrest : true = false := congrArg (fun s => (s.drop 11).isEmpty) htext
      cases hrest
  · rfl

/-- A save keeps what an input stands for, and leaves none that is null. -/
theorem Credential.save_spec {credential : Credential} {round field : String} {s : Str}
    {x : Option Str} {before inputs : Dict String Value} (hfield : field ∈ credential.secretFields)
    (h : Carries cx.cipher s (credential.use field) x (inputs.get? field)) :
    Carries cx.cipher s (credential.use field) x
        ((credential.save cx round before inputs).get? field) ∧
      (credential.save cx round before inputs).get? field ≠ some .null := by
  have hrestored : (if before.entries.isEmpty then inputs
      else credential.secretFields.foldl (Credential.restoreField before) inputs).get? field =
        inputs.get? field := by
    split_ifs
    · rfl
    · rw [Dict.get?_foldl_own _ (get?_restoreField before) credential.nodup, if_pos hfield,
        restored_of_carries h]
  have hget : (credential.save cx round before inputs).get? field =
      cleaned cx credential round field (inputs.get? field) := by
    unfold Credential.save
    rw [Dict.get?_foldl_own _ (get?_encryptField credential round) credential.nodup, if_pos hfield,
      hrestored]
  rw [hget]
  cases hv : inputs.get? field with
  | none =>
    rw [hv] at h
    exact ⟨h, nofun⟩
  | some v =>
    rw [hv] at h
    have hself := encrypt_of_carries h (.credentialSave credential.id round field)
      (credential.use field) [] (field ∈ credential.askableFields)
    rw [cleaned, Option.bind_some]
    dsimp only
    rw [hself]
    cases x with
    | none =>
      rw [if_neg (by rw [h.not_truth]; decide)]
      exact ⟨carries_none, nofun⟩
    | some x =>
      rw [if_pos h.truth]
      refine ⟨h, fun hnull => ?_⟩
      have htruth := h.truth
      rw [Option.some.inj hnull] at htruth
      cases htruth

/-! ### The rounds -/

/-- A round re-encrypts its field; the other fields only pass a save. -/
theorem Credential.round_spec {newKey : Str} (hkey : newKey ≠ []) {credential : Credential}
    {inputs : Dict String Value} {field : String} (hfield : field ∈ credential.secretFields)
    {x : Option Str}
    (h : Carries cx.cipher cx.settingsKey (credential.use field) x (inputs.get? field)) :
    ∃ inputs' y, credential.round cx newKey inputs field = some inputs' ∧
      Carries cx.cipher newKey (credential.use field) y (inputs'.get? field) ∧
      (y = x ↔ inputs.get? field ≠ some .null) ∧
      ∀ field' ∈ credential.secretFields, field' ≠ field → ∀ s z,
        Carries cx.cipher s (credential.use field') z (inputs.get? field') →
        Carries cx.cipher s (credential.use field') z (inputs'.get? field') ∧
          inputs'.get? field' ≠ some .null := by
  unfold Credential.round
  cases hv : inputs.get? field with
  | none =>
    rw [hv] at h
    have hx : x = none := carries_inj h carries_none
    subst hx
    have hempty : Carries cx.cipher newKey (credential.use field) none (inputs.get? field) := by
      rw [hv]
      exact carries_none
    refine ⟨_, none, rfl, (Credential.save_spec hfield hempty).1, ⟨fun _ => nofun, fun _ => rfl⟩, ?_⟩
    intro field' hfield' _ s z hz
    exact Credential.save_spec hfield' hz
  | some v =>
    rw [hv] at h
    obtain ⟨s, y, hre, hy, hxy⟩ := reencrypt_spec hkey h (.credential credential.id field)
    simp only [hre]
    have hset : Carries cx.cipher newKey (credential.use field) y
        ((inputs.set field (.str s)).get? field) := by
      rw [Dict.get?_set, if_pos rfl]
      exact hy
    refine ⟨_, y, rfl, (Credential.save_spec hfield hset).1, ?_, ?_⟩
    · rw [hxy, ne_eq, ne_eq, Option.some_inj]
    · intro field' hfield' hne t z hz
      have hother : Carries cx.cipher t (credential.use field') z
          ((inputs.set field (.str s)).get? field') := by
        rw [Dict.get?_set, if_neg hne]
        exact hz
      exact Credential.save_spec hfield' hother

/-- Rounds over fields that are not null keep what each field stands for. -/
theorem Credential.rounds_spec {newKey : Str} (hkey : newKey ≠ []) {credential : Credential}
    {fields : List String} (hsub : ∀ field ∈ fields, field ∈ credential.secretFields)
    (hnodup : fields.Nodup) {y : String → Option Str} {inputs : Dict String Value}
    (htodo : ∀ field ∈ fields,
      Carries cx.cipher cx.settingsKey (credential.use field) (y field) (inputs.get? field) ∧
        inputs.get? field ≠ some .null)
    (hdone : ∀ field ∈ credential.secretFields, field ∉ fields →
      Carries cx.cipher newKey (credential.use field) (y field) (inputs.get? field)) :
    ∃ inputs', fields.foldlM (credential.round cx newKey) inputs = some inputs' ∧
      ∀ field ∈ credential.secretFields,
        Carries cx.cipher newKey (credential.use field) (y field) (inputs'.get? field) := by
  induction fields generalizing inputs with
  | nil => exact ⟨inputs, rfl, fun field hfield => hdone field hfield List.not_mem_nil⟩
  | cons field fields ih =>
    obtain ⟨hfresh, hnodup⟩ := List.nodup_cons.mp hnodup
    obtain ⟨hcarries, hnull⟩ := htodo field List.mem_cons_self
    obtain ⟨inputs₁, z, hround, hz, hzy, hother⟩ :=
      Credential.round_spec hkey (hsub field List.mem_cons_self) hcarries
    rw [hzy.mpr hnull] at hz
    rw [List.foldlM_cons, hround]
    refine ih (fun f hf => hsub f (List.mem_cons_of_mem _ hf)) hnodup ?_ ?_
    · intro f hf
      have hne : f ≠ field := fun heq => hfresh (heq ▸ hf)
      exact hother f (hsub f (List.mem_cons_of_mem _ hf)) hne _ _
        (htodo f (List.mem_cons_of_mem _ hf)).1
    · intro f hf hmem
      by_cases heq : f = field
      · rw [heq]
        exact hz
      · refine (hother f hf heq _ _ (hdone f hf ?_)).1
        rw [List.mem_cons, not_or]
        exact ⟨heq, hmem⟩

/-- A credential keeps its secrets where the first of its secret fields is not null. -/
theorem Credential.regenerate_iff {newKey : Str} (hkey : newKey ≠ []) {credential : Credential}
    (h : Protected cx.cipher cx.settingsKey credential.secrets) :
    (∃ credential', credential.regenerate cx newKey = some credential' ∧
      List.Forall₂ (Kept cx.cipher cx.settingsKey newKey) credential.secrets credential'.secrets) ↔
    ∀ field ∈ credential.secretFields.head?, credential.inputs.get? field ≠ some .null := by
  have hcarries : ∀ field ∈ credential.secretFields, ∃ x,
      Carries cx.cipher cx.settingsKey (credential.use field) x (credential.inputs.get? field) :=
    fun field hfield => h _ (List.mem_map_of_mem hfield)
  choose! x hx using hcarries
  -- the outcome of the rounds, where `y` is what each field stands for in the end
  have houtcome : ∀ (y : String → Option Str) (inputs' : Dict String Value),
      credential.secretFields.foldlM (credential.round cx newKey) credential.inputs = some inputs' →
      (∀ field ∈ credential.secretFields,
        Carries cx.cipher newKey (credential.use field) (y field) (inputs'.get? field)) →
      ((∃ credential', credential.regenerate cx newKey = some credential' ∧
        List.Forall₂ (Kept cx.cipher cx.settingsKey newKey) credential.secrets
          credential'.secrets) ↔ ∀ field ∈ credential.secretFields, y field = x field) := by
    intro y inputs' hfold hy
    have hreg : credential.regenerate cx newKey = some { credential with inputs := inputs' } := by
      unfold Credential.regenerate
      rw [hfold]
      rfl
    have hkept : List.Forall₂ (Kept cx.cipher cx.settingsKey newKey) credential.secrets
        (Credential.secrets { credential with inputs := inputs' }) ↔
        ∀ field ∈ credential.secretFields, y field = x field := by
      rw [Credential.secrets, Credential.secrets, List.forall₂_map_left_iff,
        List.forall₂_map_right_iff, List.forall₂_same]
      exact forall₂_congr fun field hfield => kept_iff (hx field hfield) (hy field hfield)
    rw [hreg]
    constructor
    · rintro ⟨_, heq, hall⟩
      cases heq
      exact hkept.mp hall
    · exact fun hall => ⟨_, rfl, hkept.mpr hall⟩
  have hnodup := credential.nodup
  cases hfields : credential.secretFields with
  | nil =>
    rw [houtcome x credential.inputs (by rw [hfields]; rfl) (by rw [hfields]; nofun), hfields]
    exact ⟨fun _ => nofun, fun _ => nofun⟩
  | cons field fields =>
    have hmem : ∀ f, f = field ∨ f ∈ fields → f ∈ credential.secretFields := by
      intro f hf
      rw [hfields]
      exact List.mem_cons.mpr hf
    rw [hfields] at hnodup
    obtain ⟨hfresh, hnodup⟩ := List.nodup_cons.mp hnodup
    obtain ⟨inputs₁, z, hround, hz, hzx, hother⟩ :=
      Credential.round_spec hkey (hmem field (.inl rfl)) (hx field (hmem field (.inl rfl)))
    have hne : ∀ f ∈ fields, f ≠ field := fun f hf heq => hfresh (heq ▸ hf)
    have htodo : ∀ f ∈ fields,
        Carries cx.cipher cx.settingsKey (credential.use f) (Function.update x field z f)
          (inputs₁.get? f) ∧ inputs₁.get? f ≠ some .null := by
      intro f hf
      rw [Function.update_of_ne (hne f hf)]
      exact hother f (hmem f (.inr hf)) (hne f hf) _ _ (hx f (hmem f (.inr hf)))
    have hdone : ∀ f ∈ credential.secretFields, f ∉ fields →
        Carries cx.cipher newKey (credential.use f) (Function.update x field z f)
          (inputs₁.get? f) := by
      intro f hf hnot
      rw [hfields, List.mem_cons] at hf
      rw [hf.resolve_right hnot, Function.update_self]
      exact hz
    obtain ⟨inputs', hfold, hy⟩ := Credential.rounds_spec hkey
      (fun f hf => hmem f (.inr hf)) hnodup htodo hdone
    have hall : credential.secretFields.foldlM (credential.round cx newKey) credential.inputs =
        some inputs' := by
      rw [hfields, List.foldlM_cons, hround]
      exact hfold
    rw [houtcome _ inputs' hall hy, hfields, List.head?_cons]
    constructor
    · intro hsame f hf
      cases hf
      have hfield := hsame field List.mem_cons_self
      rw [Function.update_self] at hfield
      exact hzx.mp hfield
    · intro hnull f hf
      by_cases heq : f = field
      · rw [heq, Function.update_self]
        exact hzx.mpr (hnull field rfl)
      · rw [Function.update_of_ne heq]

end Forail.Commands.RegenerateSecretKey
