import Forail.Base.Value
import Mathlib.Data.Finmap

/-! Variables of imported hosts and groups, and what the import reads from them: the instance
ID and the enabled flag, each at a path into nested dictionaries. -/

namespace Forail.InventoryImport

/-- The variables of a host or a group, as a dictionary: the order of the keys does not count. -/
abbrev Variables := Finmap fun _ : String => Value

/-- `==` of two dictionaries of variables. -/
def Variables.eq (vars vars' : Variables) : Bool :=
  decide (∀ key ∈ vars.keys ∪ vars'.keys, eqAt (vars.lookup key) (vars'.lookup key) = true)

/-- The options of the import and the inventory's kind. `enabled_var` is split at its dots, and
`instance_id_var` at its commas and then at dots; both are empty when unset. -/
structure Settings where
  overwrite : Bool
  overwriteVars : Bool
  constructed : Bool
  enabledVar : List String
  enabledValue : Option String
  instanceIdVar : List (List String)

/-- What of Python's text functions the import uses: the quoted text of a string, `lower`, and
the search for inline expressions of `sanitize_jinja`. -/
structure Text where
  quote : String → String
  lower : String → String
  jinja : String → Bool

section Definitions
variable (text : Text) (set : Settings)

def instanceIdAt (vars : Variables) : List String → Value
  | [] => .str ""
  | key :: keys => ((vars.lookup key).getD (.str "")).follow keys

/-- The first of the paths with a true value, or the value at the last one. -/
def instanceIdValue (vars : Variables) : List (List String) → Value
  | [] => .str ""
  | [path] => instanceIdAt vars path
  | path :: paths =>
    if (instanceIdAt vars path).truth then instanceIdAt vars path
    else instanceIdValue vars paths

/-- `_get_instance_id`. -/
def getInstanceId (vars : Variables) : String :=
  (instanceIdValue vars set.instanceIdVar).smartStr text.quote

/-- `_get_enabled`. -/
def getEnabled (vars : Variables) : Option Bool :=
  match set.enabledVar with
  | [] => none
  | key :: keys => do
    let top ← vars.lookup key
    let enabled ← top.at? keys
    match set.enabledValue with
    | some enabledValue => some (text.lower enabledValue = text.lower (enabled.smartStr text.quote))
    | none => some enabled.truth

/-- The variables that constructed inventories do not keep. -/
def remoteVariables : List String :=
  ["remote_host_enabled", "remote_host_id", "remote_tower_enabled", "remote_tower_id"]

def removeRemote (vars : Variables) : Variables :=
  if set.constructed then remoteVariables.foldl (fun vs key => vs.erase key) vars
  else vars

/-- `db_vars` after the merge: those of the data, over the stored ones without the option. -/
def mergeVariables (stored vars : Variables) : Variables :=
  if set.overwriteVars then vars else vars ∪ stored

/-- The key that carries a description. -/
def descriptionKey : String := "_awx_description"

/-- The data has no description, and no enabled flag that a constructed inventory removes. -/
structure Plain (vars : Variables) : Prop where
  description : descriptionKey ∉ vars
  enabled : set.constructed = true → ∀ key ∈ set.enabledVar.head?, key ∈ remoteVariables → key ∉ vars

end Definitions

section Lemmas
variable {text : Text} {set : Settings} {vars : Variables}

theorem erase_of_not_mem {key : String} (h : key ∉ vars) : vars.erase key = vars := by
  refine Finmap.ext_lookup fun k => ?_
  by_cases hk : k = key
  · rw [hk, Finmap.lookup_erase, Finmap.lookup_eq_none.mpr h]
  · exact Finmap.lookup_erase_ne hk

theorem lookup_foldl_erase (keys : List String) (vars : Variables) (k : String) :
    (keys.foldl (fun vs key => vs.erase key) vars).lookup k =
      if k ∈ keys then none else vars.lookup k := by
  induction keys generalizing vars with
  | nil => rfl
  | cons key keys ih =>
    rw [List.foldl_cons, ih]
    by_cases hk : k = key
    · rw [hk, Finmap.lookup_erase, if_pos List.mem_cons_self, ite_self]
    · rw [Finmap.lookup_erase_ne hk]
      simp only [List.mem_cons, hk, false_or]

/-- A variable is kept or, in a constructed inventory, removed. -/
theorem lookup_removeRemote (k : String) : (removeRemote set vars).lookup k =
    if set.constructed = true ∧ k ∈ remoteVariables then none else vars.lookup k := by
  unfold removeRemote
  by_cases hc : set.constructed = true
  · rw [if_pos hc, lookup_foldl_erase]
    simp only [hc, true_and]
  · rw [if_neg hc, if_neg fun h => hc h.1]

theorem removeRemote_removeRemote : removeRemote set (removeRemote set vars) = removeRemote set vars := by
  refine Finmap.ext_lookup fun k => ?_
  rw [lookup_removeRemote, lookup_removeRemote]
  split_ifs <;> rfl

/-- What a constructed inventory removes does not change the flag of plain data. -/
theorem Plain.getEnabled_removeRemote (h : Plain set vars) :
    getEnabled text set (removeRemote set vars) = getEnabled text set vars := by
  unfold getEnabled
  cases hv : set.enabledVar with
  | nil => rfl
  | cons key keys =>
    dsimp only
    rw [lookup_removeRemote]
    split_ifs with hr
    · have hnone := h.enabled hr.1 key (by rw [hv]; rfl) hr.2
      rw [Finmap.lookup_eq_none.mpr hnone]
    · rfl

/-- Without the removed variables a path leads to the same value, or to none. -/
theorem instanceIdAt_removeRemote (path : List String) :
    instanceIdAt (removeRemote set vars) path = instanceIdAt vars path ∨
      instanceIdAt (removeRemote set vars) path = .str "" := by
  cases path with
  | nil => exact .inl rfl
  | cons key keys =>
    simp only [instanceIdAt]
    rw [lookup_removeRemote]
    split_ifs
    · exact .inr (Value.follow_empty keys)
    · exact .inl rfl

theorem instanceIdValue_cons (path path' : List String) (paths : List (List String)) :
    instanceIdValue vars (path :: path' :: paths) =
      if (instanceIdAt vars path).truth then instanceIdAt vars path
      else instanceIdValue vars (path' :: paths) := rfl

theorem instanceIdValue_removeRemote {paths : List (List String)}
    (h : instanceIdValue vars paths = .str "") :
    instanceIdValue (removeRemote set vars) paths = .str "" := by
  induction paths with
  | nil => rfl
  | cons path paths ih =>
    have hat : instanceIdAt (removeRemote set vars) path = instanceIdAt vars path ∨
        instanceIdAt (removeRemote set vars) path = .str "" := instanceIdAt_removeRemote path
    cases paths with
    | nil =>
      rcases hat with heq | heq
      · exact heq.trans h
      · exact heq
    | cons path' paths =>
      rw [instanceIdValue_cons] at h ⊢
      by_cases ht : (instanceIdAt vars path).truth = true
      · rw [if_pos ht] at h
        rw [h] at ht
        cases ht
      · rw [if_neg ht] at h
        have ht' : ¬(instanceIdAt (removeRemote set vars) path).truth = true := by
          rcases hat with heq | heq
          · rw [heq]
            exact ht
          · rw [heq]
            nofun
        rw [if_neg ht']
        exact ih h

/-- Data without an instance ID leaves stored variables without one. -/
theorem getInstanceId_removeRemote (h : getInstanceId text set vars = "") :
    getInstanceId text set (removeRemote set vars) = "" := by
  unfold getInstanceId at h ⊢
  rw [instanceIdValue_removeRemote (Value.smartStr_eq_empty h)]
  rfl

theorem eq_lookup {vars vars' : Variables} (h : vars.eq vars' = true) (key : String) :
    eqAt (vars.lookup key) (vars'.lookup key) = true := by
  by_cases hk : key ∈ vars.keys ∪ vars'.keys
  · exact of_decide_eq_true h key hk
  · rw [Finset.mem_union, not_or, Finmap.mem_keys, Finmap.mem_keys] at hk
    rw [Finmap.lookup_eq_none.mpr hk.1, Finmap.lookup_eq_none.mpr hk.2]
    rfl

theorem instanceIdAt_eq {vars vars' : Variables} (h : vars.eq vars' = true) (path : List String) :
    (instanceIdAt vars path).eq (instanceIdAt vars' path) = true := by
  cases path with
  | nil => rfl
  | cons key keys => exact Value.eq_follow (Value.eqAt_getD (eq_lookup h key)) keys

theorem instanceIdValue_eq {vars vars' : Variables} (h : vars.eq vars' = true)
    (paths : List (List String)) :
    (instanceIdValue vars paths).eq (instanceIdValue vars' paths) = true := by
  induction paths with
  | nil => rfl
  | cons path paths ih =>
    have hat := instanceIdAt_eq h path
    cases paths with
    | nil => exact hat
    | cons path' paths =>
      rw [instanceIdValue_cons, instanceIdValue_cons, Value.eq_truth hat]
      split_ifs
      · exact hat
      · exact ih

theorem getInstanceId_eq {vars vars' : Variables} (h : vars.eq vars' = true)
    (hid : getInstanceId text set vars = "") : getInstanceId text set vars' = "" := by
  have heq := instanceIdValue_eq h set.instanceIdVar
  unfold getInstanceId at hid ⊢
  rw [Value.smartStr_eq_empty hid] at heq
  rw [Value.eq_empty heq]
  rfl

theorem getInstanceId_unset (h : set.instanceIdVar = []) : getInstanceId text set vars = "" := by
  unfold getInstanceId
  rw [h]
  rfl

end Lemmas

end Forail.InventoryImport
