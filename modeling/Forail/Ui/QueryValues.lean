import Forail.Ui.QueryStrings
import Mathlib.Data.List.Basic
import Mathlib.Data.List.Induction

/-! Merged values. Values that are merged one by one give each of them once, in the order in which they come
first. So it does not matter whether a value comes more than once, and what a key inherits comes first. -/

namespace Forail.QueryStrings

/-! ### Lists without duplicates -/

section Lists

variable {α γ : Type} [BEq α] [LawfulBEq α] [BEq γ] [LawfulBEq γ]

theorem nodup_eraseDups (l : List α) : l.eraseDups.Nodup := by
  induction h : l.length using Nat.strong_induction_on generalizing l with
  | _ n ih =>
    subst h
    cases l with
    | nil => exact List.nodup_nil
    | cons a l =>
      rw [List.eraseDups_cons, List.nodup_cons]
      refine ⟨by simp [List.mem_eraseDups], ih _ ?_ _ rfl⟩
      exact Nat.lt_succ_of_le (List.length_filter_le _ l)

omit [LawfulBEq α] in
theorem eraseDups_eq_nil {l : List α} : l.eraseDups = [] ↔ l = [] := by
  cases l with
  | nil => exact iff_of_true rfl rfl
  | cons a l => simp [List.eraseDups_cons]

theorem eraseDups_of_nodup {l : List α} (h : l.Nodup) : l.eraseDups = l := by
  induction l with
  | nil => rfl
  | cons a l ih =>
    rw [List.nodup_cons] at h
    have hfilter : (l.filter fun b => !b == a) = l := by
      apply List.filter_eq_self.mpr
      intro b hb
      have hne : b ≠ a := fun heq => h.1 (heq ▸ hb)
      simpa using hne
    rw [List.eraseDups_cons, hfilter, ih h.2]

theorem eraseDups_append_of_subset {a b : List α} (h : ∀ x ∈ b, x ∈ a) : (a ++ b).eraseDups = a.eraseDups := by
  have hremove : b.removeAll a = [] := by
    apply List.filter_eq_nil_iff.mpr
    intro x hx
    simpa using h x hx
  rw [List.eraseDups_append, hremove, List.eraseDups_nil, List.append_nil]

theorem eraseDups_append_congr {a a' : List α} (h : a.eraseDups = a'.eraseDups) (b : List α) :
    (a ++ b).eraseDups = (a' ++ b).eraseDups := by
  have hmem : ∀ x, x ∈ a ↔ x ∈ a' := by
    intro x
    rw [← List.mem_eraseDups, h, List.mem_eraseDups]
  have hremove : b.removeAll a = b.removeAll a' := by
    apply List.filter_congr
    intro x _
    simp [hmem x]
  rw [List.eraseDups_append, List.eraseDups_append, h, hremove]

theorem eraseDups_eraseDups_append (a b : List α) : (a.eraseDups ++ b).eraseDups = (a ++ b).eraseDups :=
  eraseDups_append_congr (eraseDups_of_nodup (nodup_eraseDups a)) b

theorem eraseDups_concat (l : List α) (v : α) :
    (l ++ [v]).eraseDups = if v ∈ l then l.eraseDups else l.eraseDups ++ [v] := by
  split_ifs with hv
  · exact eraseDups_append_of_subset (by simpa using hv)
  · have hremove : [v].removeAll l = [v] := by
      apply List.filter_eq_self.mpr
      simpa using hv
    rw [List.eraseDups_append, hremove]
    rfl

/-- What comes of a value that has come before adds nothing. -/
theorem eraseDups_flatMap_eraseDups (l : List α) (vs : List γ) (f : γ → List α) :
    (l ++ vs.eraseDups.flatMap f).eraseDups = (l ++ vs.flatMap f).eraseDups := by
  induction vs using List.reverseRecOn with
  | nil => rfl
  | append_singleton vs v ih =>
    rw [eraseDups_concat, List.flatMap_append, ← List.append_assoc]
    split_ifs with hv
    · rw [ih]
      refine (eraseDups_append_of_subset fun x hx => ?_).symm
      rw [List.flatMap_singleton] at hx
      exact List.mem_append_right l (List.mem_flatMap.mpr ⟨v, hv, hx⟩)
    · rw [List.flatMap_append, ← List.append_assoc]
      exact eraseDups_append_congr ih _

end Lists

/-! ### Merging -/

variable {β : Type}

/-- The value of a list of items. -/
def collapse : List (Item β) → Val β
  | [] => .undefined
  | [i] => .one i
  | items => .many none items

/-- The items that a value brings. -/
def kept (v : Val β) : List (Item β) := if v.isMissing then [] else v.items

theorem items_collapse (l : List (Item β)) : (collapse l).items = l := by
  match l with
  | [] => rfl
  | [_] => rfl
  | _ :: _ :: _ => rfl

theorem collapse_injective {l l' : List (Item β)} (h : collapse l = collapse l') : l = l' := by
  rw [← items_collapse l, h, items_collapse]

/-- No item of a list counts as missing. -/
def Present (l : List (Item β)) : Prop := ∀ i ∈ l, (Val.one i).isMissing = false

theorem isMissing_collapse {l : List (Item β)} (hl : Present l) (h : l ≠ []) : (collapse l).isMissing = false := by
  match l, h with
  | [i], _ => exact hl i List.mem_cons_self
  | _ :: _ :: _, _ => rfl

theorem present_kept {v : Val β} (h : ∀ a items, v ≠ .many a items) : Present (kept v) := by
  intro i hi
  rw [kept] at hi
  split_ifs at hi with hv
  · cases hi
  · cases v with
    | one j =>
      obtain rfl := List.mem_singleton.mp hi
      simpa using hv
    | many a items => exact absurd rfl (h a items)
    | _ => cases hi

theorem Present.append {l l' : List (Item β)} (hl : Present l) (hl' : Present l') : Present (l ++ l') := by
  intro i hi
  obtain hi | hi := List.mem_append.mp hi
  · exact hl i hi
  · exact hl' i hi

/-- A value that is not a list. -/
def IsScalar (v : Val β) : Prop := ∀ a items, v ≠ .many a items

theorem present_objectPrototype (platform : Platform β) :
    Present [(.builtin platform.objectPrototype : Item β)] := by
  intro i hi
  obtain rfl := List.mem_singleton.mp hi
  rfl

variable [DecidableEq β]

theorem dedupeArray_eq {l : List (Item β)} (h : l ≠ []) : dedupeArray l = collapse l.eraseDups := by
  rw [dedupeArray]
  cases hdups : l.eraseDups with
  | nil =>
    obtain ⟨a, t, rfl⟩ := List.exists_cons_of_ne_nil h
    simp [List.eraseDups_cons] at hdups
  | cons a t =>
    cases t with
    | nil => rfl
    | cons b t => rfl

theorem mergeParam_collapse {l : List (Item β)} (hl : Present l) {v : Val β} (hv : IsScalar v) :
    mergeParam (collapse l.eraseDups) v = collapse (l ++ kept v).eraseDups := by
  have hdups : Present l.eraseDups := fun i hi => hl i (List.mem_eraseDups.mp hi)
  rw [mergeParam, kept]
  split_ifs with hmissing hold
  · rw [List.append_nil]
  · have hnil : l.eraseDups = [] := by
      by_contra hne
      rw [isMissing_collapse hdups hne] at hold
      cases hold
    have hlnil : l = [] := by
      apply List.eq_nil_iff_forall_not_mem.mpr
      intro i hi
      rw [← List.mem_eraseDups, hnil] at hi
      cases hi
    subst hlnil
    cases v with
    | one i => rfl
    | many a items => exact absurd rfl (hv a items)
    | _ => exact absurd rfl hmissing
  · have hitems : v.items ≠ [] := by
      cases v with
      | one i => exact List.cons_ne_nil i []
      | many a items => exact absurd rfl (hv a items)
      | _ => exact absurd rfl hmissing
    have hne : l.eraseDups ++ v.items ≠ [] := fun h => hitems (List.append_eq_nil_iff.mp h).2
    rw [items_collapse, dedupeArray_eq hne, eraseDups_eraseDups_append]

/-- Scalars that are merged one after the other. -/
theorem foldl_mergeParam {l : List (Item β)} (hl : Present l) {vs : List (Val β)} (hvs : ∀ v ∈ vs, IsScalar v) :
    vs.foldl mergeParam (collapse l.eraseDups) = collapse (l ++ vs.flatMap kept).eraseDups := by
  induction vs generalizing l with
  | nil => rw [List.foldl_nil, List.flatMap_nil, List.append_nil]
  | cons v vs ih =>
    have hv := hvs v List.mem_cons_self
    rw [List.foldl_cons, mergeParam_collapse hl hv, ih (hl.append (present_kept hv))
      fun w hw => hvs w (List.mem_cons_of_mem v hw), List.flatMap_cons, List.append_assoc]

/-! ### Assignments -/

section Assignments

variable {o : Obj β} {k : Str} {v : Val β}

omit [DecidableEq β] in
theorem assign_of_ne (h : k ≠ protoKey) : o.assign k v = { o with own := o.own.set k v } := by
  unfold Obj.assign
  exact if_neg fun h' => h h'.1

omit [DecidableEq β] in
theorem assign_list {a : Option ℕ} {items : List (Item β)} (h : o.own.get? protoKey = none) :
    o.assign protoKey (.many a items) = { o with proto := some items } := by
  unfold Obj.assign
  rw [h]
  exact if_pos ⟨rfl, rfl⟩

omit [DecidableEq β] in
theorem assign_scalar (h : o.own.get? protoKey = none) (hv : IsScalar v) : o.assign protoKey v = o := by
  unfold Obj.assign
  rw [h, if_pos ⟨rfl, rfl⟩]
  cases v with
  | many a items => exact absurd rfl (hv a items)
  | _ => rfl

omit [DecidableEq β] in
theorem get?_assign_of_ne {key : Str} (h : key ≠ k) : (o.assign key v).own.get? k = o.own.get? k := by
  by_cases hproto : key = protoKey ∧ (o.own.get? key).isNone = true
  · unfold Obj.assign
    rw [if_pos hproto]
    split <;> rfl
  · unfold Obj.assign
    rw [if_neg hproto, Dict.get?_set, if_neg (Ne.symm h)]

omit [DecidableEq β] in
/-- `__proto__` never becomes a key. -/
theorem get?_assign_protoKey {key : Str} (h : o.own.get? protoKey = none) :
    (o.assign key v).own.get? protoKey = none := by
  by_cases hk : key = protoKey
  · rw [hk]
    cases v with
    | many a items => rw [assign_list h, h]
    | _ => rw [assign_scalar h (by rintro _ _ ⟨⟩), h]
  · rw [get?_assign_of_ne hk, h]

end Assignments

/-! ### Prototypes -/

variable {platform : Platform β}

/-- The prototype after values are merged at `__proto__`, from their items. -/
def protoOf (platform : Platform β) (items : List (Item β)) : Option (List (Item β)) :=
  match (.builtin platform.objectPrototype :: items : List (Item β)).eraseDups with
  | [_] => none
  | items => some items

theorem protoOf_nil : protoOf platform [] = none := rfl

theorem protoOf_ne_nil {items l : List (Item β)} (h : protoOf platform items = some l) :
    .builtin platform.objectPrototype ∈ l := by
  rw [protoOf, List.eraseDups_cons] at h
  split at h
  · cases h
  · obtain rfl := Option.some.inj h
    exact List.mem_cons_self

/-- What a key with a prototype inherits counts as missing only if there is none. -/
theorem protoVal_eq {o : Obj β} {items : List (Item β)} (h : o.proto = protoOf platform items) :
    o.protoVal platform = collapse (.builtin platform.objectPrototype :: items : List (Item β)).eraseDups := by
  rw [Obj.protoVal, h, protoOf]
  rw [List.eraseDups_cons]
  cases (items.filter fun b => !b == .builtin platform.objectPrototype).eraseDups with
  | nil => rfl
  | cons a t => rfl

end Forail.QueryStrings
