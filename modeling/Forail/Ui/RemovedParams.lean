import Forail.Ui.QueryValues
import Mathlib.Data.List.Nodup

/-! Parameters that are added and removed again. Adding and removing new parameters keeps the old values that are not
among them, exactly unless a value is lost with those that count as missing, an empty list stays, or the values of
an integer field are not read back. -/

namespace Forail.QueryStrings

variable {β : Type} [DecidableEq β] {platform : Platform β}

/-! ### One value -/

/-- What is left of a list of values. -/
def left : List (Item β) → Val β
  | [] => .null
  | [i] => .one i
  | items => .many none items

omit [DecidableEq β] in
theorem items_left (l : List (Item β)) : (left l).items = l := by
  rcases l with _ | ⟨_, _ | ⟨_, _⟩⟩
  · rfl
  · rfl
  · rfl

omit [DecidableEq β] in
theorem isNullish_left {l : List (Item β)} (h : l = []) : (left l).isNullish = true := by
  subst h
  rfl

omit [DecidableEq β] in
theorem left_of_many {l : List (Item β)} (h : 2 ≤ l.length) : left l = .many none l := by
  rcases l with _ | ⟨_, _ | ⟨_, _⟩⟩
  · cases h
  · cases h with | step h => cases h
  · rfl

omit [DecidableEq β] in
theorem collapse_eq_left {l : List (Item β)} (h : l ≠ []) : collapse l = left l := by
  rcases l with _ | ⟨_, _ | ⟨_, _⟩⟩
  · exact absurd rfl h
  · rfl
  · rfl

/-- An item is removed from a list. -/
theorem removeValue_list (a : Option ℕ) (items : List (Item β)) (i : Item β) :
    removeValue (.many a items) (.one i) = match items.erase i with
      | [i] => .one i
      | items => .many a items := by
  cases a with
  | none => rfl
  | some n => rfl

theorem removeValue_left {l : List (Item β)} (h : l.Nodup) (i : Item β) :
    removeValue (left l) (.one i) = left (l.filter fun j => j ≠ i) := by
  rcases l with _ | ⟨j, _ | ⟨k, l⟩⟩
  · rfl
  · by_cases hj : j = i
    · simp [left, removeValue, Val.strictEq, hj]
    · simp [left, removeValue, Val.strictEq, hj]
  · have hfilter : (j :: k :: l).erase i = (j :: k :: l).filter fun j => j ≠ i := by
      rw [h.erase_eq_filter]
      exact List.filter_congr fun x _ => by by_cases hx : x = i <;> simp [hx]
    have hne : (j :: k :: l).filter (fun j => j ≠ i) ≠ [] := by
      intro hnil
      rw [List.filter_eq_nil_iff] at hnil
      have hj := hnil j List.mem_cons_self
      have hk := hnil k (List.mem_cons_of_mem j List.mem_cons_self)
      have hjk : j = k := by simp_all
      rw [List.nodup_cons] at h
      exact h.1 (hjk ▸ List.mem_cons_self)
    rw [left_of_many (by simp), removeValue_list, hfilter]
    cases hcase : (j :: k :: l).filter fun j => j ≠ i with
    | nil => exact absurd hcase hne
    | cons a t => cases t <;> rfl

theorem removeValue_left_nan {l : List (Item β)} : removeValue (left l) .nan = left l := by
  rcases l with _ | ⟨_, _ | ⟨_, _⟩⟩
  · rfl
  · rfl
  · rfl

theorem foldl_removeValue {l : List (Item β)} (h : l.Nodup) (removed : List (Item β)) :
    removed.foldl (fun v i => removeValue v (.one i)) (left l) = left (l.filter fun j => j ∉ removed) := by
  induction removed generalizing l with
  | nil => simp
  | cons i removed ih =>
    rw [List.foldl_cons, removeValue_left h, ih (h.filter _), List.filter_filter]
    congr 1
    exact List.filter_congr fun j _ => by by_cases hj : j = i <;> simp [hj]

/-! ### One key -/

/-- A string, an integer or a list of distinct ones. -/
def IsParam (v : Val β) : Prop :=
  (∃ i, v = .one i ∧ ∀ b, i ≠ .builtin b) ∨
    ∃ n l, v = .many (some n) l ∧ l.Nodup ∧ ∀ i ∈ l, ∀ b, i ≠ .builtin b

/-- What comes of a key whose value is merged with another one, which is then removed. -/
def removedVal (platform : Platform β) (isOwn isInt : Bool) (x y : Val β) : Val β :=
  let merged := mergeParam x y
  let merged := if isOwn ∧ merged.isFalsy then y else merged
  removeParam merged (if isInt then platform.parseInt (platform.valueText y) else y)

/-- The values that are not removed are kept, and nothing is left if all are. -/
def Keeps (x : Val β) (removed : List (Item β)) (result : Val β) : Prop :=
  result.items = x.items.filter (fun i => i ∉ removed) ∧
    (x.items.filter (fun i => i ∉ removed) = [] → result.isNullish = true)

/-- A number or a string that is removed from an integer field is read back from its text. -/
def IsRead (platform : Platform β) (i : Item β) : Prop := platform.parseInt (platform.itemText i) = .one i

/-- The condition on a value and on what is merged with it and removed. -/
def Removable (platform : Platform β) (isInt : Bool) (x y : Val β) : Prop :=
  match y with
  | .one j =>
    (isInt = true → IsRead platform j) ∧
    if (Val.one j).isMissing then x.isMissing = true ∨ x ≠ .one (.str []) ∧ ∃ i ∈ x.items, i ≠ j
    else x.isMissing = false
  | .many _ items =>
    if x.isMissing then isInt = false ∧ ∀ i ∈ x.items, i ∈ items
    else if items = [] then x.items ≠ [] ∧ ∀ i, x.items = [i] → (Val.one i).isFalsy = false
    else isInt = true → ∃ j, items = [j] ∧ IsRead platform j ∧ ((Val.one j).isMissing = true → ∃ i ∈ x.items, i ≠ j)
  | _ => x.items ≠ []

variable {x y : Val β} {j : Item β}

theorem keeps_left (removed : List (Item β)) : Keeps x removed (left (x.items.filter fun i => i ∉ removed)) :=
  ⟨items_left _, isNullish_left⟩

omit [DecidableEq β] in
theorem IsParam.nodup (h : IsParam x) : x.items.Nodup := by
  obtain ⟨i, rfl, -⟩ | ⟨n, l, rfl, hl, -⟩ := h
  · exact List.pairwise_singleton _ i
  · exact hl

omit [DecidableEq β] in
theorem IsParam.plain (h : IsParam x) : ∀ i ∈ x.items, ∀ b, i ≠ .builtin b := by
  obtain ⟨i, rfl, hi⟩ | ⟨n, l, rfl, -, hl⟩ := h
  · intro k hk
    obtain rfl := List.mem_singleton.mp hk
    exact hi
  · exact hl

omit [DecidableEq β] in
theorem IsParam.missing (h : IsParam x) (hmissing : x.isMissing = true) : x = .one (.num 0) := by
  obtain ⟨i, rfl, hi⟩ | ⟨n, l, rfl, -, -⟩ := h
  · cases i with
    | num n =>
      obtain rfl : n = 0 := of_decide_eq_true hmissing
      rfl
    | str s => cases hmissing
    | builtin b => exact absurd rfl (hi b)
  · cases hmissing

/-- A value that is merged with another one that does not count as missing. -/
theorem mergeParam_left (hx : x.isMissing = false) (hy : y.isMissing = false) (hne : x.items ++ y.items ≠ []) :
    mergeParam x y = left (x.items ++ y.items).eraseDups := by
  have hdups : (x.items ++ y.items).eraseDups ≠ [] := by
    obtain ⟨a, t, hcons⟩ := List.exists_cons_of_ne_nil hne
    rw [hcons, List.eraseDups_cons]
    exact List.cons_ne_nil _ _
  rw [mergeParam, if_neg (by rw [hy]; exact Bool.false_ne_true), if_neg (by rw [hx]; exact Bool.false_ne_true),
    dedupeArray_eq hne, collapse_eq_left hdups]

/-- The values that are not removed, after others are added. -/
theorem filter_eraseDups (hx : x.items.Nodup) (added : List (Item β)) {removed : List (Item β)} (h : ∀ i ∈ added, i ∈ removed) :
    (x.items ++ added).eraseDups.filter (fun i => i ∉ removed) = x.items.filter fun i => i ∉ removed := by
  have hnone : (added.removeAll x.items).eraseDups.filter (fun i => i ∉ removed) = [] := by
    rw [List.filter_eq_nil_iff]
    intro i hi
    rw [List.mem_eraseDups] at hi
    simpa using h i (List.mem_filter.mp hi).1
  rw [List.eraseDups_append, List.filter_append, hnone, List.append_nil, eraseDups_of_nodup hx]

/-- Nothing is merged. -/
theorem keeps_undefined (isInt : Bool) (hx : IsParam x) :
    Keeps x [] (removedVal platform false isInt x .undefined) ↔ Removable platform isInt x .undefined := by
  have hvalue : ∀ d : Val β, d = .undefined ∨ d = .nan → (removeValue x d).items = x.items ∧ ¬(removeValue x d).isNullish = true := by
    intro d hd
    obtain ⟨i, rfl, -⟩ | ⟨n, l, rfl, -, -⟩ := hx
    · obtain rfl | rfl := hd <;> exact ⟨rfl, Bool.false_ne_true⟩
    · obtain rfl | rfl := hd <;>
      · rcases l with _ | ⟨_, _ | ⟨_, _⟩⟩
        · exact ⟨rfl, Bool.false_ne_true⟩
        · exact ⟨rfl, Bool.false_ne_true⟩
        · exact ⟨rfl, Bool.false_ne_true⟩
  have hdelete : ∃ d : Val β, (d = .undefined ∨ d = .nan) ∧
      removedVal platform false isInt x .undefined = removeValue x d := by
    cases isInt with
    | false => exact ⟨.undefined, .inl rfl, rfl⟩
    | true => exact ⟨.nan, .inr rfl, rfl⟩
  obtain ⟨d, hd, heq⟩ := hdelete
  obtain ⟨hitems, hnullish⟩ := hvalue d hd
  have hfilter : x.items.filter (fun i => i ∉ ([] : List (Item β))) = x.items := by simp
  rw [heq, Keeps, hfilter]
  constructor
  · exact fun h hnil => hnullish (h.2 hnil)
  · exact fun h => ⟨hitems, fun hnil => absurd hnil h⟩

omit [DecidableEq β] in
theorem isRead_zero : IsRead platform (.num 0) := by
  have hparse : platform.parseInt ['0'] = .one (.num (platform.nearest 0)) := rfl
  rw [IsRead, Platform.itemText, platform.numberText_zero, hparse, platform.nearest_zero]

/-- A 0 is merged. -/
theorem keeps_zero (isInt : Bool) (hx : IsParam x) :
    Keeps x [.num 0] (removedVal platform true isInt x (.one (.num 0))) ↔
      Removable platform isInt x (.one (.num 0)) := by
  have hdelete : (if isInt = true then platform.parseInt (platform.valueText (.one (.num 0))) else .one (.num 0)) =
      (.one (.num 0) : Val β) := by
    split_ifs
    · exact isRead_zero
    · rfl
  have hvalue : removedVal platform true isInt x (.one (.num 0)) =
      removeValue (if x.isFalsy = true then .one (.num 0) else x) (.one (.num 0)) := by
    rw [removedVal, hdelete]
    have hmerge : mergeParam x (.one (.num 0)) = x := if_pos rfl
    rw [hmerge]
    simp only [true_and, removeParam]
  have hcondition : Removable platform isInt x (.one (.num 0)) ↔
      x.isMissing = true ∨ x ≠ .one (.str []) ∧ ∃ i ∈ x.items, i ≠ .num 0 :=
    ⟨fun h => h.2, fun h => ⟨fun _ => isRead_zero, h⟩⟩
  rw [hvalue, hcondition, Keeps]
  obtain ⟨i, rfl, hi⟩ | ⟨n, l, rfl, hl, -⟩ := hx
  · cases i with
    | num n =>
      by_cases hn : n = 0
      · subst hn
        exact iff_of_true ⟨rfl, fun _ => rfl⟩ (.inl rfl)
      · have hfalsy : (Val.one (.num n) : Val β).isFalsy = false := decide_eq_false hn
        rw [hfalsy, if_neg Bool.false_ne_true]
        have hne : (Item.num n : Item β) ≠ .num 0 := fun h => hn (Item.num.inj h)
        refine iff_of_true ?_ (.inr ⟨fun h => (by cases h), .num n, List.mem_cons_self, hne⟩)
        simp [Val.items, removeValue, Val.strictEq, hne]
    | str s =>
      by_cases hs : s = []
      · subst hs
        refine iff_of_false ?_ ?_
        · rintro ⟨hitems, -⟩
          have hleft : (removeValue (.one (.num 0)) (.one (.num 0)) : Val β).items = [] := rfl
          have hright : ([.str []] : List (Item β)).filter (fun i => i ∉ [Item.num 0]) = [.str []] := by simp
          rw [show (Val.one (.str []) : Val β).isFalsy = true from rfl, if_pos rfl, hleft, Val.items, hright] at hitems
          cases hitems
        · rintro (h | ⟨h, -⟩)
          · cases h
          · exact h rfl
      · have hfalsy : (Val.one (.str s) : Val β).isFalsy = false := by
          cases s with
          | nil => exact absurd rfl hs
          | cons c s => rfl
        have hne : (Item.str s : Item β) ≠ .num 0 := fun h => by cases h
        rw [hfalsy, if_neg Bool.false_ne_true]
        refine iff_of_true ?_ (.inr ⟨fun h => ?_, .str s, List.mem_cons_self, hne⟩)
        · simp [Val.items, removeValue, Val.strictEq]
        · exact hs (Item.str.inj (Val.one.inj h))
    | builtin b => exact absurd rfl (hi b)
  · have herase : l.erase (.num 0) = l.filter fun i => i ∉ [Item.num 0] := by
      rw [hl.erase_eq_filter]
      exact List.filter_congr fun i _ => by by_cases h : i = .num 0 <;> simp [h]
    have hitems : (removeValue (.many (some n) l) (.one (.num 0)) : Val β).items = l.erase (.num 0) := by
      rw [removeValue_list]
      split <;> rename_i heq
      · exact heq.symm ▸ rfl
      · rfl
    have hnullish : ¬(removeValue (.many (some n) l) (.one (.num 0)) : Val β).isNullish = true := by
      rw [removeValue_list]
      split <;> exact Bool.false_ne_true
    have hexists : (∃ i ∈ l, i ≠ Item.num 0) ↔ l.filter (fun i => i ∉ [Item.num 0]) ≠ [] := by
      rw [ne_eq, List.filter_eq_nil_iff]
      simp
    rw [show (Val.many (some n) l : Val β).isFalsy = false from rfl, if_neg Bool.false_ne_true, hitems, herase]
    constructor
    · exact fun h => .inr ⟨fun h => (by cases h), hexists.mpr fun hnil => hnullish (h.2 hnil)⟩
    · rintro (h | ⟨-, h⟩)
      · cases h
      · exact ⟨rfl, fun hnil => absurd hnil (hexists.mp h)⟩

omit [DecidableEq β] in
/-- What is removed from an integer field. -/
theorem parseInt_cases (platform : Platform β) (s : Str) : platform.parseInt s = .nan ∨ ∃ n, platform.parseInt s = .one (.num n) := by
  rw [Platform.parseInt]
  split
  · exact .inr ⟨_, rfl⟩
  · exact .inl rfl

/-- A value in which an item stays does not have the items of those that are not removed. -/
theorem not_keeps_of_mem {removed : List (Item β)} {result : Val β} (hmem : j ∈ result.items)
    (hj : j ∉ x.items.filter fun i => i ∉ removed) : ¬Keeps x removed result :=
  fun h => hj (h.1 ▸ hmem)

/-- Removing another item leaves an item. -/
theorem mem_removeValue_left {l : List (Item β)} (hl : l.Nodup) (hj : j ∈ l) {d : Val β}
    (hd : d = .nan ∨ ∃ k, d = .one k ∧ k ≠ j) : j ∈ (removeValue (left l) d).items := by
  obtain rfl | ⟨k, rfl, hk⟩ := hd
  · rwa [removeValue_left_nan, items_left]
  · rw [removeValue_left hl, items_left, List.mem_filter]
    exact ⟨hj, decide_eq_true (Ne.symm hk)⟩

theorem removeParam_of_scalar {v d : Val β} (h : IsScalar d) : removeParam v d = removeValue v d := by
  cases d with
  | many a items => exact absurd rfl (h a items)
  | _ => rfl

omit [DecidableEq β] in
theorem eq_singleton_of_isFalsy {l : List (Item β)} (h : (left l).isFalsy = true) (hne : l ≠ []) : ∃ i, l = [i] := by
  rcases l with _ | ⟨i, _ | ⟨_, _⟩⟩
  · exact absurd rfl hne
  · exact ⟨i, rfl⟩
  · cases h

/-- An item is merged that does not count as missing; it is among the removed ones, or is inherited. -/
theorem keeps_one (isOwn isInt : Bool) (hx : IsParam x) (hj : (Val.one j).isMissing = false) {removed : List (Item β)}
    (hremoved : removed = [j] ∨ removed = [] ∧ j ∉ x.items) :
    Keeps x removed (removedVal platform isOwn isInt x (.one j)) ↔ Removable platform isInt x (.one j) := by
  have hfilter : x.items.filter (fun i => i ∉ removed) = x.items.filter fun i => i ∉ [j] := by
    obtain rfl | ⟨rfl, hnot⟩ := hremoved
    · rfl
    · refine List.filter_congr fun i hi => ?_
      have hne : i ≠ j := fun h => hnot (h ▸ hi)
      simp [hne]
  have hjnot : j ∉ x.items.filter fun i => i ∉ removed := by
    rw [hfilter, List.mem_filter]
    simp
  obtain ⟨d, hd, hscalar, hread⟩ : ∃ d : Val β,
      (if isInt = true then platform.parseInt (platform.valueText (.one j)) else .one j) = d ∧ IsScalar d ∧
      ((isInt = true → IsRead platform j) ∧ d = .one j ∨
        ¬(isInt = true → IsRead platform j) ∧ (d = .nan ∨ ∃ k, d = .one k ∧ k ≠ j)) := by
    cases isInt with
    | false => exact ⟨.one j, rfl, by rintro _ _ ⟨⟩, .inl ⟨fun h => absurd h Bool.false_ne_true, rfl⟩⟩
    | true =>
      refine ⟨platform.parseInt (platform.itemText j), rfl, ?_⟩
      obtain hnan | ⟨n, hn⟩ := parseInt_cases platform (platform.itemText j)
      · rw [IsRead, hnan]
        exact ⟨by rintro _ _ ⟨⟩, .inr ⟨fun h => (by cases h rfl), .inl rfl⟩⟩
      · rw [IsRead, hn]
        refine ⟨by rintro _ _ ⟨⟩, ?_⟩
        by_cases hnj : Item.num n = j
        · exact .inl ⟨fun _ => congrArg Val.one hnj, congrArg Val.one hnj⟩
        · exact .inr ⟨fun h => hnj (Val.one.inj (h rfl)), .inr ⟨_, rfl, hnj⟩⟩
  have hcondition : Removable platform isInt x (.one j) ↔ (isInt = true → IsRead platform j) ∧ x.isMissing = false := by
    rw [Removable, if_neg (by rw [hj]; exact Bool.false_ne_true)]
  rw [removedVal, hd, hcondition]
  cases hmissing : x.isMissing with
  | true =>
    -- The value is lost.
    obtain rfl := hx.missing hmissing
    have hmerge : mergeParam (.one (.num 0)) (.one j) = .one j := by
      rw [mergeParam, if_neg (by rw [hj]; exact Bool.false_ne_true), if_pos hmissing]
    have hne : Item.num 0 ≠ j := by
      rintro rfl
      rw [hmissing] at hj
      cases hj
    have hitems : ∀ i ∈ (removeValue (.one j) d).items, i = j := by
      intro i hi
      unfold removeValue at hi
      split_ifs at hi
      · cases hi
      · exact List.mem_singleton.mp hi
    rw [hmerge, ite_self, removeParam_of_scalar hscalar]
    refine iff_of_false (fun h => ?_) fun h => by cases h.2
    have hzero : Item.num 0 ∈ (removeValue (.one j) d).items := by
      rw [h.1, hfilter, List.mem_filter]
      exact ⟨List.mem_cons_self, by simp [hne]⟩
    exact hne (hitems _ hzero)
  | false =>
    have hmerge := mergeParam_left hmissing hj (List.append_ne_nil_of_right_ne_nil _ (List.cons_ne_nil j []))
    have hnodup : (x.items ++ [j]).eraseDups.Nodup := nodup_eraseDups _
    have hmem : j ∈ (x.items ++ [j]).eraseDups := List.mem_eraseDups.mpr (by simp)
    have hkept : (if isOwn = true ∧ (mergeParam x (.one j)).isFalsy = true then .one j else mergeParam x (.one j)) =
        left (x.items ++ [j]).eraseDups := by
      rw [hmerge]
      split_ifs with hfalsy
      · -- A value that is false can only be the new one itself.
        obtain ⟨i, hl⟩ : ∃ i, (x.items ++ [j]).eraseDups = [i] :=
          eq_singleton_of_isFalsy hfalsy.2 (List.ne_nil_of_mem hmem)
        rw [hl] at hmem
        obtain rfl := List.mem_singleton.mp hmem
        rw [hl]
        rfl
      · rfl
    rw [hkept, removeParam_of_scalar hscalar]
    obtain ⟨hcond, rfl⟩ | ⟨hcond, hother⟩ := hread
    · refine iff_of_true ?_ ⟨hcond, rfl⟩
      have hleft : (x.items ++ [j]).eraseDups.filter (fun i => i ≠ j) = x.items.filter fun i => i ∉ removed := by
        rw [hfilter, ← filter_eraseDups hx.nodup [j] (fun i hi => hi)]
        exact List.filter_congr fun i _ => by simp
      rw [removeValue_left hnodup, hleft]
      exact keeps_left removed
    · refine iff_of_false ?_ fun h => hcond h.1
      exact not_keeps_of_mem (mem_removeValue_left hnodup hmem hother) hjnot

/-- A list from which a scalar is removed has some of its items and stays. -/
theorem removeValue_many {a : Option ℕ} (items : List (Item β)) {d : Val β} (h : IsScalar d) :
    (∀ i ∈ (removeValue (.many a items) d).items, i ∈ items) ∧ ¬(removeValue (.many a items) d).isNullish = true := by
  have hvalue : ∃ l : List (Item β), (∀ i ∈ l, i ∈ items) ∧
      ((∃ i, l = [i] ∧ removeValue (.many a items) d = .one i) ∨ removeValue (.many a items) d = .many a l) := by
    cases d with
    | many b l => exact absurd rfl (h b l)
    | one i =>
      refine ⟨items.erase i, fun k hk => List.mem_of_mem_erase hk, ?_⟩
      rw [removeValue_list]
      rcases items.erase i with _ | ⟨k, _ | ⟨_, _⟩⟩
      · exact .inr rfl
      · exact .inl ⟨k, rfl, rfl⟩
      · exact .inr rfl
    | _ =>
      refine ⟨items, fun k hk => hk, ?_⟩
      rcases items with _ | ⟨k, _ | ⟨_, _⟩⟩
      · cases a <;> exact .inr rfl
      · cases a <;> exact .inl ⟨k, rfl, rfl⟩
      · cases a <;> exact .inr rfl
  obtain ⟨l, hl, ⟨i, rfl, heq⟩ | heq⟩ := hvalue
  · rw [heq]
    exact ⟨hl, Bool.false_ne_true⟩
  · rw [heq]
    exact ⟨hl, Bool.false_ne_true⟩

omit [DecidableEq β] in
theorem isRead_str (s : Str) : ¬IsRead platform (.str s) := by
  intro h
  obtain hnan | ⟨n, hn⟩ := parseInt_cases platform (platform.itemText (.str s))
  · rw [IsRead, hnan] at h
    cases h
  · rw [IsRead, hn] at h
    cases h

theorem strictEq_left (l items : List (Item β)) (n : ℕ) : (left l).strictEq (.many (some n) items) = false := by
  rcases l with _ | ⟨_, _ | ⟨_, _⟩⟩
  · rfl
  · rfl
  · rfl

theorem removeParam_left {l : List (Item β)} (h : l.Nodup) (n : ℕ) (items : List (Item β)) :
    removeParam (left l) (.many (some n) items) = left (l.filter fun i => i ∉ items) := by
  have hparam : removeParam (left l) (.many (some n) items) =
      if (left l).strictEq (.many (some n) items) then .null
      else items.foldl (fun v i => removeValue v (.one i)) (left l) := rfl
  rw [hparam, strictEq_left, if_neg Bool.false_ne_true, foldl_removeValue h]

theorem removeParam_self (n : ℕ) (items : List (Item β)) :
    removeParam (.many (some n) items) (.many (some n) items) = .null := by
  have hparam : removeParam (.many (some n) items) (.many (some n) items) =
      if (Val.many (some n) items).strictEq (.many (some n) items) then .null
      else items.foldl (fun v i => removeValue v (.one i)) (.many (some n) items) := rfl
  have hsame : (Val.many (some n) items).strictEq (.many (some n) items) = true := decide_eq_true rfl
  rw [hparam, if_pos hsame]

/-- A list is merged where the value counts as missing. -/
theorem keeps_many_missing (isInt : Bool) (n : ℕ) (items : List (Item β)) :
    Keeps (.one (.num 0)) items (removedVal platform true isInt (.one (.num 0)) (.many (some n) items)) ↔
      Removable platform isInt (.one (.num 0)) (.many (some n) items) := by
  have hmerge : mergeParam (.one (.num 0)) (.many (some n) items) = .many (some n) items := rfl
  have hcondition : Removable platform isInt (.one (.num 0)) (.many (some n) items) ↔
      isInt = false ∧ Item.num 0 ∈ items := by
    rw [Removable, if_pos (by rfl)]
    simp [Val.items]
  have hfilter : ([.num 0] : List (Item β)).filter (fun i => i ∉ items) = if .num 0 ∈ items then [] else [.num 0] := by
    by_cases h : Item.num 0 ∈ items <;> simp [h]
  rw [removedVal, hmerge, hcondition, Keeps, Val.items, hfilter]
  cases isInt with
  | false =>
    have hvalue : removeParam
        (if true = true ∧ (Val.many (some n) items).isFalsy = true then .many (some n) items else .many (some n) items)
        (if false = true then platform.parseInt (platform.valueText (.many (some n) items)) else .many (some n) items) =
        .null := by
      rw [ite_self, if_neg Bool.false_ne_true, removeParam_self]
    rw [hvalue]
    split_ifs with hmem
    · exact iff_of_true ⟨rfl, fun _ => rfl⟩ ⟨rfl, hmem⟩
    · exact iff_of_false (fun h => by cases h.1) fun h => hmem h.2
  | true =>
    have hscalar : IsScalar (platform.parseInt (platform.valueText (.many (some n) items))) := by
      obtain h | ⟨k, h⟩ := parseInt_cases platform (platform.valueText (.many (some n) items)) <;>
        rw [h] <;> rintro _ _ ⟨⟩
    obtain ⟨hitems, hnullish⟩ := removeValue_many (a := some n) items hscalar
    rw [ite_self, if_pos rfl, removeParam_of_scalar hscalar]
    refine iff_of_false ?_ fun h => by cases h.1
    split_ifs with hmem
    · exact fun h => hnullish (h.2 rfl)
    · exact fun h => hmem (hitems _ (h.1 ▸ List.mem_cons_self))

/-- An empty list is merged. -/
theorem keeps_nil (isInt : Bool) (hx : IsParam x) (hmissing : x.isMissing = false) (n : ℕ) :
    Keeps x [] (removedVal platform true isInt x (.many (some n) [])) ↔
      Removable platform isInt x (.many (some n) []) := by
  have hcondition : Removable platform isInt x (.many (some n) []) ↔
      x.items ≠ [] ∧ ∀ i, x.items = [i] → (Val.one i).isFalsy = false := by
    rw [Removable, if_neg (by rw [hmissing]; exact Bool.false_ne_true), if_pos rfl]
  have hfilter : x.items.filter (fun i => i ∉ ([] : List (Item β))) = x.items := by simp
  have hdelete : ∀ v : Val β, (∀ l, v ≠ .many (some n) l) →
      removeParam v (if isInt = true then platform.parseInt (platform.valueText (.many (some n) [])) else .many (some n) []) =
        if isInt = true then removeValue v .nan else v := by
    intro v hv
    cases isInt with
    | true => rfl
    | false =>
      have hparam : removeParam v (.many (some n) []) = if v.strictEq (.many (some n) []) then .null else v := rfl
      rw [if_neg Bool.false_ne_true, if_neg Bool.false_ne_true, hparam, if_neg]
      intro h
      cases v with
      | many a l =>
        cases a with
        | none => cases h
        | some m =>
          obtain rfl : m = n := of_decide_eq_true h
          exact hv l rfl
      | _ => cases h
  rw [hcondition, removedVal]
  by_cases hnil : x.items = []
  · have hmerge : mergeParam x (.many (some n) []) = .many none [] := by
      have hlist : (Val.many (some n) [] : Val β).isMissing = false := rfl
      rw [mergeParam, if_neg (by rw [hlist]; exact Bool.false_ne_true),
        if_neg (by rw [hmissing]; exact Bool.false_ne_true), hnil]
      rfl
    refine iff_of_false ?_ fun h => h.1 hnil
    rw [hmerge, if_neg (by rintro ⟨-, h⟩; cases h), hdelete _ (by rintro l ⟨⟩), Keeps, hfilter]
    rintro ⟨-, h⟩
    have h := h hnil
    cases isInt <;> cases h
  · have hmerge : mergeParam x (.many (some n) []) = left x.items := by
      rw [mergeParam_left hmissing rfl (List.append_ne_nil_of_left_ne_nil hnil _), Val.items, List.append_nil,
        eraseDups_of_nodup hx.nodup]
    have hleft : ∀ l, left x.items ≠ .many (some n) l := by
      intro l h
      have hfalse := strictEq_left x.items l n
      rw [h] at hfalse
      exact absurd hfalse (by simp [Val.strictEq])
    rw [hmerge]
    by_cases hfalsy : (left x.items).isFalsy = true
    · -- The value is replaced by the empty list.
      have hone : ∃ i, x.items = [i] ∧ (Val.one i).isFalsy = true := by
        obtain ⟨i, hl⟩ := eq_singleton_of_isFalsy hfalsy hnil
        rw [hl] at hfalsy
        exact ⟨i, hl, hfalsy⟩
      obtain ⟨i, hi, hfalse⟩ := hone
      refine iff_of_false ?_ fun h => by rw [h.2 i hi] at hfalse; cases hfalse
      rw [if_pos ⟨rfl, hfalsy⟩, Keeps, hfilter, hi]
      rintro ⟨h, -⟩
      cases isInt with
      | false =>
        rw [if_neg Bool.false_ne_true, removeParam_self] at h
        cases h
      | true => cases h
    · refine iff_of_true ?_ ⟨hnil, fun i hi => ?_⟩
      · have hkeeps := keeps_left (x := x) []
        rw [hfilter] at hkeeps
        rw [if_neg fun h => hfalsy h.2, hdelete _ hleft]
        split_ifs
        · rwa [removeValue_left_nan]
        · exact hkeeps
      · rw [hi] at hfalsy
        exact Bool.eq_false_iff.mpr hfalsy

/-- Values are merged to a single one if they are all the same. -/
theorem eq_of_eraseDups {items : List (Item β)} (hitems : items.Nodup) (hne : items ≠ [])
    (h : (x.items ++ items).eraseDups = [j]) : items = [j] ∧ ∀ i ∈ x.items, i = j := by
  have hall : ∀ i ∈ x.items ++ items, i = j := by
    intro i hi
    rw [← List.mem_eraseDups, h] at hi
    exact List.mem_singleton.mp hi
  refine ⟨?_, fun i hi => hall i (List.mem_append_left _ hi)⟩
  obtain ⟨k, t, rfl⟩ := List.exists_cons_of_ne_nil hne
  obtain rfl := hall k (by simp)
  cases t with
  | nil => rfl
  | cons m t =>
    obtain rfl := hall m (by simp)
    simp at hitems

/-- An integer field: only what is read back from a single value is removed. -/
theorem keeps_int (hx : IsParam x) {items : List (Item β)} (hitems : items.Nodup) (hne : items ≠ []) {n : ℕ} :
    Keeps x items (removeValue (left (x.items ++ items).eraseDups)
      (platform.parseInt (platform.valueText (.many (some n) items)))) ↔
      ∃ j, items = [j] ∧ IsRead platform j := by
  have hnodup : (x.items ++ items).eraseDups.Nodup := nodup_eraseDups _
  have hmem : ∀ i ∈ items, i ∈ (x.items ++ items).eraseDups := fun i hi =>
    List.mem_eraseDups.mpr (List.mem_append_right _ hi)
  have hnot : ∀ i ∈ items, i ∉ x.items.filter fun i => i ∉ items := fun i hi h =>
    absurd hi (of_decide_eq_true (List.mem_filter.mp h).2)
  -- A value that is not the one read stays.
  have hstays : ∀ i ∈ items, platform.parseInt (platform.valueText (.many (some n) items)) ≠ .one i →
      ¬Keeps x items (removeValue (left (x.items ++ items).eraseDups)
        (platform.parseInt (platform.valueText (.many (some n) items)))) := by
    intro i hi hother
    refine not_keeps_of_mem (mem_removeValue_left hnodup (hmem i hi) ?_) (hnot i hi)
    obtain h | ⟨k, h⟩ := parseInt_cases platform (platform.valueText (.many (some n) items))
    · exact .inl h
    · exact .inr ⟨_, h, fun heq => hother (h.trans (congrArg Val.one heq))⟩
  obtain ⟨i, t, rfl⟩ := List.exists_cons_of_ne_nil hne
  cases t with
  | nil =>
    have htext : platform.valueText (.many (some n) [i]) = platform.itemText i :=
      @List.intercalate_singleton _ [','] _
    rw [htext]
    constructor
    · intro h
      by_contra hread
      rw [← htext] at h
      refine hstays i List.mem_cons_self (fun heq => hread ⟨i, rfl, ?_⟩) h
      rwa [htext] at heq
    · rintro ⟨j, hj, hread⟩
      obtain rfl := (List.cons.inj hj).1
      have hleft : (x.items ++ [i]).eraseDups.filter (fun k => k ≠ i) = x.items.filter fun k => k ∉ [i] := by
        rw [← filter_eraseDups hx.nodup [i] (fun k hk => hk)]
        exact List.filter_congr fun k _ => by simp
      rw [hread, removeValue_left hnodup, hleft]
      exact keeps_left [i]
  | cons k t =>
    refine iff_of_false ?_ (by rintro ⟨j, hj, -⟩; cases hj)
    have hik : i ≠ k := by
      rintro rfl
      simp at hitems
    by_cases hi : platform.parseInt (platform.valueText (.many (some n) (i :: k :: t))) = .one i
    · refine hstays k (by simp) fun hk => hik ?_
      exact Val.one.inj (hi.symm.trans hk)
    · exact hstays i List.mem_cons_self hi

/-- A list with items is merged. -/
theorem keeps_many (isInt : Bool) (hx : IsParam x) (hmissing : x.isMissing = false) {items : List (Item β)}
    (hitems : items.Nodup) (hne : items ≠ []) (n : ℕ) :
    Keeps x items (removedVal platform true isInt x (.many (some n) items)) ↔
      Removable platform isInt x (.many (some n) items) := by
  have hcondition : Removable platform isInt x (.many (some n) items) ↔ (isInt = true →
      ∃ j, items = [j] ∧ IsRead platform j ∧ ((Val.one j).isMissing = true → ∃ i ∈ x.items, i ≠ j)) := by
    rw [Removable, if_neg (by rw [hmissing]; exact Bool.false_ne_true), if_neg hne]
  have hmerge := mergeParam_left (y := .many (some n) items) hmissing rfl (List.append_ne_nil_of_right_ne_nil _ hne)
  have hnodup : (x.items ++ items).eraseDups.Nodup := nodup_eraseDups _
  have hscalar : IsScalar (platform.parseInt (platform.valueText (.many (some n) items))) := by
    obtain h | ⟨k, h⟩ := parseInt_cases platform (platform.valueText (.many (some n) items)) <;>
      rw [h] <;> rintro _ _ ⟨⟩
  rw [hcondition, removedVal, hmerge, Val.items]
  by_cases hfalsy : (left (x.items ++ items).eraseDups).isFalsy = true
  · -- All values are the same one, which is false.
    obtain ⟨j, hj, hfalse⟩ : ∃ j, (x.items ++ items).eraseDups = [j] ∧ (Val.one j).isFalsy = true := by
      have hdups : (x.items ++ items).eraseDups ≠ [] := fun hnil =>
        hne (List.append_eq_nil_iff.mp (eraseDups_eq_nil.mp hnil)).2
      obtain ⟨i, hl⟩ := eq_singleton_of_isFalsy hfalsy hdups
      rw [hl] at hfalsy
      exact ⟨i, hl, hfalsy⟩
    obtain ⟨rfl, hall⟩ := eq_of_eraseDups hitems hne hj
    have hfilter : x.items.filter (fun i => i ∉ [j]) = [] := by
      rw [List.filter_eq_nil_iff]
      intro i hi
      simp [hall i hi]
    rw [if_pos ⟨rfl, hfalsy⟩, Keeps, hfilter]
    cases isInt with
    | false =>
      rw [if_neg Bool.false_ne_true, removeParam_self]
      exact iff_of_true ⟨rfl, fun _ => rfl⟩ fun h => absurd h Bool.false_ne_true
    | true =>
      rw [if_pos rfl, removeParam_of_scalar hscalar]
      refine iff_of_false (fun h => (removeValue_many [j] hscalar).2 (h.2 rfl)) fun h => ?_
      obtain ⟨k, hk, hread, hother⟩ := h rfl
      obtain rfl := (List.cons.inj hk).1
      cases j with
      | str s => exact isRead_str s hread
      | num m =>
        obtain ⟨i, hi, hij⟩ := hother hfalse
        exact hij (hall i hi)
      | builtin b => cases hfalse
  · rw [if_neg fun h => hfalsy h.2]
    cases isInt with
    | false =>
      rw [if_neg Bool.false_ne_true, removeParam_left hnodup, filter_eraseDups hx.nodup items fun i hi => hi]
      exact iff_of_true (keeps_left items) fun h => absurd h Bool.false_ne_true
    | true =>
      rw [if_pos rfl, removeParam_of_scalar hscalar, keeps_int hx hitems hne]
      constructor
      · rintro ⟨j, rfl, hread⟩ _
        refine ⟨j, rfl, hread, fun hmissing => ?_⟩
        by_contra hsame
        push Not at hsame
        have hdups : (x.items ++ [j]).eraseDups = [j] := by
          have hnil : x.items.eraseDups = [] ∨ x.items.eraseDups = [j] := by
            rw [eraseDups_of_nodup hx.nodup]
            have hitems := hx.nodup
            rcases hl : x.items with _ | ⟨i, _ | ⟨k, t⟩⟩
            · exact .inl rfl
            · rw [hl] at hsame
              exact .inr (congrArg (fun i => [i]) (hsame i List.mem_cons_self))
            · rw [hl] at hsame hitems
              have hik : i = k := (hsame i List.mem_cons_self).trans (hsame k (by simp)).symm
              simp [hik] at hitems
          rw [eraseDups_concat]
          obtain h | h := hnil
          · rw [h, eraseDups_eq_nil.mp h]
            rfl
          · have hmem : j ∈ x.items := by
              rw [← List.mem_eraseDups, h]
              exact List.mem_cons_self
            rw [if_pos hmem, h]
        rw [hdups] at hfalsy
        cases j with
        | num m => exact hfalsy hmissing
        | _ => cases hmissing
      · intro h
        obtain ⟨j, hj, hread, -⟩ := h rfl
        exact ⟨j, hj, hread⟩

/-! ### All keys -/

/-- The value that an object has of its own or inherits. -/
def paramAt (platform : Platform β) (params : Dict Str (Val β)) (key : Str) : Val β :=
  (Obj.mk params none).lookup platform key

/-- For each key of the old parameters, the values that are not removed are kept; if none is left the default is there,
or no value. -/
def RemovesExactly (platform : Platform β) (config : QSConfig β) (a b : Dict Str (Val β)) : Prop :=
  ∀ key x, a.get? key = some x →
    let result := (removeParams platform config (mergeParams platform a b).own b).own.get? key
    let rest := x.items.filter fun i => i ∉ (b.get? key).elim [] Val.items
    if rest = [] ∧ (config.defaultParams.get? key).isSome then result = config.defaultParams.get? key
    else result.elim [] Val.items = rest

def RemoveSafe (platform : Platform β) (integerFields : List Str) (a b : Dict Str (Val β)) : Prop :=
  ∀ key x, a.get? key = some x →
    if key = protoKey then ∀ i ∈ x.items, i ∈ (b.get? key).elim [] Val.items
    else Removable platform (decide (key ∈ integerFields)) x (paramAt platform b key)

/-- What is merged and removed at a key. -/
theorem keeps_iff (isInt : Bool) (hx : IsParam x) {b : Dict Str (Val β)}
    (hb : ∀ key v, b.get? key = some v → IsParam v) {key : Str} (hkey : key ≠ protoKey) :
    Keeps x ((b.get? key).elim [] Val.items)
        (removedVal platform (b.get? key).isSome isInt x (paramAt platform b key)) ↔
      Removable platform isInt x (paramAt platform b key) := by
  cases hget : b.get? key with
  | none =>
    have hparam : paramAt platform b key = platform.inherited none key := by
      rw [paramAt, Obj.lookup, hget]
      exact if_neg hkey
    rw [hparam, Platform.inherited.eq_def]
    dsimp only
    cases platform.ofObject key with
    | none => exact keeps_undefined isInt hx
    | some c => exact keeps_one false isInt hx rfl (.inr ⟨rfl, fun h => hx.plain _ h c rfl⟩)
  | some w =>
    have hparam : paramAt platform b key = w := by
      rw [paramAt, Obj.lookup, hget]
    have hw := hb key w hget
    rw [hparam]
    obtain ⟨j, rfl, -⟩ | ⟨n, items, rfl, hitems, -⟩ := id hw
    · cases hj : (Val.one j).isMissing with
      | true =>
        obtain rfl := Val.one.inj (hw.missing hj)
        exact keeps_zero isInt hx
      | false => exact keeps_one true isInt hx hj (.inl rfl)
    · cases hmissing : x.isMissing with
      | true =>
        obtain rfl := hx.missing hmissing
        exact keeps_many_missing isInt n items
      | false =>
        by_cases hne : items = []
        · subst hne
          exact keeps_nil isInt hx hmissing n
        · exact keeps_many isInt hx hmissing hitems hne n

section Loops

variable {f : Obj β → Str → Obj β} {k : Str} {v w : Option (Val β)}

omit [DecidableEq β] in
theorem get?_foldl_frame (hf : ∀ o k', k' ≠ k → (f o k').own.get? k = o.own.get? k) {ks : List Str} (hk : k ∉ ks)
    (o : Obj β) : (ks.foldl f o).own.get? k = o.own.get? k := by
  induction ks generalizing o with
  | nil => rfl
  | cons k' ks ih =>
    rw [List.mem_cons, not_or] at hk
    rw [List.foldl_cons, ih hk.2, hf o k' (Ne.symm hk.1)]

omit [DecidableEq β] in
/-- A loop over keys, seen at one of them. -/
theorem get?_foldl_at (hf : ∀ o k', k' ≠ k → (f o k').own.get? k = o.own.get? k)
    (hself : ∀ o : Obj β, o.own.get? k = v → (f o k).own.get? k = w) {ks : List Str} (hks : ks.Nodup) (hk : k ∈ ks)
    {o : Obj β} (ho : o.own.get? k = v) : (ks.foldl f o).own.get? k = w := by
  obtain ⟨ks₁, ks₂, rfl⟩ := List.append_of_mem hk
  rw [List.nodup_append, List.nodup_cons] at hks
  obtain ⟨-, ⟨hbehind, -⟩, hfront⟩ := hks
  rw [List.foldl_append, List.foldl_cons, get?_foldl_frame hf hbehind]
  apply hself
  rw [get?_foldl_frame hf fun h => hfront k h k List.mem_cons_self rfl, ho]

end Loops

variable {a b : Dict Str (Val β)} {key : Str}

theorem get?_mergeParams (ha : a.get? key = some x) (hkey : key ≠ protoKey) :
    (mergeParams platform a b).own.get? key =
      let merged := mergeParam x (paramAt platform b key)
      some (if (b.get? key).isSome = true ∧ merged.isFalsy = true then paramAt platform b key else merged) := by
  have hparam : paramAt platform a key = x := by
    rw [paramAt, Obj.lookup, ha]
  have hfirst : (a.keys.foldl (fun merged key => merged.assign key
      (mergeParam (paramAt platform a key) (paramAt platform b key))) Obj.empty).own.get? key =
      some (mergeParam x (paramAt platform b key)) := by
    refine get?_foldl_at (v := none) (fun o k' hne => get?_assign_of_ne hne) (fun o _ => ?_) a.nodup
      (Dict.mem_keys_of_get? ha) rfl
    rw [hparam, assign_of_ne hkey, Dict.get?_set, if_pos rfl]
  have hframe : ∀ (o : Obj β) k', k' ≠ key →
      (if (o.lookup platform k').isFalsy = true then o.assign k' (paramAt platform b k') else o).own.get? key =
        o.own.get? key := by
    intro o k' hne
    split_ifs
    · exact get?_assign_of_ne hne
    · rfl
  have hunfold : mergeParams platform a b = b.keys.foldl
      (fun merged key => if (merged.lookup platform key).isFalsy then merged.assign key (paramAt platform b key) else merged)
      (a.keys.foldl (fun merged key => merged.assign key
        (mergeParam (paramAt platform a key) (paramAt platform b key))) Obj.empty) := rfl
  rw [hunfold]
  by_cases hmem : key ∈ b.keys
  · have hsome : (b.get? key).isSome = true := Dict.mem_keys_iff.mp hmem
    refine get?_foldl_at hframe (fun o ho => ?_) b.nodup hmem hfirst
    have hlookup : o.lookup platform key = mergeParam x (paramAt platform b key) := by
      rw [Obj.lookup, ho]
    simp only [hlookup, hsome, true_and]
    split_ifs
    · rw [assign_of_ne hkey, Dict.get?_set, if_pos rfl]
    · exact ho
  · have hnone : ¬(b.get? key).isSome = true := fun h => hmem (Dict.mem_keys_iff.mpr h)
    rw [get?_foldl_frame hframe hmem, hfirst]
    exact congrArg some (if_neg fun h => hnone h.1).symm

theorem get?_mergeParams_protoKey : (mergeParams platform a b).own.get? protoKey = none := by
  have hfold : ∀ (f : Obj β → Str → Obj β), (∀ o k', o.own.get? protoKey = none → (f o k').own.get? protoKey = none) →
      ∀ (ks : List Str) (o : Obj β), o.own.get? protoKey = none → (ks.foldl f o).own.get? protoKey = none := by
    intro f hf ks
    induction ks with
    | nil => exact fun o ho => ho
    | cons k ks ih => exact fun o ho => ih _ (hf o k ho)
  refine hfold _ (fun o k' ho => ?_) b.keys _ (hfold _ (fun o k' ho => get?_assign_protoKey ho) a.keys _ rfl)
  split_ifs
  · exact get?_assign_protoKey ho
  · exact ho

section Results

variable {config : QSConfig β}

omit [DecidableEq β] in
theorem get?_assign_unless {P : Prop} [Decidable P] {o : Obj β} {k' : Str} {v : Val β} (h : k' ≠ key) :
    (if P then o else o.assign k' v).own.get? key = o.own.get? key := by
  split_ifs
  · rfl
  · exact get?_assign_of_ne h

omit [DecidableEq β] in
theorem get?_assign_unless_self {r : Val β} {o : Obj β} {d : Option (Val β)} (hkey : key ≠ protoKey)
    (ho : o.own.get? key = d) :
    (if r.isNullish = true ∧ (o.own.get? key).isSome = true then o else o.assign key r).own.get? key =
      if r.isNullish = true ∧ d.isSome = true then d else some r := by
  subst ho
  split_ifs
  · rfl
  · rw [assign_of_ne hkey, Dict.get?_set, if_pos rfl]

/-- What removing does at one key. -/
theorem get?_removeParams {oldParams : Dict Str (Val β)} {v : Val β} (hget : oldParams.get? key = some v)
    (hkey : key ≠ protoKey) :
    (removeParams platform config oldParams b).own.get? key =
      let result := removeParam v (if key ∈ config.integerFields then platform.parseInt (platform.valueText (paramAt platform b key))
        else paramAt platform b key)
      if result.isNullish = true ∧ (config.defaultParams.get? key).isSome = true then config.defaultParams.get? key
      else some result := by
  have hlookup : (Obj.mk oldParams none).lookup platform key = v := by
    rw [Obj.lookup, hget]
  rw [← hlookup]
  refine get?_foldl_at (fun o k' hne => ?_) (fun o ho => ?_) oldParams.nodup (Dict.mem_keys_of_get? hget) rfl
  · exact get?_assign_unless hne
  · exact get?_assign_unless_self hkey ho

theorem get?_removeParams_protoKey {oldParams : Dict Str (Val β)} (hget : oldParams.get? protoKey = none) :
    (removeParams platform config oldParams b).own.get? protoKey = config.defaultParams.get? protoKey := by
  refine get?_foldl_frame (fun o k' hne => get?_assign_unless hne) (fun hmem => ?_) _
  have hsome := Dict.mem_keys_iff.mp hmem
  rw [hget] at hsome
  cases hsome

/-- The old value is merged and removed again. -/
theorem get?_removed (ha : a.get? key = some x) (hkey : key ≠ protoKey) :
    (removeParams platform config (mergeParams platform a b).own b).own.get? key =
      let result := removedVal platform (b.get? key).isSome (decide (key ∈ config.integerFields)) x (paramAt platform b key)
      if result.isNullish = true ∧ (config.defaultParams.get? key).isSome = true then config.defaultParams.get? key
      else some result := by
  rw [get?_removeParams (get?_mergeParams ha hkey) hkey]
  simp only [removedVal, decide_eq_true_eq]

omit [DecidableEq β] in
theorem items_of_isNullish {v : Val β} (h : v.isNullish = true) : v.items = [] := by
  cases v <;> first | rfl | cases h

omit [DecidableEq β] in
/-- No value is the same as every default. -/
theorem exists_default_ne (v : Val β) : ∃ n, v ≠ .one (.num n) := by
  by_cases h : v = .one (.num 1)
  · exact ⟨2, fun h' => by rw [h] at h'; cases h'⟩
  · exact ⟨1, h⟩

/-- Removing what was merged keeps the rest, whatever the defaults are, exactly if each value can be removed. -/
theorem removes_iff (ns : Str) (integerFields : List Str) (ha : ∀ key v, a.get? key = some v → IsParam v)
    (hb : ∀ key v, b.get? key = some v → IsParam v) :
    (∀ defaultParams, RemovesExactly platform ⟨ns, defaultParams, integerFields⟩ a b) ↔
      RemoveSafe platform integerFields a b := by
  constructor
  · intro h key x hx
    have hempty := h .empty key x hx
    simp only [Dict.get?_empty, Option.isSome_none, Bool.false_eq_true, and_false, if_false] at hempty
    split_ifs with hkey
    · subst hkey
      rw [get?_removeParams_protoKey get?_mergeParams_protoKey, Dict.get?_empty] at hempty
      intro i hi
      by_contra hother
      have hmem : i ∈ x.items.filter fun i => i ∉ (b.get? protoKey).elim [] Val.items :=
        List.mem_filter.mpr ⟨hi, decide_eq_true hother⟩
      rw [← hempty] at hmem
      cases hmem
    · rw [← keeps_iff _ (ha key x hx) hb hkey]
      rw [get?_removed hx hkey, Dict.get?_empty] at hempty
      dsimp only at hempty
      rw [if_neg fun h => by cases h.2] at hempty
      refine ⟨hempty, fun hnil => ?_⟩
      -- Another default would be hidden by what is left.
      by_contra hleft
      obtain ⟨n, hn⟩ := exists_default_ne (removedVal platform (b.get? key).isSome (decide (key ∈ integerFields)) x
        (paramAt platform b key))
      have hdefault := h (Dict.empty.set key (.one (.num n))) key x hx
      dsimp only at hdefault
      rw [get?_removed hx hkey, Dict.get?_set, if_pos rfl, if_pos ⟨hnil, rfl⟩] at hdefault
      dsimp only at hdefault
      rw [if_neg fun h => hleft h.1] at hdefault
      exact hn (Option.some.inj hdefault)
  · intro h defaultParams key x hx
    have hsafe := h key x hx
    dsimp only
    split_ifs at hsafe with hkey
    · subst hkey
      have hnil : x.items.filter (fun i => i ∉ (b.get? protoKey).elim [] Val.items) = [] := by
        rw [List.filter_eq_nil_iff]
        intro i hi
        simpa using hsafe i hi
      rw [get?_removeParams_protoKey get?_mergeParams_protoKey, hnil]
      dsimp only
      cases defaultParams.get? protoKey with
      | none => rfl
      | some v => rfl
    · rw [← keeps_iff _ (ha key x hx) hb hkey] at hsafe
      obtain ⟨hitems, hnullish⟩ := hsafe
      rw [get?_removed hx hkey]
      dsimp only
      split_ifs with hdefault hleft hleft
      · rfl
      · exact absurd ⟨hnullish hdefault.1, hdefault.2⟩ hleft
      · refine absurd ⟨?_, hleft.2⟩ hdefault
        rw [← hitems, items_of_isNullish hleft.1]
      · exact hitems

end Results

end Forail.QueryStrings
