import Forail.Base.Dict
import Mathlib.Data.Int.Notation
import Mathlib.Tactic.SplitIfs

/-! Values of a dynamically typed language as JSON has them: truth, equality, text, and paths
into nested dictionaries. -/

namespace Forail

/-- A number as comparisons see it: an integer, or a fraction with its text. -/
inductive Number
  | integer (n : ℤ)
  | fraction (repr : String)
  deriving DecidableEq

/-- A value of the in-memory inventory; of a float the text and the number, none for `nan`. -/
inductive Value
  | null
  | bool (b : Bool)
  | int (n : ℤ)
  | float (repr : {s : String // s ≠ ""}) (number : Option Number)
  | str (s : String)
  | list (vs : List Value)
  | dict (es : List (String × Value))

/-- `bool`. -/
def Value.truth : Value → Bool
  | .null => false
  | .bool b => b
  | .int n => n ≠ 0
  | .float _ number => number ≠ some (.integer 0)
  | .str s => s ≠ ""
  | .list vs => !vs.isEmpty
  | .dict es => !es.isEmpty

/-- The number that a truth value, an integer or a float is. -/
def Value.number? : Value → Option Number
  | .bool b => some (.integer b.toNat)
  | .int n => some (.integer n)
  | .float _ number => number
  | _ => none

mutual
/-- `==`: numbers of all types by their value, dictionaries without the order of their keys. -/
def Value.eq (v w : Value) : Bool :=
  match v with
  | .null => match w with
    | .null => true
    | _ => false
  | .str s => match w with
    | .str t => s = t
    | _ => false
  | .list vs => match w with
    | .list ws => eqList vs ws
    | _ => false
  | .dict es => match w with
    | .dict fs => eqEntries es fs && fs.all fun f => (es.lookup f.1).isSome
    | _ => false
  | v => v.number?.isSome && v.number? = w.number?

def eqList : List Value → List Value → Bool
  | [], ws => ws.isEmpty
  | v :: vs, ws => match ws with
    | [] => false
    | w :: ws => v.eq w && eqList vs ws

def eqEntries : List (String × Value) → List (String × Value) → Bool
  | [], _ => true
  | (key, v) :: es, fs => (match fs.lookup key with
    | some w => v.eq w
    | none => false) && eqEntries es fs
end

def eqAt : Option Value → Option Value → Bool
  | some v, some w => v.eq w
  | none, none => true
  | _, _ => false

section Text
variable (quote : String → String)

mutual
/-- `repr`, for strings the text that Python quotes. -/
def Value.repr : Value → String
  | .null => "None"
  | .bool b => if b then "True" else "False"
  | .int n => if n < 0 then "-" ++ String.ofList (Nat.toDigits 10 n.natAbs)
      else String.ofList (Nat.toDigits 10 n.natAbs)
  | .float repr _ => repr
  | .str s => quote s
  | .list vs => "[" ++ reprList vs ++ "]"
  | .dict es => "\x7b" ++ reprEntries es ++ "\x7d"

def reprList : List Value → String
  | [] => ""
  | [v] => v.repr
  | v :: vs => v.repr ++ ", " ++ reprList vs

def reprEntries : List (String × Value) → String
  | [] => ""
  | [(key, v)] => quote key ++ ": " ++ v.repr
  | (key, v) :: es => quote key ++ ": " ++ v.repr ++ ", " ++ reprEntries es
end

/-- `smart_str`, which is `str` of what is not a string. -/
def Value.smartStr (v : Value) : String :=
  match v with
  | .str s => s
  | v => v.repr quote

end Text

/-- `get` of the values that have it. -/
def Value.get? : Value → Option (String → Option Value)
  | .dict es => some fun key => es.lookup key
  | _ => none

/-- The value at a path, the empty string where it ends early. -/
def Value.follow : Value → List String → Value
  | v, [] => v
  | v, key :: keys =>
    match v.get? with
    | none => .str ""
    | some get => ((get key).getD (.str "")).follow keys

/-- The value at a path, none where it ends early. -/
def Value.at? : Value → List String → Option Value
  | v, [] => some v
  | v, key :: keys => do
    let get ← v.get?
    let next ← get key
    next.at? keys

namespace Value

theorem truth_of_number {v : Value} {k : Number} (h : v.number? = some k) :
    v.truth = decide (k ≠ .integer 0) := by
  cases v with
  | bool b => cases b <;> cases h <;> rfl
  | int n =>
    cases h
    simp [truth]
  | float repr number =>
    cases h
    simp [truth]
  | null => cases h
  | str s => cases h
  | list vs => cases h
  | dict es => cases h

/-- The cases of two equal values. -/
theorem eq_cases {v w : Value} (h : v.eq w = true) :
    (∃ k, v.number? = some k ∧ w.number? = some k) ∨ (v = .null ∧ w = .null) ∨
      (∃ s, v = .str s ∧ w = .str s) ∨ (∃ vs ws, v = .list vs ∧ w = .list ws ∧ eqList vs ws = true) ∨
      ∃ es fs, v = .dict es ∧ w = .dict fs ∧ eqEntries es fs = true ∧
        ∀ f ∈ fs, (es.lookup f.1).isSome = true := by
  unfold Value.eq at h
  split at h
  case h_1 =>
    split at h
    · exact .inr (.inl ⟨rfl, rfl⟩)
    · cases h
  case h_2 s =>
    split at h
    · rw [of_decide_eq_true h]
      exact .inr (.inr (.inl ⟨_, rfl, rfl⟩))
    · cases h
  case h_3 vs =>
    split at h
    · exact .inr (.inr (.inr (.inl ⟨_, _, rfl, rfl, h⟩)))
    · cases h
  case h_4 es =>
    split at h
    · obtain ⟨he, hf⟩ := Bool.and_eq_true_iff.mp h
      exact .inr (.inr (.inr (.inr ⟨_, _, rfl, rfl, he, List.all_eq_true.mp hf⟩)))
    · cases h
  case h_5 =>
    obtain ⟨hs, hk⟩ := Bool.and_eq_true_iff.mp h
    obtain ⟨k, hv⟩ := Option.isSome_iff_exists.mp hs
    exact .inl ⟨k, hv, (of_decide_eq_true hk) ▸ hv⟩

theorem eqEntries_lookup {es fs : List (String × Value)} (h : eqEntries es fs = true)
    {key : String} {v : Value} (hv : es.lookup key = some v) :
    ∃ w, fs.lookup key = some w ∧ v.eq w = true := by
  induction es with
  | nil => cases hv
  | cons e es ih =>
    obtain ⟨key', v'⟩ := e
    rw [eqEntries] at h
    obtain ⟨he, hes⟩ := Bool.and_eq_true_iff.mp h
    rw [Dict.lookup_cons_ite] at hv
    split_ifs at hv with hk
    · cases hv
      subst hk
      split at he
      · exact ⟨_, ‹_›, he⟩
      · cases he
    · exact ih hes hv

/-- Equal dictionaries have equal values at each key. -/
theorem eqAt_lookup {es fs : List (String × Value)} (h : eqEntries es fs = true)
    (hfs : ∀ f ∈ fs, (es.lookup f.1).isSome = true) (key : String) :
    eqAt (es.lookup key) (fs.lookup key) = true := by
  cases hv : es.lookup key with
  | some v =>
    obtain ⟨w, hw, heq⟩ := eqEntries_lookup h hv
    rw [hw]
    exact heq
  | none =>
    cases hw : fs.lookup key with
    | none => rfl
    | some w =>
      obtain ⟨l₁, l₂, rfl, -⟩ := List.lookup_eq_some_iff.mp hw
      have hsome := hfs (key, w) (List.mem_append_right l₁ List.mem_cons_self)
      rw [hv] at hsome
      cases hsome

theorem eq_truth {v w : Value} (h : v.eq w = true) : v.truth = w.truth := by
  rcases eq_cases h with ⟨k, hv, hw⟩ | ⟨rfl, rfl⟩ | ⟨s, rfl, rfl⟩ | ⟨vs, ws, rfl, rfl, hl⟩ |
    ⟨es, fs, rfl, rfl, he, hf⟩
  · rw [truth_of_number hv, truth_of_number hw]
  · rfl
  · rfl
  · cases vs with
    | nil => cases ws with
      | nil => rfl
      | cons w ws => cases hl
    | cons v vs => cases ws with
      | nil => cases hl
      | cons w ws => rfl
  · cases es with
    | nil => cases fs with
      | nil => rfl
      | cons f fs => cases hf f List.mem_cons_self
    | cons e es => cases fs with
      | nil =>
        rw [eqEntries] at he
        cases he
      | cons f fs => rfl

theorem eq_empty {w : Value} (h : Value.eq (.str "") w = true) : w = .str "" := by
  rcases eq_cases h with ⟨k, hv, hw⟩ | ⟨hv, -⟩ | ⟨s, hv, hw⟩ | ⟨vs, ws, hv, -⟩ | ⟨es, fs, hv, -⟩
  · cases hv
  · cases hv
  · rw [hw, ← hv]
  · cases hv
  · cases hv

theorem eqAt_getD {v w : Option Value} (h : eqAt v w = true) :
    Value.eq (v.getD (.str "")) (w.getD (.str "")) = true := by
  cases v with
  | none => cases w with
    | none => rfl
    | some w => cases h
  | some v => cases w with
    | none => cases h
    | some w => exact h

/-- Equal values lead to equal values along a path. -/
theorem eq_follow {v w : Value} (h : v.eq w = true) (keys : List String) :
    (v.follow keys).eq (w.follow keys) = true := by
  induction keys generalizing v w with
  | nil => exact h
  | cons key keys ih =>
    have hnumber : ∀ {u : Value} {k : Number}, u.number? = some k → u.get? = none := by
      intro u k hu
      cases u <;> first | rfl | cases hu
    rcases eq_cases h with ⟨k, hv, hw⟩ | ⟨rfl, rfl⟩ | ⟨s, rfl, rfl⟩ | ⟨vs, ws, rfl, rfl, -⟩ |
      ⟨es, fs, rfl, rfl, he, hf⟩
    · rw [follow, follow, hnumber hv, hnumber hw]
      rfl
    · rfl
    · rfl
    · rfl
    · exact ih (eqAt_getD (eqAt_lookup he hf key))

theorem append_ne_empty (s t : String) (h : s ≠ "") : s ++ t ≠ "" := fun hst =>
  h (String.append_eq_empty_iff.mp hst).1

theorem digits_ne_empty (n : ℕ) : String.ofList (Nat.toDigits 10 n) ≠ "" := by
  intro h
  have hlist := congrArg String.toList h
  rw [String.toList_ofList] at hlist
  exact Nat.toDigits_ne_nil hlist

theorem repr_ne_empty {quote : String → String} {v : Value} (hv : ∀ s, v ≠ .str s) :
    v.repr quote ≠ "" := by
  cases v with
  | null =>
    unfold Value.repr
    decide
  | bool b =>
    unfold Value.repr
    cases b <;> decide
  | int n =>
    unfold Value.repr
    split_ifs
    · exact append_ne_empty _ _ (by decide)
    · exact digits_ne_empty _
  | float repr number =>
    unfold Value.repr
    exact repr.2
  | str s => exact absurd rfl (hv s)
  | list vs =>
    unfold Value.repr
    exact append_ne_empty _ _ (append_ne_empty _ _ (by decide))
  | dict es =>
    unfold Value.repr
    exact append_ne_empty _ _ (append_ne_empty _ _ (by decide))

/-- The text of a value is empty for the empty string only. -/
theorem smartStr_eq_empty {quote : String → String} {v : Value} (h : v.smartStr quote = "") :
    v = .str "" := by
  unfold Value.smartStr at h
  split at h
  case h_1 s => rw [h]
  case h_2 v hv => exact absurd h (repr_ne_empty fun s hs => hv s hs)

theorem follow_empty (keys : List String) : Value.follow (.str "") keys = .str "" := by
  cases keys with
  | nil => rfl
  | cons key keys => rfl

end Value

/-! ### Distinct keys -/

mutual
/-- The dictionaries in the value have distinct keys. -/
def Value.WellFormed : Value → Prop
  | .list vs => WellFormedList vs
  | .dict es => (es.map Prod.fst).Nodup ∧ WellFormedEntries es
  | _ => True

def WellFormedList : List Value → Prop
  | [] => True
  | v :: vs => v.WellFormed ∧ WellFormedList vs

def WellFormedEntries : List (String × Value) → Prop
  | [] => True
  | e :: es => e.2.WellFormed ∧ WellFormedEntries es
end

namespace Value

theorem lookup_of_mem {es : List (String × Value)} (hnodup : (es.map Prod.fst).Nodup)
    {e : String × Value} (he : e ∈ es) : es.lookup e.1 = some e.2 :=
  Dict.get?_of_mem_entries (d := ⟨es, hnodup⟩) he

theorem eqEntries_of {es fs : List (String × Value)}
    (h : ∀ e ∈ es, ∃ w, fs.lookup e.1 = some w ∧ e.2.eq w = true) : eqEntries es fs = true := by
  induction es with
  | nil => rfl
  | cons e es ih =>
    obtain ⟨w, hw, heq⟩ := h e List.mem_cons_self
    rw [eqEntries, hw, Bool.and_eq_true]
    exact ⟨heq, ih fun e he => h e (List.mem_cons_of_mem _ he)⟩

theorem WellFormedEntries.of_mem {es : List (String × Value)} (h : WellFormedEntries es)
    {e : String × Value} (he : e ∈ es) : e.2.WellFormed := by
  induction es with
  | nil => cases he
  | cons e' es ih =>
    rcases List.mem_cons.mp he with rfl | he
    · exact h.1
    · exact ih h.2 he

theorem eq_of_number {v w : Value} {k : Number} (hv : v.number? = some k) (hw : w.number? = some k) :
    v.eq w = true := by
  unfold Value.eq
  cases v <;> first | cases hv; done | simp [hv, hw]

theorem eq_symm_of_leaf {v w : Value} (hlist : ∀ vs, v ≠ .list vs) (hdict : ∀ es, v ≠ .dict es)
    (h : v.eq w = true) : w.eq v = true := by
  rcases eq_cases h with ⟨k, hk, hk'⟩ | ⟨rfl, rfl⟩ | ⟨s, rfl, rfl⟩ | ⟨vs, ws, hvs, -⟩ | ⟨es, fs, hes, -⟩
  · exact eq_of_number hk' hk
  · rfl
  · unfold Value.eq
    exact decide_eq_true rfl
  · exact absurd hvs (hlist vs)
  · exact absurd hes (hdict es)

mutual
/-- `==` is symmetric on well-formed values. -/
theorem eq_symm : ∀ {v w : Value}, v.WellFormed → w.WellFormed → v.eq w = true → w.eq v = true
  | .list vs, w, hv, hw, h => by
    rcases eq_cases h with ⟨k, hk, -⟩ | ⟨hnull, -⟩ | ⟨s, hs, -⟩ | ⟨vs', ws, hvs, rfl, hl⟩ |
      ⟨es, fs, hes, -⟩
    · cases hk
    · cases hnull
    · cases hs
    · cases hvs
      unfold Value.eq
      exact eqList_symm hv hw hl
    · cases hes
  | .dict es, w, hv, hw, h => by
    rcases eq_cases h with ⟨k, hk, -⟩ | ⟨hnull, -⟩ | ⟨s, hs, -⟩ | ⟨vs, ws, hvs, -⟩ |
      ⟨es', fs, hes, rfl, he, hf⟩
    · cases hk
    · cases hnull
    · cases hs
    · cases hvs
    · cases hes
      unfold Value.eq
      rw [Bool.and_eq_true]
      refine ⟨eqEntries_of fun f hf' => ?_, List.all_eq_true.mpr fun e he' => ?_⟩
      · obtain ⟨v, hlookup⟩ := Option.isSome_iff_exists.mp (hf f hf')
        refine ⟨v, hlookup, ?_⟩
        obtain ⟨w, hw', heq⟩ := eqEntries_lookup he hlookup
        rw [lookup_of_mem hw.1 hf'] at hw'
        rw [← Option.some.inj hw'] at heq
        have hmem : (f.1, v) ∈ es := by
          obtain ⟨l₁, l₂, hl, -⟩ := List.lookup_eq_some_iff.mp hlookup
          rw [hl]
          exact List.mem_append_right l₁ List.mem_cons_self
        exact eqEntries_symm hv.2 hmem (WellFormedEntries.of_mem hw.2 hf') heq
      · obtain ⟨w, hw', -⟩ := eqEntries_lookup he (lookup_of_mem hv.1 he')
        exact Option.isSome_iff_exists.mpr ⟨w, hw'⟩
  | .null, _, _, _, h => eq_symm_of_leaf nofun nofun h
  | .str _, _, _, _, h => eq_symm_of_leaf nofun nofun h
  | .bool _, _, _, _, h => eq_symm_of_leaf nofun nofun h
  | .int _, _, _, _, h => eq_symm_of_leaf nofun nofun h
  | .float _ _, _, _, _, h => eq_symm_of_leaf nofun nofun h

theorem eqList_symm : ∀ {vs ws : List Value}, WellFormedList vs → WellFormedList ws →
    eqList vs ws = true → eqList ws vs = true
  | [], ws, _, _, h => by
    rw [eqList, List.isEmpty_iff] at h
    rw [h]
    rfl
  | v :: vs, ws, hvs, hws, h => by
    cases ws with
    | nil => cases h
    | cons w ws =>
      rw [eqList, Bool.and_eq_true] at h ⊢
      exact ⟨eq_symm hvs.1 hws.1 h.1, eqList_symm hvs.2 hws.2 h.2⟩

theorem eqEntries_symm : ∀ {es : List (String × Value)}, WellFormedEntries es →
    ∀ {e : String × Value}, e ∈ es → ∀ {w : Value}, w.WellFormed → e.2.eq w = true → w.eq e.2 = true
  | [], _, _, he, _, _, _ => by cases he
  | (_, _) :: es, hes, e, he, w, hw, h => by
    rcases List.mem_cons.mp he with rfl | he
    · exact eq_symm hes.1 hw h
    · exact eqEntries_symm hes.2 he hw h
end

theorem eq_comm_of {v w : Value} (hv : v.WellFormed) (hw : w.WellFormed) : v.eq w = w.eq v :=
  Bool.eq_iff_iff.mpr ⟨eq_symm hv hw, eq_symm hw hv⟩

end Value

end Forail
