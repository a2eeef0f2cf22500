import Forail.Utils.FactFilter
import Mathlib.Data.List.Nodup
import Mathlib.Tactic.Common

/-! The pattern of a fact filter is contained in exactly the facts in which its path reaches its value.
Each level of the pattern is left open by its own step of the loop and filled by the next one, and what
is filled is never touched again. -/

namespace Forail.SmartFilter

theorem containedIn_level_iff {p : Str} {below d : Json} :
    containedIn (level p below) d = true ↔ ∃ w, d.member (keyOf p) = some w ∧
      if StepsInto p then ∃ x ∈ w.elements, containedIn below x = true
      else containedIn below w = true := by
  cases d with
  | scalar w => simp [level, containedIn, Json.member]
  | array ds => simp [level, containedIn, Json.member]
  | object ds =>
    rw [level, containedIn, entriesIn, entriesIn, Bool.and_true, Option.any_eq_true]
    refine exists_congr fun w => and_congr_right fun _ => ?_
    by_cases hp : StepsInto p
    · rw [if_pos hp, if_pos hp]
      cases w with
      | scalar w => simp [containedIn, Json.elements]
      | array items => simp [containedIn, itemsIn, Json.elements]
      | object entries => simp [containedIn, Json.elements]
    · rw [if_neg hp, if_neg hp]

theorem containedIn_nested_iff (ps : List Str) (v : Scalar) (d : Json) :
    containedIn (nested ps v) d = true ↔ Reached d ps v := by
  induction ps generalizing d with
  | nil =>
    cases d with
    | scalar w => simp [nested, containedIn, Reached, eq_comm]
    | array ds => simp [nested, containedIn, Reached]
    | object ds => simp [nested, containedIn, Reached]
  | cons p ps ih =>
    rw [nested, List.foldr_cons, ← nested, containedIn_level_iff]
    simp only [ih, Reached]

/-- The exception for arrays does not apply: a pattern is an object. -/
theorem contains_nested_iff {ps : List Str} (hne : ps ≠ []) (v : Scalar) (d : Json) :
    contains d (nested ps v) = true ↔ Reached d ps v := by
  obtain ⟨p, ps, rfl⟩ := List.exists_cons_of_ne_nil hne
  rw [← containedIn_nested_iff, contains.eq_def, nested, List.foldr_cons, ← nested, level]
  cases d with
  | scalar w => simp
  | array ds => simp
  | object ds => simp

/-! ### One level on the heap -/

/-- The level of a piece, as its own step leaves it. -/
structure Opened (heap : Heap) (kv v : ℕ) (p : Str) : Prop where
  dict : heap[kv]? = some (.dict [(keyOf p, .object v)])
  container : heap[v]? = some (if StepsInto p then .list [] else .dict [])

/-- The level with what the next step puts into it. -/
def Filled (heap : Heap) (kv v : ℕ) (p : Str) (r : Ref) : Prop :=
  if StepsInto p then
    heap[kv]? = some (.dict [(keyOf p, .object v)]) ∧ heap[v]? = some (.list [r])
  else heap[kv]? = some (.dict [(keyOf p, r)])

variable {heap : Heap} {kv v : ℕ} {p : Str} {r : Ref}

theorem Opened.ne (h : Opened heap kv v p) : kv ≠ v := by
  rintro rfl
  have heq := h.dict.symm.trans h.container
  split_ifs at heq
  · simp at heq
  · simp at heq

theorem Opened.kv_lt (h : Opened heap kv v p) : kv < heap.length :=
  (List.getElem?_eq_some_iff.mp h.dict).1

theorem Opened.v_lt (h : Opened heap kv v p) : v < heap.length :=
  (List.getElem?_eq_some_iff.mp h.container).1

/-- What is put into an open level changes that level only. -/
theorem Opened.put (h : Opened heap kv v p) (r : Ref) :
    ∃ heap', put heap v kv r = some heap' ∧ heap'.length = heap.length ∧
      (∀ a, a ≠ kv → a ≠ v → heap'[a]? = heap[a]?) ∧ Filled heap' kv v p r := by
  have hcontainer := h.container
  by_cases hp : StepsInto p
  · rw [if_pos hp] at hcontainer
    refine ⟨heap.set v (.list [r]), by simp [SmartFilter.put, hcontainer], List.length_set, ?_, ?_⟩
    · intro a _ hv
      exact List.getElem?_set_ne hv.symm
    · rw [Filled, if_pos hp, List.getElem?_set_ne h.ne.symm, List.getElem?_set_self h.v_lt]
      exact ⟨h.dict, rfl⟩
  · rw [if_neg hp] at hcontainer
    refine ⟨heap.set kv (.dict [(keyOf p, r)]), by simp [SmartFilter.put, hcontainer, h.dict],
      List.length_set, ?_, ?_⟩
    · intro a hkv _
      exact List.getElem?_set_ne hkv.symm
    · rw [Filled, if_neg hp, List.getElem?_set_self h.kv_lt]

theorem Filled.congr {heap' : Heap} (h : Filled heap kv v p r) (hkv : heap'[kv]? = heap[kv]?)
    (hv : heap'[v]? = heap[v]?) : Filled heap' kv v p r := by
  rw [Filled, hkv, hv]
  exact h

theorem read_list {below : Json} {addresses : List ℕ} {depth : ℕ} (h : heap[v]? = some (.list [r]))
    (hr : read heap depth r = some (below, addresses)) :
    read heap (depth + 1) (.object v) = some (.array [below], v :: addresses) := by
  rw [read, h]
  simp [hr]

theorem read_dict {k : Str} {below : Json} {addresses : List ℕ} {depth : ℕ}
    (h : heap[kv]? = some (.dict [(k, r)])) (hr : read heap depth r = some (below, addresses)) :
    read heap (depth + 1) (.object kv) = some (.object [(k, below)], kv :: addresses) := by
  rw [read, h]
  simp [hr]

/-- The objects of a level. The dictionary that is made for a piece without brackets is replaced. -/
def ownAddresses (kv v : ℕ) (p : Str) : List ℕ := if StepsInto p then [kv, v] else [kv]

theorem mem_ownAddresses {a : ℕ} (h : a ∈ ownAddresses kv v p) : a = kv ∨ a = v := by
  rw [ownAddresses] at h
  split_ifs at h
  · exact List.mem_pair.mp h
  · exact .inl (List.mem_singleton.mp h)

theorem nodup_ownAddresses (h : kv ≠ v) (p : Str) : (ownAddresses kv v p).Nodup := by
  rw [ownAddresses]
  split_ifs
  · simpa using h
  · exact List.nodup_singleton kv

theorem Filled.read {below : Json} {addresses : List ℕ} {n : ℕ} (h : Filled heap kv v p r)
    (hr : ∀ depth, n ≤ depth → read heap depth r = some (below, addresses)) :
    ∀ depth, n + 2 ≤ depth →
      read heap depth (.object kv) = some (level p below, ownAddresses kv v p ++ addresses) := by
  intro depth hdepth
  obtain ⟨depth, rfl⟩ : ∃ m, depth = m + 2 := ⟨depth - 2, by omega⟩
  rw [level, ownAddresses]
  by_cases hp : StepsInto p
  · rw [Filled, if_pos hp] at h
    rw [if_pos hp, if_pos hp]
    exact read_dict h.1 (read_list h.2 (hr depth (by omega)))
  · rw [Filled, if_neg hp] at h
    rw [if_neg hp, if_neg hp]
    exact read_dict h (hr (depth + 1) (by omega))

/-! ### The loop over the pieces -/

/-- What the loop and the last assignment make of a level that is open. -/
theorem Opened.run (value : Scalar) (first : Option ℕ) (ps : List Str) (h : Opened heap kv v p) :
    ∃ s heap' addresses, ps.foldlM assemble ⟨heap, first, some (v, kv)⟩ = some s ∧
      s.assembledV = first ∧ s.putLast (.scalar value) = some heap' ∧
      heap'.length = heap.length + 2 * ps.length ∧
      (∀ a, a < heap.length → a ≠ kv → a ≠ v → heap'[a]? = heap[a]?) ∧
      addresses.Nodup ∧ (∀ a ∈ addresses, a = kv ∨ a = v ∨ heap.length ≤ a) ∧
      ∀ depth, 2 * ps.length + 2 ≤ depth →
        read heap' depth (.object kv) = some (level p (nested ps value), addresses) := by
  induction ps generalizing heap kv v p with
  | nil =>
    obtain ⟨heap', hput, hlength, hframe, hfilled⟩ := h.put (.scalar value)
    have hvalue : ∀ depth, 0 ≤ depth → read heap' depth (.scalar value) = some (.scalar value, []) := by
      intro depth _
      cases depth with
      | zero => rfl
      | succ depth => rfl
    have hread := hfilled.read hvalue
    rw [List.append_nil] at hread
    refine ⟨_, heap', _, rfl, rfl, hput, hlength, fun a _ => hframe a, nodup_ownAddresses h.ne p,
      fun a ha => ?_, hread⟩
    rcases mem_ownAddresses ha with rfl | rfl
    · exact .inl rfl
    · exact .inr (.inl rfl)
  | cons q ps ih =>
    -- The step appends its level and puts it into the one before.
    have happend : ∀ {a}, a < heap.length →
        (heap ++ [.dict [(keyOf q, .object (heap.length + 1))],
          if StepsInto q then .list [] else .dict []])[a]? = heap[a]? :=
      fun ha => List.getElem?_append_left ha
    have hopened : Opened (heap ++ [.dict [(keyOf q, .object (heap.length + 1))],
        if StepsInto q then .list [] else .dict []]) kv v p :=
      ⟨(happend h.kv_lt).trans h.dict, (happend h.v_lt).trans h.container⟩
    obtain ⟨heap₁, hput, hlength, hframe, hfilled⟩ := hopened.put (.object heap.length)
    have hnew : Opened heap₁ heap.length (heap.length + 1) q := by
      refine ⟨?_, ?_⟩
      · rw [hframe _ h.kv_lt.ne' h.v_lt.ne', List.getElem?_append_right le_rfl, Nat.sub_self]
        rfl
      · have hkv := h.kv_lt
        have hv := h.v_lt
        rw [hframe _ (by omega) (by omega), List.getElem?_append_right (Nat.le_succ _),
          Nat.succ_sub le_rfl, Nat.sub_self]
        rfl
    obtain ⟨s, heap', addresses, hrun, hfirst, hlast, hlength', hframe', hnodup, hnewer, hread⟩ := ih hnew
    rw [List.length_append] at hlength
    have hsame : ∀ {a}, a < heap.length → heap'[a]? = heap₁[a]? := by
      intro a ha
      simp only [List.length_cons, List.length_nil] at hlength
      exact hframe' a (by omega) (by omega) (by omega)
    have hlevel := (hfilled.congr (hsame h.kv_lt) (hsame h.v_lt)).read hread
    refine ⟨s, heap', _, ?_, hfirst, hlast, ?_, ?_, ?_, ?_, hlevel⟩
    · rw [List.foldlM_cons, assemble]
      simp only [hput, Option.bind_eq_bind, Option.bind_some]
      exact hrun
    · simp only [List.length_cons, List.length_nil] at hlength ⊢
      omega
    · intro a ha hkv hv
      rw [hsame ha, hframe a hkv hv, happend ha]
    · refine (nodup_ownAddresses h.ne p).append hnodup fun a ha hnew => ?_
      have hkv := h.kv_lt
      have hv := h.v_lt
      rcases mem_ownAddresses ha with rfl | rfl <;> rcases hnewer _ hnew with heq | heq | hle <;> omega
    · intro a ha
      rcases List.mem_append.mp ha with hown | hnew
      · rcases mem_ownAddresses hown with rfl | rfl
        · exact .inl rfl
        · exact .inr (.inl rfl)
      · refine .inr (.inr ?_)
        rcases hnewer a hnew with rfl | rfl | hle <;> omega

/-! ### The key -/

theorem exact_eq : "__exact".toList = "__".toList ++ "exact".toList := rfl

theorem stripLookup_other {lookup : Str} (h : lookup ≠ "exact".toList) (k : Str) :
    stripLookup k lookup = k := by
  have hne : "__".toList ++ lookup ≠ "__exact".toList := by
    rw [exact_eq]
    exact fun heq => h (List.append_cancel_left heq)
  rw [stripLookup, if_neg hne, ite_self]

theorem stripLookup_exact (k : Str) : stripLookup (k ++ "__exact".toList) "exact".toList = k := by
  rw [stripLookup, ← exact_eq, if_pos (List.suffix_append k _), if_pos rfl, List.length_append]
  exact List.take_left' (Nat.add_sub_cancel _ _).symm

theorem stripLookup_of_not_suffix {k : Str} (h : ¬ "__exact".toList <:+ k) (lookup : Str) :
    stripLookup k lookup = k := by
  by_cases hlookup : lookup = "exact".toList
  · subst hlookup
    exact if_neg h
  · exact stripLookup_other hlookup k

theorem stripLookups_other {lookups : List Str} (h : "exact".toList ∉ lookups) (k : Str) :
    stripLookups lookups k = k := by
  induction lookups with
  | nil => rfl
  | cons lookup lookups ih =>
    obtain ⟨hlookup, hlookups⟩ := List.ne_and_not_mem_of_not_mem_cons h
    rw [stripLookups, List.foldl_cons, stripLookup_other hlookup.symm]
    exact ih hlookups

theorem stripLookups_of_not_suffix (lookups : List Str) {k : Str} (h : ¬ "__exact".toList <:+ k) :
    stripLookups lookups k = k := by
  induction lookups with
  | nil => rfl
  | cons lookup lookups ih =>
    rw [stripLookups, List.foldl_cons, stripLookup_of_not_suffix h]
    exact ih

/-- The suffix is taken off once, as the lookups are different. -/
theorem stripLookups_exact {lookups : List Str} (hnodup : lookups.Nodup) (hexact : "exact".toList ∈ lookups)
    (k : Str) : stripLookups lookups (k ++ "__exact".toList) = k := by
  induction lookups with
  | nil => cases hexact
  | cons lookup lookups ih =>
    rw [List.nodup_cons] at hnodup
    rw [stripLookups, List.foldl_cons]
    by_cases hlookup : lookup = "exact".toList
    · subst hlookup
      rw [stripLookup_exact]
      exact stripLookups_other hnodup.1 k
    · rw [stripLookup_other hlookup]
      exact ih hnodup.2 ((List.mem_cons.mp hexact).resolve_left fun h => hlookup h.symm)

/-- `ansible_facts__p1__...__pn`. -/
def factsKey (segments : List Str) : Str :=
  searchableRelationship ++ "__".toList ++ "__".toList.intercalate segments

theorem stripRelationship_factsKey (segments : List Str) :
    stripRelationship (factsKey segments) = "__".toList.intercalate segments := by
  rw [stripRelationship, factsKey, if_pos (List.prefix_append _ _)]
  exact List.drop_left' rfl

/-! ### The pattern follows the path -/

/-- The answer for a key is a pattern of one key for each segment, whose objects are all different, and
which is contained in exactly the facts where the path reaches the value. -/
def Follows (lookups : List Str) (k : Str) (segments : List Str) (v value : Scalar) : Prop :=
  ∃ a heap pattern addresses,
    jsonPathToContains lookups k v = some ("ansible_facts__contains".toList, .object a, heap) ∧
    read heap heap.length (.object a) = some (pattern, addresses) ∧ addresses.Nodup ∧
    pattern = nested segments value ∧
    ∀ d, contains d pattern = true ↔ Reached d segments value

/-- The loop builds the pattern of the pieces. -/
theorem follows_of_split {lookups : List Str} {k : Str} {segments : List Str} (v : Scalar)
    (hk : searchableRelationship <+: k) (hne : segments ≠ [])
    (hsplit : splitDouble '_' (stripRelationship (stripLookups lookups k)) = segments) :
    Follows lookups k segments v (stripQuotesJsonLogic v) := by
  obtain ⟨p, ps, rfl⟩ := List.exists_cons_of_ne_nil hne
  have hopened : Opened [.dict [(keyOf p, .object 1)], if StepsInto p then .list [] else .dict []] 0 1 p :=
    ⟨rfl, rfl⟩
  obtain ⟨s, heap, addresses, hrun, hfirst, hlast, hlength, -, hnodup, -, hread⟩ :=
    hopened.run (stripQuotesJsonLogic v) (some 0) ps
  refine ⟨0, heap, _, addresses, ?_, hread _ ?_, hnodup, rfl, contains_nested_iff hne _⟩
  · rw [jsonPathToContains, if_neg (not_not_intro hk), hsplit]
    simp only [List.foldlM_cons, assemble, List.length_nil, List.nil_append, Option.bind_eq_bind,
      Option.bind_some, Option.pure_def, hrun, hfirst, hlast]
    rfl
  · rw [hlength]
    simp only [List.length_cons, List.length_nil]
    omega

/-- A key with or without `__exact`, of whose segments none but the last ends in half a delimiter. -/
theorem followed_exactly {lookups : List Str} (hnodup : lookups.Nodup) (hexact : "exact".toList ∈ lookups)
    {segments : List Str} (hne : segments ≠ []) (hnames : ∀ p ∈ segments, ¬ "__".toList <:+: p)
    (hends : ∀ p ∈ segments.dropLast, p.getLast? ≠ some '_') (v : Scalar) :
    Follows lookups (factsKey segments ++ "__exact".toList) segments v (stripQuotesJsonLogic v) ∧
    (¬ "__exact".toList <:+ factsKey segments →
      Follows lookups (factsKey segments) segments v (stripQuotesJsonLogic v)) := by
  have hsplit : splitDouble '_' (stripRelationship (factsKey segments)) = segments := by
    rw [stripRelationship_factsKey]
    exact splitDouble_intercalate hne hnames hends
  have hstart : searchableRelationship <+: factsKey segments :=
    (List.prefix_append _ _).trans (List.prefix_append _ _)
  constructor
  · refine follows_of_split v (hstart.trans (List.prefix_append _ _)) hne ?_
    rw [stripLookups_exact hnodup hexact, hsplit]
  · intro hsuffix
    refine follows_of_split v hstart hne ?_
    rw [stripLookups_of_not_suffix lookups hsuffix, hsplit]

theorem followed_exactly_example :
    Follows ["contains".toList, "exact".toList] (factsKey ["disks[]".toList, "name".toList] ++ "__exact".toList)
      ["disks[]".toList, "name".toList] (.text "\"sda\"".toList) (.text "sda".toList) := by
  have hnodup : ["contains".toList, "exact".toList].Nodup := by decide
  have hexact : "exact".toList ∈ ["contains".toList, "exact".toList] := by decide
  have hne : ["disks[]".toList, "name".toList] ≠ [] := List.cons_ne_nil _ _
  exact (followed_exactly hnodup hexact hne (by decide) (by decide) (.text "\"sda\"".toList)).1

/-- A segment that ends in half a delimiter loses it to the next one, and the text "null" keeps its
quotes. -/
theorem split_elsewhere_and_null_quoted :
    ¬ Follows ["exact".toList] (factsKey ["a_".toList, "b".toList]) ["a_".toList, "b".toList] (.bool true)
      (.bool true) ∧
    ¬ Follows ["exact".toList] (factsKey ["a".toList]) ["a".toList] (.text "\"null\"".toList)
      (.text "null".toList) := by
  constructor
  · rintro ⟨a, heap, pattern, addresses, hrun, hread, -, -, hfollows⟩
    have hrun' : jsonPathToContains ["exact".toList] (factsKey ["a_".toList, "b".toList]) (.bool true) =
        some ("ansible_facts__contains".toList, .object 0,
          [.dict [("a".toList, .object 2)], .dict [], .dict [("_b".toList, .scalar (.bool true))],
            .dict []]) := by
      decide +kernel
    rw [hrun'] at hrun
    cases hrun
    cases hread
    obtain ⟨w, hw, -⟩ := (hfollows (.object [("a".toList, .object [("_b".toList, .scalar (.bool true))])])).mp
      (by decide)
    cases hw
  · rintro ⟨a, heap, pattern, addresses, hrun, hread, -, -, hfollows⟩
    have hrun' : jsonPathToContains ["exact".toList] (factsKey ["a".toList]) (.text "\"null\"".toList) =
        some ("ansible_facts__contains".toList, .object 0,
          [.dict [("a".toList, .scalar (.text "\"null\"".toList))], .dict []]) := by
      decide +kernel
    rw [hrun'] at hrun
    cases hrun
    cases hread
    obtain ⟨w, hw, hnull⟩ := (hfollows (.object [("a".toList, .scalar (.text "\"null\"".toList))])).mp
      (by decide)
    cases hw
    cases hnull

end Forail.SmartFilter
