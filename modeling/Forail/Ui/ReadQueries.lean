import Forail.Ui.QueryEntries

/-! Queries that are read. A key of a namespace has the merged texts that the query has at the full key, after what
the object inherits at the key when it comes to it. -/

namespace Forail.QueryStrings

open UriComponent

variable {β : Type} [DecidableEq β] {platform : Platform β} {read : Str → Str → Val β} {o : Obj β} {k : Str}

/-! ### One key after the other -/

theorem get?_mergeAt_of_ne {e : Str × Str} (h : e.1 ≠ k) : (mergeAt platform read o e).own.get? k = o.own.get? k :=
  get?_assign_of_ne h

theorem get?_mergeAt_self {e : Str × Str} (hk : e.1 ≠ protoKey) :
    (mergeAt platform read o e).own.get? e.1 = some (mergeParam (o.lookup platform e.1) (read e.1 e.2)) := by
  rw [mergeAt, assign_of_ne hk, Dict.get?_set, if_pos rfl]

theorem proto_mergeAt_of_ne {e : Str × Str} (h : e.1 ≠ protoKey) : (mergeAt platform read o e).proto = o.proto := by
  rw [mergeAt, assign_of_ne h]

theorem get?_mergeAt_protoKey (h : o.own.get? protoKey = none) (e : Str × Str) :
    (mergeAt platform read o e).own.get? protoKey = none :=
  get?_assign_protoKey h

theorem get?_foldl_of_not_mem {l : List (Str × Str)} (h : k ∉ l.map Prod.fst) :
    (l.foldl (mergeAt platform read) o).own.get? k = o.own.get? k := by
  induction l generalizing o with
  | nil => rfl
  | cons e l ih =>
    rw [List.map_cons, List.mem_cons, not_or] at h
    rw [List.foldl_cons, ih h.2, get?_mergeAt_of_ne (Ne.symm h.1)]

theorem get?_foldl_protoKey (h : o.own.get? protoKey = none) (l : List (Str × Str)) :
    (l.foldl (mergeAt platform read) o).own.get? protoKey = none := by
  induction l generalizing o with
  | nil => exact h
  | cons e l ih => exact ih (get?_mergeAt_protoKey h e)

theorem proto_foldl_of_not_mem {l : List (Str × Str)} (h : protoKey ∉ l.map Prod.fst) :
    (l.foldl (mergeAt platform read) o).proto = o.proto := by
  induction l generalizing o with
  | nil => rfl
  | cons e l ih =>
    rw [List.map_cons, List.mem_cons, not_or] at h
    rw [List.foldl_cons, ih h.2, proto_mergeAt_of_ne (Ne.symm h.1)]

/-- The texts of a key that the object has. -/
theorem get?_foldl_some {v : Val β} (hk : k ≠ protoKey) (h : o.own.get? k = some v) (texts : List Str) :
    ((texts.map fun text => (k, text)).foldl (mergeAt platform read) o).own.get? k =
      some ((texts.map (read k)).foldl mergeParam v) := by
  induction texts generalizing o v with
  | nil => exact h
  | cons text texts ih =>
    rw [List.map_cons, List.foldl_cons, List.map_cons, List.foldl_cons]
    apply ih
    have hlookup : o.lookup platform k = v := by
      rw [Obj.lookup, h]
    rw [← hlookup]
    exact get?_mergeAt_self hk

/-- The texts of a key that the object has not. -/
theorem get?_foldl_none (hk : k ≠ protoKey) (h : o.own.get? k = none) {texts : List Str} (hne : texts ≠ []) :
    ((texts.map fun text => (k, text)).foldl (mergeAt platform read) o).own.get? k =
      some ((texts.map (read k)).foldl mergeParam (platform.inherited o.proto k)) := by
  obtain ⟨text, texts, rfl⟩ := List.exists_cons_of_ne_nil hne
  have hlookup : o.lookup platform k = platform.inherited o.proto k := by
    rw [Obj.lookup, h]
    exact if_neg hk
  rw [List.map_cons, List.foldl_cons, List.map_cons, List.foldl_cons, ← hlookup]
  exact get?_foldl_some hk (get?_mergeAt_self hk) texts

/-- The texts at `__proto__`. -/
theorem proto_foldl_protoKey (hread : ∀ k text, IsScalar (read k text)) {items : List (Item β)} (hitems : Present items)
    (hproto : o.proto = protoOf platform items) (h : o.own.get? protoKey = none) (texts : List Str) :
    ((texts.map fun text => (protoKey, text)).foldl (mergeAt platform read) o).proto =
      protoOf platform (items ++ texts.flatMap fun text => kept (read protoKey text)) := by
  induction texts generalizing o items with
  | nil => rw [List.flatMap_nil, List.append_nil, ← hproto]; rfl
  | cons text texts ih =>
    rw [List.map_cons, List.foldl_cons, List.flatMap_cons, ← List.append_assoc]
    refine ih (hitems.append (present_kept (hread _ _))) ?_ (get?_mergeAt_protoKey h _)
    have hlookup : o.lookup platform protoKey =
        collapse (.builtin platform.objectPrototype :: items : List (Item β)).eraseDups := by
      rw [Obj.lookup, h, ← protoVal_eq hproto]
      exact if_pos rfl
    have hmerge : mergeParam (o.lookup platform protoKey) (read protoKey text) =
        collapse (.builtin platform.objectPrototype :: (items ++ kept (read protoKey text)) : List (Item β)).eraseDups := by
      have hpresent : Present (.builtin platform.objectPrototype :: items : List (Item β)) :=
        (present_objectPrototype platform).append hitems
      rw [hlookup, mergeParam_collapse hpresent (hread _ _), List.cons_append]
    rw [mergeAt, hmerge, protoOf]
    rw [List.eraseDups_cons]
    cases hdups : ((items ++ kept (read protoKey text)).filter
        fun b => !b == .builtin platform.objectPrototype).eraseDups with
    | nil =>
      -- The values so far are the prototype of objects itself.
      have hnone : o.proto = none := by
        have hfilter : (items.filter fun b => !b == .builtin platform.objectPrototype).eraseDups = [] := by
          apply List.eq_nil_iff_forall_not_mem.mpr
          intro i hi
          have hmem : i ∈ ((items ++ kept (read protoKey text)).filter
              fun b => !b == .builtin platform.objectPrototype).eraseDups := by
            rw [List.mem_eraseDups, List.filter_append]
            exact List.mem_append_left _ (List.mem_eraseDups.mp hi)
          rw [hdups] at hmem
          cases hmem
        rw [hproto, protoOf, List.eraseDups_cons, hfilter]
      rw [collapse, assign_scalar h (by rintro _ _ ⟨⟩)]
      exact hnone
    | cons i t =>
      have hlist : o.assign protoKey (collapse (.builtin platform.objectPrototype :: i :: t)) =
          { o with proto := some (.builtin platform.objectPrototype :: i :: t) } := assign_list h
      rw [hlist]

/-! ### Groups of texts -/

/-- The pairs of groups. -/
def flat (gs : List (Str × List Str)) : List (Str × Str) := gs.flatMap fun g => g.2.map fun text => (g.1, text)

/-- The texts of a key. -/
def textsOfKey (gs : List (Str × List Str)) (key : Str) : List Str :=
  (gs.find? fun g => g.1 = key).elim [] Prod.snd

/-- The items that the texts of a key bring. -/
def keptAt (read : Str → Str → Val β) (key : Str) (texts : List Str) : List (Item β) :=
  texts.flatMap fun text => kept (read key text)

theorem flat_append (gs hs : List (Str × List Str)) : flat (gs ++ hs) = flat gs ++ flat hs := List.flatMap_append

theorem flat_cons (key : Str) (texts : List Str) (gs : List (Str × List Str)) :
    flat ((key, texts) :: gs) = (texts.map fun text => (key, text)) ++ flat gs := List.flatMap_cons

theorem not_mem_flat {gs : List (Str × List Str)} {key : Str} (h : key ∉ gs.map Prod.fst) :
    key ∉ (flat gs).map Prod.fst := by
  intro hmem
  obtain ⟨e, he, rfl⟩ := List.mem_map.mp hmem
  obtain ⟨g, hg, heg⟩ := List.mem_flatMap.mp he
  obtain ⟨text, -, rfl⟩ := List.mem_map.mp heg
  exact h (List.mem_map_of_mem hg)

theorem find?_of_not_mem {gs : List (Str × List Str)} {key : Str} (h : key ∉ gs.map Prod.fst) :
    (gs.find? fun g => g.1 = key) = none := by
  rw [List.find?_eq_none]
  intro g hg heq
  exact h (of_decide_eq_true heq ▸ List.mem_map_of_mem hg)

theorem textsOfKey_of_not_mem {gs : List (Str × List Str)} {key : Str} (h : key ∉ gs.map Prod.fst) :
    textsOfKey gs key = [] := by
  rw [textsOfKey, find?_of_not_mem h]
  rfl

theorem textsOfKey_split {gs hs : List (Str × List Str)} {key : Str} {texts : List Str}
    (h : key ∉ gs.map Prod.fst) : textsOfKey (gs ++ (key, texts) :: hs) key = texts := by
  rw [textsOfKey, List.find?_append, find?_of_not_mem h, List.find?_cons_of_pos (by simp)]
  rfl

omit [DecidableEq β] in
theorem get?_empty (key : Str) : (Obj.empty : Obj β).own.get? key = none := rfl

theorem get?_foldl_flat {gs hs : List (Str × List Str)} {texts : List Str} (hk : k ≠ protoKey)
    (hgs : k ∉ gs.map Prod.fst) (hhs : k ∉ hs.map Prod.fst) :
    ((flat (gs ++ (k, texts) :: hs)).foldl (mergeAt platform read) .empty).own.get? k =
      if texts = [] then none
      else some ((texts.map (read k)).foldl mergeParam
        (platform.inherited ((flat gs).foldl (mergeAt platform read) .empty).proto k)) := by
  have hnone : ((flat gs).foldl (mergeAt platform read) .empty).own.get? k = none := by
    rw [get?_foldl_of_not_mem (not_mem_flat hgs), get?_empty]
  rw [flat_append, flat_cons, List.foldl_append, List.foldl_append, get?_foldl_of_not_mem (not_mem_flat hhs)]
  split_ifs with htexts
  · rw [htexts]
    exact hnone
  · exact get?_foldl_none hk hnone htexts

theorem proto_foldl_flat (hread : ∀ k text, IsScalar (read k text)) {gs : List (Str × List Str)}
    (hnodup : (gs.map Prod.fst).Nodup) :
    ((flat gs).foldl (mergeAt platform read) .empty).proto =
      protoOf platform (keptAt read protoKey (textsOfKey gs protoKey)) := by
  by_cases hmem : protoKey ∈ gs.map Prod.fst
  · obtain ⟨⟨key, texts⟩, hg, hkey⟩ := List.mem_map.mp hmem
    obtain rfl : key = protoKey := hkey
    obtain ⟨gs, hs, rfl⟩ := List.append_of_mem hg
    rw [List.map_append, List.map_cons, List.nodup_append, List.nodup_cons] at hnodup
    obtain ⟨-, ⟨hhs, -⟩, hdisjoint⟩ := hnodup
    have hgs : protoKey ∉ gs.map Prod.fst := fun h => hdisjoint _ h _ List.mem_cons_self rfl
    rw [textsOfKey_split hgs, flat_append, flat_cons, List.foldl_append, List.foldl_append,
      proto_foldl_of_not_mem (not_mem_flat hhs)]
    have hpresent : Present ([] : List (Item β)) := fun i hi => absurd hi List.not_mem_nil
    refine proto_foldl_protoKey hread hpresent ?_ ?_ texts
    · rw [proto_foldl_of_not_mem (not_mem_flat hgs)]
      rfl
    · exact get?_foldl_protoKey (get?_empty _) _
  · rw [proto_foldl_of_not_mem (not_mem_flat hmem), textsOfKey_of_not_mem hmem]
    rfl

/-! ### Sorted keys -/

theorem codeUnits_cons (c : Char) (s : Str) : codeUnits (c :: s) =
    (if c.toNat < 0x10000 then [c.toNat]
      else [0xD800 + (c.toNat - 0x10000) / 0x400, 0xDC00 + (c.toNat - 0x10000) % 0x400]) ++ codeUnits s :=
  List.flatMap_cons

theorem codeUnits_append (s t : Str) : codeUnits (s ++ t) = codeUnits s ++ codeUnits t := List.flatMap_append

theorem codeUnits_injective {s t : Str} (h : codeUnits s = codeUnits t) : s = t := by
  have hvalid : ∀ c : Char, c.toNat < 0xD800 ∨ 0xDFFF < c.toNat ∧ c.toNat < 0x110000 := fun c => c.valid
  induction s generalizing t with
  | nil =>
    cases t with
    | nil => rfl
    | cons d t =>
      rw [codeUnits_cons] at h
      split_ifs at h <;> cases h
  | cons c s ih =>
    cases t with
    | nil =>
      rw [codeUnits_cons] at h
      split_ifs at h <;> cases h
    | cons d t =>
      have hc := hvalid c
      have hd := hvalid d
      rw [codeUnits_cons, codeUnits_cons] at h
      have hhead : c.toNat = d.toNat ∧ codeUnits s = codeUnits t := by
        split_ifs at h <;>
          simp only [List.cons_append, List.nil_append, List.cons.injEq] at h <;>
          first | exact ⟨by omega, h.2⟩ | exact ⟨by omega, h.2.2⟩ | omega
      rw [ih hhead.2, Char.toNat_inj.mp hhead.1]

theorem unitsLE_total (a b : List ℕ) : unitsLE a b = true ∨ unitsLE b a = true := by
  induction a generalizing b with
  | nil => exact .inl (by cases b <;> rfl)
  | cons m a ih =>
    cases b with
    | nil => exact .inr rfl
    | cons n b =>
      simp only [unitsLE, decide_eq_true_eq]
      obtain hlt | rfl | hlt := lt_trichotomy m n
      · exact .inl (.inl hlt)
      · exact (ih b).imp (fun h => .inr ⟨rfl, h⟩) fun h => .inr ⟨rfl, h⟩
      · exact .inr (.inl hlt)

theorem unitsLE_trans {a b c : List ℕ} (hab : unitsLE a b = true) (hbc : unitsLE b c = true) :
    unitsLE a c = true := by
  induction a generalizing b c with
  | nil => cases c <;> rfl
  | cons l a ih =>
    cases b with
    | nil => cases hab
    | cons m b =>
      cases c with
      | nil => cases hbc
      | cons n c =>
        simp only [unitsLE, decide_eq_true_eq] at hab hbc ⊢
        obtain hlm | ⟨rfl, hab⟩ := hab
        · obtain hmn | ⟨rfl, -⟩ := hbc
          · exact .inl (hlm.trans hmn)
          · exact .inl hlm
        · obtain hln | ⟨rfl, hbc⟩ := hbc
          · exact .inl hln
          · exact .inr ⟨rfl, ih hab hbc⟩

theorem unitsLE_antisymm {a b : List ℕ} (hab : unitsLE a b = true) (hba : unitsLE b a = true) : a = b := by
  induction a generalizing b with
  | nil =>
    cases b with
    | nil => rfl
    | cons n b => cases hba
  | cons m a ih =>
    cases b with
    | nil => cases hab
    | cons n b =>
      simp only [unitsLE, decide_eq_true_eq] at hab hba
      obtain hlt | ⟨rfl, hab⟩ := hab
      · omega
      · have hba := (hba.resolve_left (lt_irrefl m)).2
        rw [ih hab hba]

theorem unitsLE_append (p a b : List ℕ) : unitsLE (p ++ a) (p ++ b) = unitsLE a b := by
  induction p with
  | nil => rfl
  | cons m p ih => simp [unitsLE, ih]

/-- Keys in the order in which they are written. -/
def Before (a b : Str) : Prop := unitsLE (codeUnits a) (codeUnits b) = true ∧ a ≠ b

theorem before_append (p a b : Str) : Before (p ++ a) (p ++ b) ↔ Before a b := by
  rw [Before, Before, codeUnits_append, codeUnits_append, unitsLE_append, ne_eq, List.append_cancel_left_eq]

theorem Before.asymm {a b : Str} (h : Before a b) : ¬Before b a :=
  fun h' => h.2 (codeUnits_injective (unitsLE_antisymm h.1 h'.1))

theorem pairwise_sortKeys {keys : List Str} (h : keys.Nodup) : (sortKeys keys).Pairwise Before := by
  have htotal : ∀ a b : Str, (unitsLE (codeUnits a) (codeUnits b) || unitsLE (codeUnits b) (codeUnits a)) = true := by
    intro a b
    rw [Bool.or_eq_true]
    exact unitsLE_total _ _
  have hsorted : ((keys.mergeSort fun a b => unitsLE (codeUnits a) (codeUnits b))).Pairwise
      fun a b => unitsLE (codeUnits a) (codeUnits b) = true :=
    List.pairwise_mergeSort (fun a b c => @unitsLE_trans (codeUnits a) (codeUnits b) (codeUnits c)) htotal keys
  have hnodup : (sortKeys keys).Nodup := (List.mergeSort_perm keys _).nodup_iff.mpr h
  exact hsorted.and hnodup

/-! ### Inherited values -/

/-- What objects inherit: nothing, or an item that is present and not a string. -/
def IsInherited (v : Val β) : Prop :=
  v = .undefined ∨ ∃ i, v = .one i ∧ (Val.one i).isMissing = false ∧ ∀ s, i ≠ .str s

omit [DecidableEq β] in
theorem elementOf_eq_none {items : List (Item β)} (h : ∀ n, Nat.toDigits 10 n ≠ k) :
    Platform.elementOf items k = none := by
  have hfind : (List.range items.length).find? (fun i => Nat.toDigits 10 i = k) = none := by
    rw [List.find?_eq_none]
    intro n _ heq
    exact h n (of_decide_eq_true heq)
  rw [Platform.elementOf, hfind]
  rfl

theorem codeUnits_of_lt {c : Char} (h : c.toNat < 0x10000) (s : Str) : codeUnits (c :: s) = c.toNat :: codeUnits s := by
  rw [codeUnits_cons, if_pos h, List.singleton_append]

/-- The elements of an array come before `__proto__`. -/
theorem toDigits_ne_of_before (h : Before protoKey k) (n : ℕ) : Nat.toDigits 10 n ≠ k := by
  rintro rfl
  obtain ⟨c, s, hdigits⟩ := List.exists_cons_of_ne_nil (Nat.toDigits_ne_nil (n := n) (b := 10))
  have hc : c.isDigit = true := Nat.isDigit_of_mem_toDigits (n := n) (by decide) (by decide)
    (hdigits ▸ List.mem_cons_self)
  have hlt : c.toNat ≤ 57 := by
    rw [Char.isDigit, Bool.and_eq_true, decide_eq_true_eq, decide_eq_true_eq] at hc
    exact hc.2
  have hle := h.1
  have hproto : codeUnits protoKey = 95 :: codeUnits protoKey.tail := codeUnits_of_lt (by decide) _
  rw [hdigits, hproto, codeUnits_of_lt (by omega), unitsLE, decide_eq_true_eq] at hle
  omega

theorem isInherited {items : List (Item β)} (h : Before protoKey k ∨ items = []) :
    IsInherited (platform.inherited (protoOf platform items) k) := by
  rw [Platform.inherited.eq_def]
  split
  · split
    · exact .inr ⟨_, rfl, rfl, fun _ h => by cases h⟩
    · exact .inl rfl
  · next items' hproto =>
    have hbefore : Before protoKey k := by
      refine h.resolve_right fun hnil => ?_
      subst hnil
      cases hproto
    have hlength : items'.length ≠ 0 := by
      intro hzero
      have hmem := protoOf_ne_nil hproto
      rw [List.length_eq_zero_iff.mp hzero] at hmem
      cases hmem
    rw [elementOf_eq_none (toDigits_ne_of_before hbefore)]
    dsimp only
    split_ifs
    · exact .inr ⟨_, rfl, by simpa [Val.isMissing] using hlength, fun _ h => by cases h⟩
    · split
      · exact .inr ⟨_, rfl, rfl, fun _ h => by cases h⟩
      · exact .inl rfl

omit [DecidableEq β] in
/-- No object inherits a key with a dot. -/
theorem inherited_dot (proto : Option (List (Item β))) (h : '.' ∈ k) : platform.inherited proto k = .undefined := by
  have hdigits : ∀ n, Nat.toDigits 10 n ≠ k := by
    rintro n rfl
    exact absurd (Nat.isDigit_of_mem_toDigits (by decide) (by decide) h) (by decide)
  have hlength : k ≠ "length".toList := by
    rintro rfl
    exact absurd h (by decide)
  rw [Platform.inherited.eq_def]
  cases proto with
  | none => simp only [platform.ofObject_dot k h]
  | some items => simp only [elementOf_eq_none hdigits, if_neg hlength, platform.ofArray_dot k h]

theorem inherited_collapse {v : Val β} (h : IsInherited v) : v = collapse v.items.eraseDups ∧ Present v.items := by
  obtain rfl | ⟨i, rfl, hi, -⟩ := h
  · exact ⟨rfl, fun i hi => absurd hi List.not_mem_nil⟩
  · refine ⟨rfl, fun j hj => ?_⟩
    obtain rfl := List.mem_singleton.mp hj
    exact hi

/-- Texts that are merged into what is inherited. -/
theorem foldl_inherited (hread : ∀ k text, IsScalar (read k text)) {v : Val β} (h : IsInherited v) (key : Str)
    (texts : List Str) : (texts.map (read key)).foldl mergeParam v =
      collapse (v.items ++ keptAt read key texts).eraseDups := by
  obtain ⟨heq, hpresent⟩ := inherited_collapse h
  have hscalar : ∀ w ∈ texts.map (read key), IsScalar w := by
    intro w hw
    obtain ⟨text, -, rfl⟩ := List.mem_map.mp hw
    exact hread key text
  have hfold := foldl_mergeParam hpresent hscalar
  rw [← heq, List.flatMap_map] at hfold
  exact hfold

end Forail.QueryStrings
