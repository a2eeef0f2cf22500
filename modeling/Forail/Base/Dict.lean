import Mathlib.Data.List.Basic

/-! Insertion-ordered dictionaries. A dictionary is a list of entries with
pairwise distinct keys; storing under a present key keeps its place, storing
under a new key appends. Iteration is the list order. -/

namespace Forail

instance lawfulBEq_chars : LawfulBEq (List Char) := inferInstance

instance lawfulBEq_option_string : LawfulBEq (Option String) := inferInstance

/-- A finite map that remembers the order in which its keys were first stored. -/
structure Dict (κ ν : Type*) where
  entries : List (κ × ν)
  nodup : (entries.map Prod.fst).Nodup

namespace Dict

variable {κ ν ν' : Type*}

def empty : Dict κ ν := ⟨[], List.nodup_nil⟩

def keys (d : Dict κ ν) : List κ := d.entries.map Prod.fst

variable [DecidableEq κ]

def get? (d : Dict κ ν) (k : κ) : Option ν := d.entries.lookup k

def getD (d : Dict κ ν) (k : κ) (v : ν) : ν := (d.get? k).getD v

def setEntries (k : κ) (v : ν) : List (κ × ν) → List (κ × ν)
  | [] => [(k, v)]
  | e :: es => if e.1 = k then (k, v) :: es else e :: setEntries k v es

theorem keys_setEntries (k : κ) (v : ν) (es : List (κ × ν)) :
    (setEntries k v es).map Prod.fst =
      if k ∈ es.map Prod.fst then es.map Prod.fst else es.map Prod.fst ++ [k] := by
  induction es with
  | nil => simp [setEntries]
  | cons e es ih =>
    by_cases he : e.1 = k
    · simp [setEntries, he]
    · simp only [setEntries, if_neg he, List.map_cons, ih, List.mem_cons]
      have he' : k ≠ e.1 := fun h => he h.symm
      by_cases hk : k ∈ es.map Prod.fst <;> simp [hk, he']

/-- Store a value: in place for a present key, at the end for a new one. -/
def set (d : Dict κ ν) (k : κ) (v : ν) : Dict κ ν where
  entries := setEntries k v d.entries
  nodup := by
    rw [keys_setEntries]
    split_ifs with hk
    · exact d.nodup
    · exact List.nodup_append.mpr ⟨d.nodup, by simp, by
        intro a ha b hb hab
        rw [List.mem_singleton] at hb
        exact hk (hb ▸ hab ▸ ha)⟩

@[simp] theorem get?_empty (k : κ) : (empty : Dict κ ν).get? k = none := rfl

theorem lookup_cons_ite (k : κ) (e : κ × ν) (es : List (κ × ν)) :
    (e :: es).lookup k = if k = e.1 then some e.2 else es.lookup k := by
  rw [List.lookup_cons]
  by_cases hk : k = e.1
  · rw [beq_iff_eq.mpr hk, if_pos hk]
  · rw [beq_eq_false_iff_ne.mpr hk, if_neg hk]

theorem lookup_setEntries (k k' : κ) (v : ν) (es : List (κ × ν)) :
    (setEntries k v es).lookup k' = if k' = k then some v else es.lookup k' := by
  induction es with
  | nil => rw [setEntries, lookup_cons_ite, List.lookup_nil]
  | cons e es ih =>
    by_cases he : e.1 = k
    · rw [setEntries, if_pos he, lookup_cons_ite, lookup_cons_ite, he]
      split_ifs <;> rfl
    · rw [setEntries, if_neg he, lookup_cons_ite, lookup_cons_ite, ih]
      by_cases hk : k' = e.1
      · rw [if_pos hk, if_pos hk, if_neg (fun h => he (hk ▸ h))]
      · rw [if_neg hk, if_neg hk]

theorem get?_set (d : Dict κ ν) (k k' : κ) (v : ν) :
    (d.set k v).get? k' = if k' = k then some v else d.get? k' :=
  lookup_setEntries k k' v d.entries

/-- A value after one is stored is this one or was there. -/
theorem of_get?_set {d : Dict κ ν} {k k' : κ} {v w : ν} (h : (d.set k v).get? k' = some w) :
    k' = k ∧ w = v ∨ k' ≠ k ∧ d.get? k' = some w := by
  rw [get?_set] at h
  split_ifs at h with hk
  · exact .inl ⟨hk, (Option.some.inj h).symm⟩
  · exact .inr ⟨hk, h⟩

/-- What holds of all values holds after a value with it is stored. -/
theorem forall_get?_set {d : Dict κ ν} {P : ν → Prop} {k : κ} {v : ν}
    (h : ∀ k v, d.get? k = some v → P v) (hv : P v) :
    ∀ k' v', (d.set k v).get? k' = some v' → P v' := by
  intro k' v' h'
  rcases of_get?_set h' with ⟨-, rfl⟩ | ⟨-, h'⟩
  · exact hv
  · exact h k' v' h'

theorem mem_entries_of_get? {d : Dict κ ν} {k : κ} {v : ν} (h : d.get? k = some v) :
    (k, v) ∈ d.entries := by
  obtain ⟨l₁, l₂, he, -⟩ := List.lookup_eq_some_iff.mp h
  rw [he]
  exact List.mem_append_right l₁ List.mem_cons_self

theorem getD_set (d : Dict κ ν) (k k' : κ) (v w : ν) :
    (d.set k v).getD k' w = if k' = k then v else d.getD k' w := by
  simp only [getD, get?_set]
  split_ifs <;> rfl

@[simp] theorem getD_empty (k : κ) (v : ν) : (empty : Dict κ ν).getD k v = v := rfl

theorem keys_set (d : Dict κ ν) (k : κ) (v : ν) :
    (d.set k v).keys = if k ∈ d.keys then d.keys else d.keys ++ [k] :=
  keys_setEntries k v d.entries

theorem lookup_eq_none_of_not_mem {k : κ} (es : List (κ × ν)) (hk : k ∉ es.map Prod.fst) :
    es.lookup k = none := by
  induction es with
  | nil => rfl
  | cons e es ih =>
    simp only [List.map_cons, List.mem_cons, not_or] at hk
    rw [lookup_cons_ite, if_neg hk.1, ih hk.2]

/-- A key outside `keys` has no value. -/
theorem get?_eq_none_of_not_mem (d : Dict κ ν) {k : κ} (hk : k ∉ d.keys) : d.get? k = none :=
  lookup_eq_none_of_not_mem d.entries hk

/-- Change the value of a present key. -/
def modify (d : Dict κ ν) (k : κ) (f : ν → ν) : Dict κ ν :=
  match d.get? k with
  | some v => d.set k (f v)
  | none => d

theorem get?_modify (d : Dict κ ν) (k k' : κ) (f : ν → ν) :
    (d.modify k f).get? k' = if k' = k then (d.get? k').map f else d.get? k' := by
  unfold modify
  by_cases hk : k' = k
  · subst hk
    cases hv : d.get? k' with
    | none => rw [if_pos rfl, hv, Option.map_none]
    | some v => rw [if_pos rfl, get?_set, if_pos rfl, Option.map_some]
  · cases hv : d.get? k with
    | none => rw [if_neg hk]
    | some v => rw [if_neg hk, get?_set, if_neg hk]

/-- Delete a key and its value. -/
def erase (d : Dict κ ν) (k : κ) : Dict κ ν where
  entries := d.entries.filter fun e => e.1 ≠ k
  nodup := d.nodup.sublist (List.filter_sublist.map Prod.fst)

theorem keys_erase (d : Dict κ ν) (k : κ) : (d.erase k).keys = d.keys.filter fun k' => k' ≠ k := by
  rw [keys, keys, List.filter_map]
  rfl

theorem mem_erase {d : Dict κ ν} {k : κ} {e : κ × ν} (h : e ∈ (d.erase k).entries) :
    e ∈ d.entries :=
  (List.mem_filter.mp h).1

theorem mem_setEntries {k : κ} {v : ν} {es : List (κ × ν)} {e : κ × ν}
    (h : e ∈ setEntries k v es) : e = (k, v) ∨ e ∈ es := by
  induction es with
  | nil => exact .inl (List.mem_singleton.mp h)
  | cons e' es ih =>
    rw [setEntries] at h
    split_ifs at h with he
    · exact (List.mem_cons.mp h).imp_right (List.mem_cons_of_mem _)
    · rcases List.mem_cons.mp h with rfl | h
      · exact .inr List.mem_cons_self
      · exact (ih h).imp_right (List.mem_cons_of_mem _)

/-- The entries whose keys pass a test. -/
def filter (d : Dict κ ν) (p : κ → Bool) : Dict κ ν where
  entries := d.entries.filter fun e => p e.1
  nodup := d.nodup.sublist (List.filter_sublist.map Prod.fst)

theorem lookup_filter (es : List (κ × ν)) (p : κ → Bool) (k : κ) :
    (es.filter fun e => p e.1).lookup k = if p k then es.lookup k else none := by
  induction es with
  | nil => split_ifs <;> rfl
  | cons e es ih =>
    rw [List.filter_cons]
    by_cases hp : p e.1 = true
    · rw [if_pos hp, lookup_cons_ite, lookup_cons_ite, ih]
      by_cases hk : k = e.1
      · rw [if_pos hk, if_pos hk, hk, if_pos hp]
      · rw [if_neg hk, if_neg hk]
    · rw [if_neg hp, lookup_cons_ite, ih]
      by_cases hk : k = e.1
      · rw [hk, if_neg hp, if_neg hp]
      · rw [if_neg hk]

theorem get?_filter (d : Dict κ ν) (p : κ → Bool) (k : κ) :
    (d.filter p).get? k = if p k then d.get? k else none :=
  lookup_filter d.entries p k

omit [DecidableEq κ] in
theorem filter_of_forall {d : Dict κ ν} {p : κ → Bool} (h : ∀ k ∈ d.keys, p k = true) :
    d.filter p = d := by
  obtain ⟨es, hes⟩ := d
  have hfilter : es.filter (fun e => p e.1) = es :=
    List.filter_eq_self.mpr fun e he => h e.1 (List.mem_map_of_mem he)
  simp only [filter, hfilter]

theorem get?_erase (d : Dict κ ν) (k k' : κ) :
    (d.erase k).get? k' = if k' = k then none else d.get? k' := by
  have hfilter : (d.erase k).get? k' = (d.filter fun x => x ≠ k).get? k' := rfl
  rw [hfilter, get?_filter]
  by_cases hk : k' = k <;> simp [hk]

theorem get?_of_mem_entries {d : Dict κ ν} {k : κ} {v : ν} (h : (k, v) ∈ d.entries) :
    d.get? k = some v := by
  obtain ⟨es, hes⟩ := d
  rw [get?]
  induction es with
  | nil => cases h
  | cons e es ih =>
    rw [List.map_cons, List.nodup_cons] at hes
    rw [lookup_cons_ite]
    rcases List.mem_cons.mp h with rfl | h
    · rw [if_pos rfl]
    · rw [if_neg fun hk : k = e.1 => hes.1 (hk ▸ List.mem_map_of_mem h)]
      exact ih hes.2 h

theorem mem_keys_of_get? {d : Dict κ ν} {k : κ} {v : ν} (h : d.get? k = some v) : k ∈ d.keys :=
  List.mem_map_of_mem (mem_entries_of_get? h)

theorem get?_of_mem_keys {d : Dict κ ν} {k : κ} (h : k ∈ d.keys) : ∃ v, d.get? k = some v := by
  obtain ⟨e, he, rfl⟩ := List.mem_map.mp h
  exact ⟨e.2, get?_of_mem_entries he⟩

theorem erase_of_get?_none {d : Dict κ ν} {k : κ} (h : d.get? k = none) : d.erase k = d := by
  have hfilter : d.erase k = d.filter fun x => x ≠ k := rfl
  rw [hfilter]
  apply filter_of_forall
  intro k' hk'
  obtain ⟨v, hv⟩ := get?_of_mem_keys hk'
  rw [decide_eq_true_iff]
  rintro rfl
  simp [h] at hv

/-- The dictionary of a list of pairs, as a comprehension builds it. -/
def ofList (l : List (κ × ν)) : Dict κ ν := l.foldl (fun d e => d.set e.1 e.2) empty

theorem get?_foldl_set_of_not_mem {l : List (κ × ν)} {k : κ} (hk : k ∉ l.map Prod.fst)
    (d : Dict κ ν) : (l.foldl (fun d e => d.set e.1 e.2) d).get? k = d.get? k := by
  induction l generalizing d with
  | nil => rfl
  | cons e l ih =>
    rw [List.map_cons, List.mem_cons, not_or] at hk
    rw [List.foldl_cons, ih hk.2, get?_set, if_neg hk.1]

theorem get?_foldl_set_of_mem {l : List (κ × ν)} (hl : (l.map Prod.fst).Nodup) {k : κ} {v : ν}
    (he : (k, v) ∈ l) (d : Dict κ ν) :
    (l.foldl (fun d e => d.set e.1 e.2) d).get? k = some v := by
  induction l generalizing d with
  | nil => cases he
  | cons e l ih =>
    rw [List.map_cons, List.nodup_cons] at hl
    rw [List.foldl_cons]
    rcases List.mem_cons.mp he with rfl | he
    · rw [get?_foldl_set_of_not_mem hl.1, get?_set, if_pos rfl]
    · exact ih hl.2 he _

/-- Store the values of a list of pairs, one after the other. -/
def update (d : Dict κ ν) (l : List (κ × ν)) : Dict κ ν := l.foldl (fun d e => d.set e.1 e.2) d

theorem get?_update (d e : Dict κ ν) (k : κ) :
    (d.update e.entries).get? k = (e.get? k).or (d.get? k) := by
  by_cases hk : k ∈ e.keys
  · obtain ⟨v, hv⟩ := get?_of_mem_keys hk
    rw [hv, Option.some_or]
    exact get?_foldl_set_of_mem e.nodup (mem_entries_of_get? hv) d
  · rw [get?_eq_none_of_not_mem e hk, Option.none_or]
    exact get?_foldl_set_of_not_mem hk d

omit [DecidableEq κ] in
theorem eq_empty {d : Dict κ ν} (h : d.entries = []) : d = empty := by
  obtain ⟨es, hes⟩ := d
  cases h
  rfl

theorem eq_empty_of_get? {d : Dict κ ν} (h : ∀ k, d.get? k = none) : d = empty := by
  apply eq_empty
  apply List.eq_nil_iff_forall_not_mem.mpr
  intro e he
  have hget := get?_of_mem_entries he
  rw [h] at hget
  cases hget

theorem setEntries_of_not_mem {k : κ} {v : ν} {es : List (κ × ν)} (hk : k ∉ es.map Prod.fst) :
    setEntries k v es = es ++ [(k, v)] := by
  induction es with
  | nil => rfl
  | cons e es ih =>
    rw [List.map_cons, List.mem_cons, not_or] at hk
    rw [setEntries, if_neg fun he => hk.1 he.symm, ih hk.2, List.cons_append]

/-- A dictionary is what its values make of an empty one. -/
theorem update_empty (d : Dict κ ν) : empty.update d.entries = d := by
  have hentries : ∀ (l : List (κ × ν)) (d : Dict κ ν), ((d.entries ++ l).map Prod.fst).Nodup →
      (d.update l).entries = d.entries ++ l := by
    intro l
    induction l with
    | nil => exact fun d _ => (List.append_nil d.entries).symm
    | cons e l ih =>
      intro d hnodup
      have hk : e.1 ∉ d.entries.map Prod.fst := by
        rw [List.map_append, List.map_cons] at hnodup
        exact fun hmem => (List.nodup_append.mp hnodup).2.2 e.1 hmem e.1 List.mem_cons_self rfl
      have hset : (d.set e.1 e.2).entries = d.entries ++ [e] := setEntries_of_not_mem hk
      refine (ih (d.set e.1 e.2) ?_).trans ?_
      · rw [hset, List.append_assoc]
        exact hnodup
      · rw [hset, List.append_assoc]
        rfl
  obtain ⟨es, hes⟩ := d
  have hupdate := hentries es empty hes
  unfold update at hupdate ⊢
  revert hupdate
  generalize es.foldl (fun d e => d.set e.1 e.2) empty = d'
  obtain ⟨es', hes'⟩ := d'
  intro hupdate
  simp only [empty, List.nil_append] at hupdate
  simp only [hupdate]

/-- A loop over a dictionary, seen from what the entry of one key changes. -/
theorem foldl_entry {σ ρ : Type*} {f : σ → κ × ν → σ} {π : σ → ρ} {F : ρ → ν → ρ} {k : κ}
    {d : Dict κ ν} (hself : ∀ s v, d.get? k = some v → π (f s (k, v)) = F (π s) v)
    (hother : ∀ s, ∀ e ∈ d.entries, e.1 ≠ k → π (f s e) = π s) (s : σ) :
    π (d.entries.foldl f s) = (d.get? k).elim (π s) (F (π s)) := by
  have hrest : ∀ (l : List (κ × ν)) (s : σ), (∀ e ∈ l, e ∈ d.entries) → k ∉ l.map Prod.fst →
      π (l.foldl f s) = π s := by
    intro l
    induction l with
    | nil => exact fun s _ _ => rfl
    | cons e l ih =>
      intro s hl hk
      rw [List.map_cons, List.mem_cons, not_or] at hk
      rw [List.foldl_cons, ih _ (fun e he => hl e (List.mem_cons_of_mem _ he)) hk.2]
      exact hother s e (hl e List.mem_cons_self) fun heq => hk.1 heq.symm
  by_cases hk : k ∈ d.keys
  · obtain ⟨v, hv⟩ := get?_of_mem_keys hk
    obtain ⟨l₁, l₂, hsplit⟩ := List.append_of_mem (mem_entries_of_get? hv)
    have hnodup := d.nodup
    rw [hsplit, List.map_append, List.map_cons] at hnodup
    obtain ⟨-, hlast, hfirst⟩ := List.nodup_append.mp hnodup
    have hmem : ∀ e, e ∈ l₁ ∨ e ∈ l₂ → e ∈ d.entries := by
      intro e he
      rw [hsplit]
      exact List.mem_append.mpr (he.imp_right (List.mem_cons_of_mem _))
    rw [hsplit, List.foldl_append, List.foldl_cons,
      hrest l₂ _ (fun e he => hmem e (.inr he)) (List.nodup_cons.mp hlast).1, hself _ v hv,
      hrest l₁ s (fun e he => hmem e (.inl he))
        fun hk => hfirst k hk k List.mem_cons_self rfl, hv]
    rfl
  · rw [get?_eq_none_of_not_mem d hk, hrest d.entries s (fun e he => he) hk]
    rfl

/-- Change all values. -/
def mapValues (d : Dict κ ν) (f : κ → ν → ν') : Dict κ ν' where
  entries := d.entries.map fun e => (e.1, f e.1 e.2)
  nodup := by
    rw [List.map_map]
    exact d.nodup

omit [DecidableEq κ] in
theorem keys_mapValues (d : Dict κ ν) (f : κ → ν → ν') : (d.mapValues f).keys = d.keys := by
  rw [keys, mapValues, List.map_map]
  rfl

theorem get?_mapValues (d : Dict κ ν) (f : κ → ν → ν') (k : κ) :
    (d.mapValues f).get? k = (d.get? k).map (f k) := by
  obtain ⟨es, hes⟩ := d
  change (es.map fun e => (e.1, f e.1 e.2)).lookup k = (es.lookup k).map (f k)
  induction es with
  | nil => rfl
  | cons e es ih =>
    rw [List.map_cons, lookup_cons_ite, lookup_cons_ite, ih (List.nodup_cons.mp hes).2]
    split_ifs with hk
    · rw [hk, Option.map_some]
    · rfl

/-- The entries whose values pass a test. -/
def filterValues (d : Dict κ ν) (p : ν → Bool) : Dict κ ν where
  entries := d.entries.filter fun e => p e.2
  nodup := d.nodup.sublist (List.filter_sublist.map Prod.fst)

theorem get?_filterValues (d : Dict κ ν) (p : ν → Bool) (k : κ) :
    (d.filterValues p).get? k = (d.get? k).filter p := by
  obtain ⟨es, hes⟩ := d
  change (es.filter fun e => p e.2).lookup k = (es.lookup k).filter p
  induction es with
  | nil => rfl
  | cons e es ih =>
    rw [List.map_cons, List.nodup_cons] at hes
    rw [List.filter_cons, lookup_cons_ite k e es]
    by_cases hk : k = e.1
    · have hnone : es.lookup k = none := lookup_eq_none_of_not_mem es (hk ▸ hes.1)
      by_cases hp : p e.2 = true
      · rw [if_pos hp, lookup_cons_ite, if_pos hk, if_pos hk, Option.filter_some_pos hp]
      · rw [if_neg hp, if_pos hk, ih hes.2, hnone, Option.filter_none, Option.filter_some_neg (Bool.eq_false_iff.mpr hp)]
    · by_cases hp : p e.2 = true
      · rw [if_pos hp, lookup_cons_ite, if_neg hk, if_neg hk, ih hes.2]
      · rw [if_neg hp, if_neg hk, ih hes.2]

/-- Storing a value that is there changes nothing. -/
theorem set_self {d : Dict κ ν} {k : κ} {v : ν} (h : d.get? k = some v) : d.set k v = d := by
  obtain ⟨es, hes⟩ := d
  have hset : ∀ es : List (κ × ν), es.lookup k = some v → setEntries k v es = es := by
    intro es
    induction es with
    | nil => nofun
    | cons e es ih =>
      intro hv
      rw [lookup_cons_ite] at hv
      rw [setEntries]
      by_cases hk : k = e.1
      · rw [if_pos hk] at hv
        rw [if_pos hk.symm, hk, ← Option.some.inj hv]
      · rw [if_neg hk] at hv
        rw [if_neg fun he => hk he.symm, ih hv]
  simp only [set, hset es h]

/-- An update changes nothing exactly when all its entries are there. -/
theorem update_eq_self_iff {d e : Dict κ ν} :
    d.update e.entries = d ↔ ∀ k v, e.get? k = some v → d.get? k = some v := by
  constructor
  · intro h k v hv
    rw [← h, get?_update, hv, Option.some_or]
  · intro h
    have hstore : ∀ l : List (κ × ν), (∀ p ∈ l, d.get? p.1 = some p.2) → d.update l = d := by
      intro l
      induction l with
      | nil => exact fun _ => rfl
      | cons p l ih =>
        intro hl
        rw [update, List.foldl_cons, set_self (hl p List.mem_cons_self)]
        exact ih fun q hq => hl q (List.mem_cons_of_mem p hq)
    exact hstore e.entries fun p hp => h p.1 p.2 (get?_of_mem_entries hp)

theorem mem_keys_iff {d : Dict κ ν} {k : κ} : k ∈ d.keys ↔ (d.get? k).isSome = true := by
  constructor
  · intro h
    obtain ⟨v, hv⟩ := get?_of_mem_keys h
    rw [hv]
    rfl
  · intro h
    obtain ⟨v, hv⟩ := Option.isSome_iff_exists.mp h
    exact mem_keys_of_get? hv

theorem mem_keys_update {d : Dict κ ν} {l : List (κ × ν)} {k : κ} :
    k ∈ (d.update l).keys ↔ k ∈ d.keys ∨ k ∈ l.map Prod.fst := by
  induction l generalizing d with
  | nil => simp [update]
  | cons e l ih =>
    have hset : k ∈ (d.set e.1 e.2).keys ↔ k ∈ d.keys ∨ k = e.1 := by
      rw [mem_keys_iff, mem_keys_iff, get?_set]
      split_ifs with hk <;> simp [hk]
    rw [update, List.foldl_cons, List.map_cons, List.mem_cons, ← or_assoc, ← hset]
    exact ih

end Dict

end Forail

/-! Loops over keys that change the value of one key after another. With distinct keys the changes do
not meet, and each key has in the end what its own step makes of its first value. -/

namespace Forail.Dict

variable {κ ν : Type} [DecidableEq κ]

/-- Change the value of a key that must be there. -/
def modifyM (d : Dict κ ν) (k : κ) (f : ν → Option ν) : Option (Dict κ ν) :=
  (d.get? k).bind fun v => (f v).map (d.set k)

theorem modifyM_eq_some {d d' : Dict κ ν} {k : κ} {f : ν → Option ν} :
    d.modifyM k f = some d' ↔ ∃ v', (d.get? k).bind f = some v' ∧ d.set k v' = d' := by
  unfold modifyM
  cases hv : d.get? k with
  | none => simp
  | some v => exact Option.map_eq_some_iff

variable {f : κ → ν → Option ν} {ks : List κ}

/-- A loop of changes that can fail. -/
theorem foldlM_modifyM_eq_some (hks : ks.Nodup) {d d' : Dict κ ν}
    (h : ks.foldlM (fun d k => d.modifyM k (f k)) d = some d') :
    (∀ k ∈ ks, ∃ v, (d.get? k).bind (f k) = some v ∧ d'.get? k = some v) ∧
      ∀ k ∉ ks, d'.get? k = d.get? k := by
  induction ks generalizing d with
  | nil =>
    cases h
    exact ⟨nofun, fun _ _ => rfl⟩
  | cons k ks ih =>
    rw [List.foldlM_cons] at h
    obtain ⟨d₁, h₁, h⟩ := Option.bind_eq_some_iff.mp h
    obtain ⟨v, hv, rfl⟩ := modifyM_eq_some.mp h₁
    obtain ⟨hk, hnodup⟩ := List.nodup_cons.mp hks
    obtain ⟨hin, hout⟩ := ih hnodup h
    refine ⟨fun k' hk' => ?_, fun k' hk' => ?_⟩
    · rcases List.mem_cons.mp hk' with rfl | hk'
      · refine ⟨v, hv, ?_⟩
        rw [hout k' hk, get?_set, if_pos rfl]
      · have hne : k' ≠ k := fun heq => hk (heq ▸ hk')
        obtain ⟨w, hw, hd'⟩ := hin k' hk'
        rw [get?_set, if_neg hne] at hw
        exact ⟨w, hw, hd'⟩
    · rw [List.mem_cons, not_or] at hk'
      rw [hout k' hk'.2, get?_set, if_neg hk'.1]

/-- The loop succeeds where each key has a value that its step can change. -/
theorem exists_foldlM_modifyM (hks : ks.Nodup) {d : Dict κ ν}
    (h : ∀ k ∈ ks, ∃ v, (d.get? k).bind (f k) = some v) :
    ∃ d', ks.foldlM (fun d k => d.modifyM k (f k)) d = some d' := by
  induction ks generalizing d with
  | nil => exact ⟨d, rfl⟩
  | cons k ks ih =>
    obtain ⟨hk, hnodup⟩ := List.nodup_cons.mp hks
    obtain ⟨v, hv⟩ := h k List.mem_cons_self
    rw [List.foldlM_cons, modifyM_eq_some.mpr ⟨v, hv, rfl⟩]
    refine ih hnodup fun k' hk' => ?_
    have hne : k' ≠ k := fun heq => hk (heq ▸ hk')
    rw [get?_set, if_neg hne]
    exact h k' (List.mem_cons_of_mem _ hk')

/-- A loop whose steps change their own keys only. -/
theorem get?_foldl_own {step : Dict κ ν → κ → Dict κ ν} (own : κ → Option ν → Option ν)
    (hstep : ∀ d k k', (step d k).get? k' = if k' = k then own k (d.get? k) else d.get? k')
    (hks : ks.Nodup) (d : Dict κ ν) (k' : κ) :
    (ks.foldl step d).get? k' = if k' ∈ ks then own k' (d.get? k') else d.get? k' := by
  induction ks generalizing d with
  | nil => rfl
  | cons k ks ih =>
    obtain ⟨hk, hnodup⟩ := List.nodup_cons.mp hks
    rw [List.foldl_cons, ih hnodup, hstep]
    by_cases hk' : k' = k
    · subst hk'
      rw [if_neg hk, if_pos rfl, if_pos List.mem_cons_self]
    · rw [if_neg hk']
      by_cases hmem : k' ∈ ks
      · rw [if_pos hmem, if_pos (List.mem_cons_of_mem _ hmem)]
      · rw [if_neg hmem, if_neg (by rw [List.mem_cons, not_or]; exact ⟨hk', hmem⟩)]

/-- The keys that are new are added in their order. -/
theorem keys_foldl_own {step : Dict κ ν → κ → Dict κ ν}
    (hstep : ∀ d k, (step d k).keys = if k ∈ d.keys then d.keys else d.keys ++ [k])
    (hks : ks.Nodup) (d : Dict κ ν) :
    (ks.foldl step d).keys = d.keys ++ ks.filter fun k => k ∉ d.keys := by
  induction ks generalizing d with
  | nil => simp
  | cons k ks ih =>
    obtain ⟨hk, hnodup⟩ := List.nodup_cons.mp hks
    rw [List.foldl_cons, ih hnodup, hstep]
    by_cases hmem : k ∈ d.keys
    · rw [if_pos hmem, List.filter_cons_of_neg (by simpa using hmem)]
    · have hrest : (ks.filter fun k' => k' ∉ d.keys ++ [k]) = ks.filter fun k' => k' ∉ d.keys := by
        refine List.filter_congr fun k' hk' => ?_
        have hne : k' ≠ k := fun heq => hk (heq ▸ hk')
        simp [hne]
      rw [if_neg hmem, hrest, List.filter_cons_of_pos (by simpa using hmem), List.append_assoc,
        List.singleton_append]

end Forail.Dict
