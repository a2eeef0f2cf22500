import Forail.Base.Keyed

/-! Tables of records with a number of their own, given in turn, and a unique name. -/

namespace Forail

/-- The rows of a table; `next` is the number of the next new row. -/
structure Table {α ν : Type*} (pk : α → ℕ) (name : α → ν) where
  rows : List α
  next : ℕ
  nodup : (rows.map pk).Nodup
  unique : (rows.map name).Nodup
  fresh : ∀ x ∈ rows, pk x < next

namespace Table

variable {α ν : Type*} {pk : α → ℕ} {name : α → ν}

theorem eq_of_pk (t : Table pk name) {x y : α} (hx : x ∈ t.rows) (hy : y ∈ t.rows)
    (h : pk x = pk y) : x = y :=
  Keyed.eq_of_key t.nodup hx hy h

theorem eq_of_name (t : Table pk name) {x y : α} (hx : x ∈ t.rows) (hy : y ∈ t.rows)
    (h : name x = name y) : x = y :=
  Keyed.eq_of_key t.unique hx hy h

def ofPk (t : Table pk name) (n : ℕ) : Option α := Keyed.find pk t.rows n

theorem ofPk_of_mem {t : Table pk name} {x : α} (hx : x ∈ t.rows) : t.ofPk (pk x) = some x :=
  Keyed.find_of_mem t.nodup hx

theorem ofPk_next {t : Table pk name} {n : ℕ} (h : t.next ≤ n) : t.ofPk n = none := by
  cases hx : t.ofPk n with
  | none => rfl
  | some x =>
    have hfind := Keyed.find_some hx
    have hlt := t.fresh x hfind.1
    omega

/-- Delete the rows that fail a test. -/
def keep (t : Table pk name) (p : α → Bool) : Table pk name where
  rows := t.rows.filter p
  next := t.next
  nodup := t.nodup.sublist (List.filter_sublist.map pk)
  unique := t.unique.sublist (List.filter_sublist.map name)
  fresh x hx := t.fresh x (List.mem_filter.mp hx).1

theorem keep_of_forall {t : Table pk name} {p : α → Bool} (h : ∀ x ∈ t.rows, p x = true) :
    t.keep p = t := by
  obtain ⟨rows, next, _, _, _⟩ := t
  have hrows : rows.filter p = rows := List.filter_eq_self.mpr h
  simp only [keep, hrows]

theorem nodup_modify (t : Table pk name) (x : α) :
    ((Keyed.modify pk t.rows (pk x) fun _ => x).map pk).Nodup := by
  have hkeys : (Keyed.modify pk t.rows (pk x) fun _ => x).map pk = t.rows.map pk := by
    rw [Keyed.modify, List.map_map]
    refine List.map_congr_left fun y _ => ?_
    rw [Function.comp_apply]
    split_ifs with hy
    · exact hy.symm
    · rfl
  rw [hkeys]
  exact t.nodup

theorem unique_modify (t : Table pk name) {x : α}
    (h : ∀ y ∈ t.rows, name y = name x → pk y = pk x) :
    ((Keyed.modify pk t.rows (pk x) fun _ => x).map name).Nodup := by
  rw [Keyed.modify, List.map_map]
  refine (List.nodup_map_iff_inj_on (List.Nodup.of_map _ t.nodup)).mpr fun y hy z hz heq => ?_
  rw [Function.comp_apply, Function.comp_apply] at heq
  split_ifs at heq with h₁ h₂ h₂
  · exact t.eq_of_pk hy hz (h₁.trans h₂.symm)
  · exact absurd (h z hz heq.symm) h₂
  · exact absurd (h y hy heq) h₁
  · exact t.eq_of_name hy hz heq

section Save
variable [DecidableEq ν]

def ofName (t : Table pk name) (n : ν) : Option α := Keyed.find name t.rows n

theorem ofName_some {t : Table pk name} {n : ν} {x : α} (h : t.ofName n = some x) :
    x ∈ t.rows ∧ name x = n :=
  Keyed.find_some h

theorem ofName_none {t : Table pk name} {n : ν} (h : t.ofName n = none) : ∀ x ∈ t.rows, name x ≠ n := by
  intro x hx
  simpa using List.find?_eq_none.mp h x hx

theorem ofName_of_mem {t : Table pk name} {x : α} (hx : x ∈ t.rows) : t.ofName (name x) = some x :=
  Keyed.find_of_mem t.unique hx

/-- The row of a name is the same in tables that agree on the rows with it. -/
theorem ofName_congr {t t' : Table pk name} {n : ν}
    (h : ∀ x, name x = n → (x ∈ t.rows ↔ x ∈ t'.rows)) : t.ofName n = t'.ofName n := by
  cases hx : t.ofName n with
  | some x =>
    obtain ⟨hmem, rfl⟩ := ofName_some hx
    exact (ofName_of_mem ((h x rfl).mp hmem)).symm
  | none =>
    cases hx' : t'.ofName n with
    | none => rfl
    | some x =>
      obtain ⟨hmem, hname⟩ := ofName_some hx'
      exact absurd hname (ofName_none hx x ((h x hname).mpr hmem))

/-- Store a row under its number; another row with its name forbids it. -/
def save (t : Table pk name) (x : α) : Option (Table pk name) :=
  if h : ∀ y ∈ t.rows, name y = name x → pk y = pk x then
    some {
      rows := Keyed.modify pk t.rows (pk x) fun _ => x
      next := t.next
      nodup := t.nodup_modify x
      unique := t.unique_modify h
      fresh := fun y hy => by
        obtain ⟨z, hz, rfl⟩ := Keyed.mem_modify.mp hy
        split_ifs with hk
        · exact hk ▸ t.fresh z hz
        · exact t.fresh z hz }
  else none

/-- Store a new row under the next number; a row with its name forbids it. -/
def insert (t : Table pk name) (x : α) (hx : pk x = t.next) : Option (Table pk name) :=
  if h : ∀ y ∈ t.rows, name y ≠ name x then
    some {
      rows := t.rows ++ [x]
      next := t.next + 1
      nodup := by
        rw [List.map_append, List.nodup_append]
        refine ⟨t.nodup, List.nodup_singleton _, fun a ha b hb hab => ?_⟩
        obtain ⟨y, hy, rfl⟩ := List.mem_map.mp ha
        rw [List.map_singleton, List.mem_singleton] at hb
        have hlt := t.fresh y hy
        omega
      unique := by
        rw [List.map_append, List.nodup_append]
        refine ⟨t.unique, List.nodup_singleton _, fun a ha b hb hab => ?_⟩
        obtain ⟨y, hy, rfl⟩ := List.mem_map.mp ha
        rw [List.map_singleton, List.mem_singleton] at hb
        exact h y hy (hab.trans hb)
      fresh := fun y hy => by
        rcases List.mem_append.mp hy with hy | hy
        · exact Nat.lt_succ_of_lt (t.fresh y hy)
        · rw [List.mem_singleton.mp hy, hx]
          exact Nat.lt_succ_self _ }
  else none

theorem save_some {t t' : Table pk name} {x : α} (h : t.save x = some t') :
    t'.rows = Keyed.modify pk t.rows (pk x) (fun _ => x) ∧ t'.next = t.next := by
  unfold save at h
  split_ifs at h
  cases h
  exact ⟨rfl, rfl⟩

theorem insert_some {t t' : Table pk name} {x : α} {hx : pk x = t.next}
    (h : t.insert x hx = some t') : t'.rows = t.rows ++ [x] ∧ t'.next = t.next + 1 := by
  unfold insert at h
  split_ifs at h
  cases h
  exact ⟨rfl, rfl⟩

theorem mem_save {t t' : Table pk name} {x old : α} (h : t.save x = some t') (hold : old ∈ t.rows)
    (hpk : pk old = pk x) {y : α} : y ∈ t'.rows ↔ y = x ∨ y ∈ t.rows ∧ pk y ≠ pk x := by
  rw [(save_some h).1, Keyed.mem_modify]
  refine ⟨?_, ?_⟩
  · rintro ⟨z, hz, rfl⟩
    split_ifs with hk
    · exact .inl rfl
    · exact .inr ⟨hz, hk⟩
  · rintro (rfl | ⟨hy, hk⟩)
    · exact ⟨old, hold, (if_pos hpk).symm⟩
    · exact ⟨y, hy, (if_neg hk).symm⟩

/-- Storing a row as it is changes nothing. -/
theorem save_self {t : Table pk name} {x : α} (hx : x ∈ t.rows) : t.save x = some t := by
  have hname : ∀ y ∈ t.rows, name y = name x → pk y = pk x := fun y hy h => by
    rw [t.eq_of_name hy hx h]
  have hrows : Keyed.modify pk t.rows (pk x) (fun _ => x) = t.rows := by
    refine (List.map_congr_left fun y hy => ?_).trans (List.map_id _)
    split_ifs with hk
    · exact (t.eq_of_pk hy hx hk).symm
    · rfl
  rw [save, dif_pos hname]
  obtain ⟨rows, next, _, _, _⟩ := t
  simp only at hrows
  simp only [hrows]

/-- Some rows are stored one after another, each changed under its number: a row ends as
changed, or as it was. -/
theorem rows_foldlM_save {g : α → α} (hg : ∀ x, pk (g x) = pk x)
    {step : Table pk name → α → Option (Table pk name)}
    {xs : List α} (hstep : ∀ x ∈ xs, ∀ t t', step t x = some t' → t.save (g x) = some t')
    (hxs : (xs.map pk).Nodup) {t t' : Table pk name} (hmem : ∀ x ∈ xs, x ∈ t.rows)
    (h : xs.foldlM step t = some t') :
    t'.rows = t.rows.map (fun y => if pk y ∈ xs.map pk then g y else y) ∧ t'.next = t.next := by
  induction xs generalizing t with
  | nil =>
    cases h
    exact ⟨(List.map_id _).symm, rfl⟩
  | cons x xs ih =>
    obtain ⟨t₁, h₁, h₂⟩ := Option.bind_eq_some_iff.mp h
    obtain ⟨hrows, hnext⟩ := save_some (hstep x List.mem_cons_self t t₁ h₁)
    rw [List.map_cons, List.nodup_cons] at hxs
    have hmem₁ : ∀ y ∈ xs, y ∈ t₁.rows := by
      intro y hy
      rw [hrows, Keyed.mem_modify]
      refine ⟨y, hmem y (List.mem_cons_of_mem x hy), ?_⟩
      have hne : pk y ≠ pk (g x) := fun hk => hxs.1 (hg x ▸ hk ▸ List.mem_map_of_mem hy)
      rw [if_neg hne]
    obtain ⟨hrows', hnext'⟩ := ih (fun y hy => hstep y (List.mem_cons_of_mem x hy)) hxs.2 hmem₁ h₂
    refine ⟨?_, hnext'.trans hnext⟩
    rw [hrows', hrows, Keyed.modify, List.map_map, hg]
    refine List.map_congr_left fun y hy => ?_
    rw [Function.comp_apply, List.map_cons]
    by_cases hk : pk y = pk x
    · rw [t.eq_of_pk hy (hmem x List.mem_cons_self) hk, if_pos rfl, hg, if_neg hxs.1,
        if_pos List.mem_cons_self]
    · simp only [hk, if_false, List.mem_cons, false_or]

/-- Some rows can be stored one after another, each changed under its number, if and only if no row that
stays has a new name, and no row has the new name of one that is stored before it, nor shares it. -/
theorem exists_foldlM_save {g : α → α} (hg : ∀ x, pk (g x) = pk x) {xs : List α}
    (hxs : (xs.map pk).Nodup) {t : Table pk name} (hmem : ∀ x ∈ xs, x ∈ t.rows) :
    (∃ t', xs.foldlM (fun t x => t.save (g x)) t = some t') ↔
      (∀ x ∈ xs, ∀ y ∈ t.rows, pk y ∉ xs.map pk → name y ≠ name (g x)) ∧
        xs.Pairwise fun x x' => name x' ≠ name (g x) ∧ name (g x) ≠ name (g x') := by
  induction xs generalizing t with
  | nil => simp
  | cons x xs ih =>
    rw [List.map_cons, List.nodup_cons] at hxs
    have hx := hmem x List.mem_cons_self
    have hfirst : (∃ t₁, t.save (g x) = some t₁) ↔ ∀ y ∈ t.rows, pk y ≠ pk x → name y ≠ name (g x) := by
      have hsave : (∃ t₁, t.save (g x) = some t₁) ↔
          ∀ y ∈ t.rows, name y = name (g x) → pk y = pk (g x) := by
        unfold save
        split_ifs with h
        · exact iff_of_true ⟨_, rfl⟩ h
        · exact iff_of_false (by simp) h
      rw [hsave, hg]
      exact forall₂_congr fun y _ => not_imp_not.symm
    -- The rows after the first one is stored.
    have hstored : ∀ {t₁ : Table pk name}, t.save (g x) = some t₁ → ∀ y, y ∈ t₁.rows ↔
        y = g x ∨ y ∈ t.rows ∧ pk y ≠ pk x := by
      intro t₁ h y
      rw [mem_save h hx (hg x).symm, hg]
    have hpk : ∀ x' ∈ xs, pk x' ≠ pk x := fun x' hx' heq => hxs.1 (heq ▸ List.mem_map_of_mem hx')
    have hrest : ∀ {t₁ : Table pk name}, t.save (g x) = some t₁ →
        ((∃ t', xs.foldlM (fun t x => t.save (g x)) t₁ = some t') ↔
          (∀ x' ∈ xs, name (g x) ≠ name (g x') ∧
            ∀ y ∈ t.rows, pk y ∉ (x :: xs).map pk → name y ≠ name (g x')) ∧
          xs.Pairwise fun x x' => name x' ≠ name (g x) ∧ name (g x) ≠ name (g x')) := by
      intro t₁ h
      rw [ih hxs.2 fun x' hx' => (hstored h x').mpr (.inr ⟨hmem x' (List.mem_cons_of_mem x hx'), hpk x' hx'⟩)]
      refine and_congr_left' (forall₂_congr fun x' _ => ⟨fun hall => ⟨?_, fun y hy hne => ?_⟩, ?_⟩)
      · exact hall (g x) ((hstored h _).mpr (.inl rfl)) (by rw [hg]; exact hxs.1)
      · rw [List.map_cons, List.mem_cons, not_or] at hne
        exact hall y ((hstored h y).mpr (.inr ⟨hy, hne.1⟩)) hne.2
      · rintro ⟨hnew, hold⟩ y hy hne
        rcases (hstored h y).mp hy with rfl | ⟨hy, hyx⟩
        · exact hnew
        · refine hold y hy ?_
          rw [List.map_cons, List.mem_cons, not_or]
          exact ⟨hyx, hne⟩
    rw [List.foldlM_cons, List.pairwise_cons]
    constructor
    · rintro ⟨t', h⟩
      obtain ⟨t₁, h₁, h₂⟩ := Option.bind_eq_some_iff.mp h
      have hnew := hfirst.mp ⟨t₁, h₁⟩
      obtain ⟨hothers, hpairs⟩ := (hrest h₁).mp ⟨t', h₂⟩
      refine ⟨fun x' hx' y hy hne => ?_, fun x' hx' => ⟨?_, (hothers x' hx').1⟩, hpairs⟩
      · rcases List.mem_cons.mp hx' with rfl | hx'
        · exact hnew y hy fun heq => hne (heq ▸ List.mem_cons_self)
        · exact (hothers x' hx').2 y hy hne
      · exact hnew x' (hmem x' (List.mem_cons_of_mem x hx')) (hpk x' hx')
    · rintro ⟨hothers, hhead, hpairs⟩
      obtain ⟨t₁, h₁⟩ := hfirst.mpr fun y hy hyx => by
        by_cases hyxs : pk y ∈ xs.map pk
        · obtain ⟨x', hx', heq⟩ := List.mem_map.mp hyxs
          rw [← t.eq_of_pk (hmem x' (List.mem_cons_of_mem x hx')) hy heq]
          exact (hhead x' hx').1
        · refine hothers x List.mem_cons_self y hy ?_
          rw [List.map_cons, List.mem_cons, not_or]
          exact ⟨hyx, hyxs⟩
      obtain ⟨t', h₂⟩ := (hrest h₁).mpr ⟨fun x' hx' => ⟨(hhead x' hx').2, fun y hy hne =>
        hothers x' (List.mem_cons_of_mem x hx') y hy hne⟩, hpairs⟩
      exact ⟨t', Option.bind_eq_some_iff.mpr ⟨t₁, h₁, h₂⟩⟩

end Save

end Table

end Forail
