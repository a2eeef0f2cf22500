import Mathlib.Data.Finset.Prod
import Mathlib.Data.Finset.Sort
import Mathlib.Logic.Relation
import Mathlib.Order.Lattice.Nat

/-! The table of the ancestors of the roles, kept up when links between roles and their parents come
and go. Each round deletes the rows that no parent supports, inserts those that a parent has, and
hands over to the children. -/

namespace Forail.Rbac

open Relation

/-- Rows `(from_role_id, to_role_id)` of a role and a parent of it. -/
structure Hierarchy where
  roles : Finset ℕ
  parents : Finset (ℕ × ℕ)
  parents_roles : ∀ link ∈ parents, link.1 ∈ roles ∧ link.2 ∈ roles

/-- Rows `(descendent_id, ancestor_id)`. -/
abbrev Table := Finset (ℕ × ℕ)

/-- How the members of a set are listed. -/
structure SetOrder where
  toList : Finset ℕ → List ℕ
  mem_toList : ∀ s x, x ∈ toList s ↔ x ∈ s
  nodup_toList : ∀ s, (toList s).Nodup

/-- From the lowest on. -/
def ascending : SetOrder where
  toList s := (List.range (s.sup id + 1)).filter (· ∈ s)
  mem_toList s x := by
    rw [List.mem_filter, List.mem_range, decide_eq_true_iff, and_iff_right_iff_imp]
    exact fun hx => Nat.lt_succ_of_le (Finset.le_sup (f := id) hx)
  nodup_toList _ := List.nodup_range.filter _

namespace Hierarchy

variable (h : Hierarchy)

def Parent (role parent : ℕ) : Prop := (role, parent) ∈ h.parents

/-- The ancestor of the row is one of a parent. -/
def Supported (table : Table) (row : ℕ × ℕ) : Prop :=
  ∃ link ∈ h.parents, link.1 = row.1 ∧ (link.2, row.2) ∈ table

instance (table : Table) (row : ℕ × ℕ) : Decidable (h.Supported table row) :=
  inferInstanceAs (Decidable (∃ link ∈ h.parents, link.1 = row.1 ∧ (link.2, row.2) ∈ table))

/-- The DELETE query. -/
def deleteRows (table : Table) (ids : List ℕ) : Table :=
  table.filter fun row => ¬ (row.1 ∈ ids ∧ row.1 ≠ row.2 ∧ ¬ h.Supported table row)

/-- The union of the ancestors of the parents, and the roles themselves. -/
def newAncestryList (table : Table) (ids : List ℕ) : Table :=
  (((h.parents ×ˢ table).filter fun join => join.1.1 ∈ ids ∧ join.1.2 = join.2.1).image
      fun join => (join.1.1, join.2.2)) ∪
    (h.roles.filter (· ∈ ids)).image fun role => (role, role)

/-- The INSERT query. -/
def insertRows (table : Table) (ids : List ℕ) : Table := table ∪ h.newAncestryList table ids

/-- `SELECT DISTINCT from_role_id` -/
def children (ids : List ℕ) : Finset ℕ := (h.parents.filter fun link => link.2 ∈ ids).image Prod.fst

end Hierarchy

/-- `split_ids_for_sqlite` -/
def splitIds (ids : List ℕ) : List (List ℕ) :=
  (List.range ((ids.length + 39999) / 40000)).map fun i => (ids.drop (40000 * i)).take 40000

section Rounds
variable (h : Hierarchy) (order : SetOrder)

def newIds (ids : List ℕ) : List ℕ :=
  order.toList ((splitIds ids).foldl (fun new ids => new ∪ h.children ids) ∅)

/-- The loop with so many rounds to go. The counts of the queries of a round add up to the
differences in size. -/
def rebuildLoop : ℕ → List ℕ → List ℕ → Table → Except String Table
  | 0, additions, removals, table =>
    if additions.length = 0 ∧ removals.length = 0 then .ok table
    else .error "Role ancestry rebuilding error: infinite loop detected"
  | rounds + 1, additions, removals, table =>
    if additions.length = 0 ∧ removals.length = 0 then .ok table
    else
      let deleted := (splitIds removals).foldl h.deleteRows table
      let inserted := (splitIds additions).foldl h.insertRows deleted
      let deleteCt := table.card - deleted.card
      let insertCt := inserted.card - deleted.card
      if insertCt = 0 ∧ deleteCt = 0 then .ok inserted
      else rebuildLoop rounds (newIds h order additions) (newIds h order removals) inserted

/-- The roles that a batch collects, if there is one, and the table. The counter of the loop is
checked before it is raised, so that it lets 101 rounds pass. -/
def rebuildRoleAncestorList (roleSystemActivated : Bool) (batch : Option (Finset ℕ × Finset ℕ))
    (additions removals : List ℕ) (table : Table) :
    Except String (Option (Finset ℕ × Finset ℕ) × Table) :=
  if roleSystemActivated then .ok (batch, table)
  else if additions.length = 0 ∧ removals.length = 0 then .ok (batch, table)
  else
    match batch with
    | some collected =>
      .ok (some (collected.1 ∪ additions.toFinset, collected.2 ∪ removals.toFinset), table)
    | none => (rebuildLoop h order 101 additions removals table).map (none, ·)

end Rounds

variable {h : Hierarchy} {order : SetOrder} {table : Table} {ids : List ℕ} {row : ℕ × ℕ}

/-! ### The ids in parts -/

theorem mem_splitIds {x : ℕ} : x ∈ (splitIds ids).flatten ↔ x ∈ ids := by
  constructor
  · intro hx
    obtain ⟨part, hpart, hx⟩ := List.mem_flatten.mp hx
    obtain ⟨i, -, rfl⟩ := List.mem_map.mp hpart
    exact List.mem_of_mem_drop (List.mem_of_mem_take hx)
  · intro hx
    obtain ⟨n, hn, rfl⟩ := List.mem_iff_getElem.mp hx
    refine List.mem_flatten.mpr ⟨_, List.mem_map_of_mem (a := n / 40000) ?_, ?_⟩
    · rw [List.mem_range]
      omega
    · rw [List.mem_iff_getElem?]
      refine ⟨n % 40000, ?_⟩
      rw [List.getElem?_take_of_lt (Nat.mod_lt n (by omega)), List.getElem?_drop, Nat.div_add_mod]
      exact List.getElem?_eq_getElem hn

theorem mem_newIds {x : ℕ} : x ∈ newIds h order ids ↔ ∃ p ∈ ids, h.Parent x p := by
  have hfold : ∀ (parts : List (List ℕ)) (new : Finset ℕ),
      x ∈ parts.foldl (fun new ids => new ∪ h.children ids) new ↔
        x ∈ new ∨ ∃ p ∈ parts.flatten, h.Parent x p := by
    intro parts
    induction parts with
    | nil => simp
    | cons part parts ih =>
      intro new
      have hchildren : x ∈ h.children part ↔ ∃ p ∈ part, h.Parent x p := by
        simp only [Hierarchy.children, Finset.mem_image, Finset.mem_filter, Prod.exists,
          exists_and_right, exists_eq_right, Hierarchy.Parent]
        exact exists_congr fun p => and_comm
      rw [List.foldl_cons, ih, Finset.mem_union, hchildren, List.flatten_cons, or_assoc]
      refine or_congr_right ?_
      simp only [List.mem_append, or_and_right, exists_or]
  rw [newIds, order.mem_toList, hfold]
  simp only [Finset.notMem_empty, false_or, mem_splitIds]

/-! ### Deleting -/

theorem mem_deleteRows : row ∈ h.deleteRows table ids ↔
    row ∈ table ∧ (row.1 ∈ ids → row.1 ≠ row.2 → h.Supported table row) := by
  rw [Hierarchy.deleteRows, Finset.mem_filter]
  refine and_congr_right fun _ => ?_
  tauto

theorem Hierarchy.Supported.mono {table table' : Table} (hs : h.Supported table row)
    (hsub : table ⊆ table') : h.Supported table' row := by
  obtain ⟨link, hlink, hrole, hmem⟩ := hs
  exact ⟨link, hlink, hrole, hsub hmem⟩

section Sweeps
variable {parts : List (List ℕ)}

theorem deletes_subset : parts.foldl h.deleteRows table ⊆ table := by
  induction parts generalizing table with
  | nil => exact Finset.Subset.refl table
  | cons ids parts ih => exact fun row hrow => (mem_deleteRows.mp (ih hrow)).1

/-- Only rows that nothing supports are deleted. -/
theorem deletes_deleted (hrow : row ∈ table) (hgone : row ∉ parts.foldl h.deleteRows table) :
    row.1 ∈ parts.flatten ∧ row.1 ≠ row.2 ∧ ¬ h.Supported (parts.foldl h.deleteRows table) row := by
  induction parts generalizing table with
  | nil => exact absurd hrow hgone
  | cons ids parts ih =>
    rw [List.foldl_cons] at hgone ⊢
    by_cases hkept : row ∈ h.deleteRows table ids
    · obtain ⟨hmem, hne, hsupport⟩ := ih hkept hgone
      exact ⟨List.mem_append_right ids hmem, hne, hsupport⟩
    · rw [mem_deleteRows] at hkept
      push Not at hkept
      obtain ⟨hmem, hne, hsupport⟩ := hkept hrow
      refine ⟨List.mem_append_left _ hmem, hne, fun hs => hsupport (hs.mono fun row hrow => ?_)⟩
      exact (mem_deleteRows.mp (deletes_subset hrow)).1

/-- A row that is swept and kept was supported. -/
theorem deletes_kept (hrow : row ∈ parts.foldl h.deleteRows table) (hmem : row.1 ∈ parts.flatten)
    (hne : row.1 ≠ row.2) : h.Supported table row := by
  induction parts generalizing table with
  | nil => cases hmem
  | cons ids parts ih =>
    rw [List.foldl_cons] at hrow
    rcases List.mem_append.mp hmem with hmem | hmem
    · exact (mem_deleteRows.mp (deletes_subset hrow)).2 hmem hne
    · exact (ih hrow hmem).mono fun row hrow => (mem_deleteRows.mp hrow).1

/-- Rows that support each other are all kept. -/
theorem deletes_keep {K : Set (ℕ × ℕ)} (hK : ∀ row ∈ K, row ∈ table)
    (hsupport : ∀ row ∈ K, row.1 ≠ row.2 → ∃ p, h.Parent row.1 p ∧ (p, row.2) ∈ K) :
    ∀ row ∈ K, row ∈ parts.foldl h.deleteRows table := by
  induction parts generalizing table with
  | nil => exact hK
  | cons ids parts ih =>
    refine ih fun row hrow => mem_deleteRows.mpr ⟨hK row hrow, fun _ hne => ?_⟩
    obtain ⟨p, hparent, hp⟩ := hsupport row hrow hne
    exact ⟨(row.1, p), hparent, rfl, hK _ hp⟩

/-! ### Inserting -/

theorem mem_newAncestryList : row ∈ h.newAncestryList table ids ↔ row.1 ∈ ids ∧
    (h.Supported table row ∨ row.1 = row.2 ∧ row.1 ∈ h.roles) := by
  obtain ⟨d, a⟩ := row
  simp only [Hierarchy.newAncestryList, Finset.mem_union, Finset.mem_image, Finset.mem_filter,
    Finset.mem_product, Prod.exists, Prod.mk.injEq, Hierarchy.Supported]
  constructor
  · rintro (⟨x, y, p, b, ⟨⟨hlink, hrow⟩, hmem, rfl⟩, rfl, rfl⟩ | ⟨x, ⟨hrole, hmem⟩, rfl, rfl⟩)
    · exact ⟨hmem, .inl ⟨x, y, hlink, rfl, hrow⟩⟩
    · exact ⟨hmem, .inr ⟨rfl, hrole⟩⟩
  · rintro ⟨hmem, ⟨x, y, hlink, rfl, hrow⟩ | ⟨rfl, hrole⟩⟩
    · exact .inl ⟨x, y, y, a, ⟨⟨hlink, hrow⟩, hmem, rfl⟩, rfl, rfl⟩
    · exact .inr ⟨d, ⟨hrole, hmem⟩, rfl, rfl⟩

theorem subset_inserts : table ⊆ parts.foldl h.insertRows table := by
  induction parts generalizing table with
  | nil => exact Finset.Subset.refl table
  | cons ids parts ih => exact fun row hrow => ih (Finset.mem_union_left _ hrow)

/-- What is inserted is a role itself or supported. -/
theorem inserts_inserted (hrow : row ∈ parts.foldl h.insertRows table) (hnew : row ∉ table) :
    row.1 ∈ parts.flatten ∧
      (h.Supported (parts.foldl h.insertRows table) row ∨ row.1 = row.2 ∧ row.1 ∈ h.roles) := by
  induction parts generalizing table with
  | nil => exact absurd hrow hnew
  | cons ids parts ih =>
    rw [List.foldl_cons] at hrow ⊢
    by_cases hnow : row ∈ h.insertRows table ids
    · have hlist := (Finset.mem_union.mp hnow).resolve_left hnew
      obtain ⟨hmem, hsource⟩ := mem_newAncestryList.mp hlist
      refine ⟨List.mem_append_left _ hmem, hsource.imp_left fun hs => hs.mono fun row hrow => ?_⟩
      exact subset_inserts (Finset.mem_union_left _ hrow)
    · obtain ⟨hmem, hsource⟩ := ih hrow hnow
      exact ⟨List.mem_append_right ids hmem, hsource⟩

/-- A row of a swept role that is supported is there afterwards. -/
theorem inserts_insert (hmem : row.1 ∈ parts.flatten) (hs : h.Supported table row) :
    row ∈ parts.foldl h.insertRows table := by
  induction parts generalizing table with
  | nil => cases hmem
  | cons ids parts ih =>
    rw [List.foldl_cons]
    rcases List.mem_append.mp hmem with hmem | hmem
    · exact subset_inserts (Finset.mem_union_right _ (mem_newAncestryList.mpr ⟨hmem, .inl hs⟩))
    · exact ih hmem (hs.mono fun row hrow => Finset.mem_union_left _ hrow)

/-- What passes from a parent to its children, and holds of the roles themselves, holds of all rows
that are inserted. -/
theorem inserts_induction {P : ℕ × ℕ → Prop} (htable : ∀ row ∈ table, P row)
    (hself : ∀ role ∈ h.roles, P (role, role))
    (hchild : ∀ d p a, h.Parent d p → P (p, a) → P (d, a)) :
    ∀ row ∈ parts.foldl h.insertRows table, P row := by
  induction parts generalizing table with
  | nil => exact htable
  | cons ids parts ih =>
    refine ih fun row hrow => ?_
    rcases Finset.mem_union.mp hrow with hrow | hrow
    · exact htable row hrow
    · obtain ⟨d, a⟩ := row
      obtain ⟨-, ⟨⟨x, p⟩, hlink, rfl, hp⟩ | ⟨heq, hrole⟩⟩ := mem_newAncestryList.mp hrow
      · exact hchild x p a hlink (htable _ hp)
      · have hself' := hself d hrole
        rwa [show a = d from heq.symm]

end Sweeps

end Forail.Rbac
