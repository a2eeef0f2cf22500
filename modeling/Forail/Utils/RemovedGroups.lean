import Forail.Utils.EmptyGroups
import Mathlib.Data.List.Perm.Basic

/-! What is left of the groups after the empty ones are removed: whether it has empty groups, and whether it
depends on the order of the groups. -/

namespace Forail.InventoryData

open Relation Acyclicity Pruning

namespace MemInventory

/-- The same groups and hosts, the groups and the children of `all` in another order. -/
structure Reordered (inv inv' : MemInventory) : Prop where
  groups : inv.allGroups.entries.Perm inv'.allGroups.entries
  children : inv.allGroup.children.Perm inv'.allGroup.children
  hosts : inv.allGroup.hosts = inv'.allGroup.hosts
  vars : inv.allGroup.vars = inv'.allGroup.vars
  allHosts : inv.allHosts = inv'.allHosts

/-- Neither the group nor a group below it has hosts or variables. -/
def Barren (inv : MemInventory) (name : Str) : Prop :=
  name ∈ inv.allGroups.keys ∧ ∀ m, ReflTransGen inv.Child name m → inv.bare m = true

variable {inv inv' : MemInventory} {name : Str}

theorem barren_iff : inv.Barren name ↔
    name ∈ inv.allGroups.keys ∧ Dead inv.bare (fun n => (inv.group n).children) name := Iff.rfl

theorem Hierarchical.barren_child (hinv : inv.Hierarchical) (h : inv.Barren name) {c : Str}
    (hc : c ∈ (inv.group name).children) : inv.Barren c :=
  ⟨hinv.children_known name c hc, (dead_iff.mp (barren_iff.mp h).2).2 c hc⟩

theorem mem_keys_deleted (hinv : inv.Hierarchical) :
    name ∈ inv.deleteEmptyGroups.allGroups.keys ↔ name ∈ inv.allGroups.keys ∧ name ∉ inv.removed := by
  rw [(without_deleteEmptyGroups hinv).keys, List.mem_filter, decide_eq_true_eq]

theorem barren_of_removed (h : name ∈ inv.removed) : inv.Barren name :=
  ⟨pruned_subset _ h, dead_of_mem_pruned h⟩

/-- A group that is left is empty if and only if it is barren and its children are removed. -/
theorem isEmpty_deleted (hinv : inv.Hierarchical) (h : name ∈ inv.deleteEmptyGroups.allGroups.keys) :
    IsEmpty (inv.deleteEmptyGroups.group name) ↔
      inv.bare name = true ∧ ∀ c ∈ (inv.group name).children, c ∈ inv.removed := by
  obtain ⟨hname, hgone⟩ := (mem_keys_deleted hinv).mp h
  exact isEmpty_iff (without_deleteEmptyGroups hinv) hname hgone

/-- All barren groups are removed if no empty one is left. -/
theorem removed_of_barren (hinv : inv.Hierarchical)
    (h : ∀ n ∈ inv.deleteEmptyGroups.allGroups.keys, ¬ IsEmpty (inv.deleteEmptyGroups.group n))
    (hname : inv.Barren name) : name ∈ inv.removed := by
  have hwf := hinv.acyclic.wellFounded_swap inv.allGroups.keys fun a b hab => hinv.children_known a b hab
  induction name using hwf.induction with
  | _ n ih =>
    by_contra hgone
    have hleft := (mem_keys_deleted hinv).mpr ⟨hname.1, hgone⟩
    refine h n hleft ((isEmpty_deleted hinv hleft).mpr ⟨hname.2 n .refl, fun c hc => ?_⟩)
    exact ih c hc (hinv.barren_child hname hc)

/-- No empty group is left if and only if each barren group stands behind its children. -/
theorem no_empty_left_iff (hinv : inv.Hierarchical) :
    (∀ n ∈ inv.deleteEmptyGroups.allGroups.keys, ¬ IsEmpty (inv.deleteEmptyGroups.group n)) ↔
      ∀ n, inv.Barren n → ∀ c ∈ (inv.group n).children, Before inv.allGroups.keys c n := by
  constructor
  · intro h n hn c hc
    exact (before_of_mem_pruned (removed_of_barren hinv h hn) hc).1
  · intro h n hn hempty
    obtain ⟨hname, hgone⟩ := (mem_keys_deleted hinv).mp hn
    obtain ⟨hbare, hchildren⟩ := (isEmpty_deleted hinv hn).mp hempty
    refine hgone (mem_pruned_of_before inv.allGroups.nodup (fun m hm hdead => h m ⟨hm, hdead⟩) hname ?_)
    exact dead_iff.mpr ⟨hbare, fun c hc => (barren_of_removed (hchildren c hc)).2⟩

/-! ### Other orders -/

namespace Reordered

theorem symm (h : inv.Reordered inv') : inv'.Reordered inv :=
  ⟨h.groups.symm, h.children.symm, h.hosts.symm, h.vars.symm, h.allHosts.symm⟩

theorem get? (h : inv.Reordered inv') (n : Str) : inv.allGroups.get? n = inv'.allGroups.get? n := by
  refine Option.ext fun g => ?_
  constructor
  · exact fun hg => Dict.get?_of_mem_entries (h.groups.mem_iff.mp (Dict.mem_entries_of_get? hg))
  · exact fun hg => Dict.get?_of_mem_entries (h.groups.mem_iff.mpr (Dict.mem_entries_of_get? hg))

theorem group (h : inv.Reordered inv') {n : Str} (hn : n ≠ allName) : inv.group n = inv'.group n := by
  rw [MemInventory.group, MemInventory.group, if_neg hn, if_neg hn, Dict.getD, Dict.getD, h.get?]

theorem keys (h : inv.Reordered inv') : inv.allGroups.keys.Perm inv'.allGroups.keys :=
  h.groups.map Prod.fst

theorem children_perm (h : inv.Reordered inv') (n : Str) :
    (inv.group n).children.Perm (inv'.group n).children := by
  by_cases hn : n = allName
  · subst hn
    exact h.children
  · rw [h.group hn]

theorem child (h : inv.Reordered inv') : inv.Child = inv'.Child := by
  funext a b
  exact propext (h.children_perm a).mem_iff

theorem hierarchical (h : inv.Reordered inv') (hinv : inv.Hierarchical) : inv'.Hierarchical where
  all_not_mem := fun hall => hinv.all_not_mem (h.keys.mem_iff.mpr hall)
  children_nodup n := (h.children_perm n).nodup_iff.mp (hinv.children_nodup n)
  children_known n c hc := h.keys.mem_iff.mp (hinv.children_known n c ((h.children_perm n).mem_iff.mpr hc))
  acyclic := h.child ▸ hinv.acyclic

end Reordered

theorem Reordered.bare (h : inv.Reordered inv') : inv.bare = inv'.bare := by
  funext n
  by_cases hn : n = allName
  · subst hn
    have hhosts : (inv.group allName).hosts = (inv'.group allName).hosts := h.hosts
    have hvars : (inv.group allName).vars = (inv'.group allName).vars := h.vars
    rw [MemInventory.bare, MemInventory.bare, hhosts, hvars]
  · rw [MemInventory.bare, MemInventory.bare, h.group hn]

theorem Reordered.barren (h : inv.Reordered inv') : inv.Barren name ↔ inv'.Barren name := by
  rw [Barren, Barren, h.keys.mem_iff, h.child, h.bare]

/-- Barren groups without children are removed, whatever the order. -/
theorem removed_of_childless (hall : ∀ n, inv.Barren n → (inv.group n).children = [])
    (h : inv.Barren name) : name ∈ inv.removed := by
  refine mem_pruned_of_before inv.allGroups.nodup (fun m hm hdead c hc => ?_) h.1 h.2
  rw [hall m ⟨hm, hdead⟩] at hc
  exact absurd hc List.not_mem_nil

/-- The inventories without the same groups are the same but for the order. -/
theorem Reordered.without (h : inv.Reordered inv') (hinv : inv.Hierarchical)
    (hremoved : ∀ n, n ∈ inv.removed ↔ n ∈ inv'.removed) :
    inv.deleteEmptyGroups.Reordered inv'.deleteEmptyGroups := by
  have hinv' := h.hierarchical hinv
  have hleft := without_deleteEmptyGroups hinv
  have hleft' := without_deleteEmptyGroups hinv'
  have hfilter : ∀ l : List Str, l.filter (· ∉ inv.removed) = l.filter (· ∉ inv'.removed) := fun l =>
    List.filter_congr fun n _ => decide_eq_decide.mpr (not_congr (hremoved n))
  have hkeys : ∀ n, n ∈ inv.deleteEmptyGroups.allGroups.keys ↔ n ∈ inv'.deleteEmptyGroups.allGroups.keys := by
    intro n
    rw [mem_keys_deleted hinv, mem_keys_deleted hinv', h.keys.mem_iff, hremoved]
  have hget : ∀ n, inv.deleteEmptyGroups.allGroups.get? n = inv'.deleteEmptyGroups.allGroups.get? n := by
    intro n
    by_cases hn : n ∈ inv.deleteEmptyGroups.allGroups.keys
    · have hn' := (hkeys n).mp hn
      obtain ⟨hmem, hgone⟩ := (mem_keys_deleted hinv).mp hn
      obtain ⟨hmem', hgone'⟩ := (mem_keys_deleted hinv').mp hn'
      have hall : n ≠ allName := fun hall => hinv.all_not_mem (hall ▸ hmem)
      have hgroup : inv.deleteEmptyGroups.group n = inv'.deleteEmptyGroups.group n := by
        rw [hleft.group n (.inr hmem) hgone, hleft'.group n (.inr hmem') hgone', h.group hall, hfilter]
      obtain ⟨g, hg⟩ := Dict.get?_of_mem_keys hn
      obtain ⟨g', hg'⟩ := Dict.get?_of_mem_keys hn'
      rw [MemInventory.group, MemInventory.group, if_neg hall, if_neg hall, Dict.getD, Dict.getD, hg, hg'] at hgroup
      rw [hg, hg']
      exact congrArg some hgroup
    · rw [Dict.get?_eq_none_of_not_mem _ hn, Dict.get?_eq_none_of_not_mem _ (mt (hkeys n).mpr hn)]
  have hallGone : allName ∉ inv.removed := fun hmem => hinv.all_not_mem (pruned_subset _ hmem)
  have hallGone' : allName ∉ inv'.removed := fun hmem => hinv'.all_not_mem (pruned_subset _ hmem)
  have hall : inv.deleteEmptyGroups.allGroup = { inv.allGroup with
      children := inv.allGroup.children.filter (· ∉ inv.removed) } := hleft.group allName (.inl rfl) hallGone
  have hall' : inv'.deleteEmptyGroups.allGroup = { inv'.allGroup with
      children := inv'.allGroup.children.filter (· ∉ inv'.removed) } :=
    hleft'.group allName (.inl rfl) hallGone'
  refine ⟨?_, ?_, ?_, ?_, hleft.hosts.trans (h.allHosts.trans hleft'.hosts.symm)⟩
  · refine (List.perm_ext_iff_of_nodup inv.deleteEmptyGroups.allGroups.nodup.of_map
      inv'.deleteEmptyGroups.allGroups.nodup.of_map).mpr fun e => ?_
    constructor
    · intro he
      exact Dict.mem_entries_of_get? ((hget e.1) ▸ Dict.get?_of_mem_entries he)
    · intro he
      exact Dict.mem_entries_of_get? ((hget e.1).symm ▸ Dict.get?_of_mem_entries he)
  · rw [hall, hall']
    dsimp only
    rw [hfilter]
    exact h.children.filter _
  · rw [hall, hall']
    exact h.hosts
  · rw [hall, hall']
    exact h.vars

/-- The inventory with its groups in another order. -/
def reorder (inv : MemInventory) (l : List Str) (hl : l.Perm inv.allGroups.keys) : MemInventory :=
  { inv with
    allGroups :=
      { entries := l.map fun n => (n, inv.allGroups.getD n .empty)
        nodup := by
          rw [List.map_map]
          exact (List.map_id l).symm ▸ hl.nodup_iff.mpr inv.allGroups.nodup } }

theorem entries_eq_map (d : Dict Str MemGroup) :
    d.entries = d.keys.map fun n => (n, d.getD n .empty) := by
  rw [Dict.keys, List.map_map]
  refine (List.map_id d.entries).symm.trans (List.map_congr_left fun e he => ?_)
  rw [Function.comp_apply, Dict.getD, Dict.get?_of_mem_entries he]
  rfl

theorem keys_reorder {l : List Str} (hl : l.Perm inv.allGroups.keys) :
    (inv.reorder l hl).allGroups.keys = l := by
  rw [reorder, Dict.keys, List.map_map]
  exact List.map_id l

theorem reordered_reorder {l : List Str} (hl : l.Perm inv.allGroups.keys) :
    inv.Reordered (inv.reorder l hl) where
  groups := by
    rw [entries_eq_map]
    exact (hl.map _).symm
  children := .refl _
  hosts := rfl
  vars := rfl
  allHosts := rfl

/-- A barren group with a child is removed in one order and left in another. -/
theorem order_matters (hinv : inv.Hierarchical) (hname : inv.Barren name) {c : Str}
    (hc : c ∈ (inv.group name).children) :
    (∃ inv', inv.Reordered inv' ∧ name ∈ inv'.removed) ∧ ∃ inv', inv.Reordered inv' ∧ name ∉ inv'.removed := by
  constructor
  · obtain ⟨l, hl, hbefore⟩ := exists_order hinv.acyclic
      fun n (_ : n ∈ inv.allGroups.keys) => hinv.children_known n
    have h := reordered_reorder hl
    have hkeys := keys_reorder hl
    refine ⟨_, h, mem_pruned_of_before (inv.reorder l hl).allGroups.nodup (fun m hm _ d hd => ?_)
      (h.barren.mp hname).1 (h.barren.mp hname).2⟩
    rw [hkeys] at hm ⊢
    exact hbefore m hm d ((h.children_perm m).mem_iff.mpr hd)
  · have hl : (name :: inv.allGroups.keys.erase name).Perm inv.allGroups.keys :=
      (List.perm_cons_erase hname.1).symm
    have h := reordered_reorder hl
    refine ⟨_, h, fun hmem => ?_⟩
    have hbefore := (before_of_mem_pruned hmem ((h.children_perm name).mem_iff.mp hc)).1
    have hkeys : (inv.reorder _ hl).allGroups.keys = [] ++ name :: inv.allGroups.keys.erase name :=
      keys_reorder hl
    exact List.not_mem_nil (mem_of_before (inv.reorder _ hl).allGroups.nodup hkeys hbefore)

/-- What is left does not depend on the order if and only if barren groups have no children. -/
theorem order_free_iff (hinv : inv.Hierarchical) :
    (∀ inv', inv.Reordered inv' → inv.deleteEmptyGroups.Reordered inv'.deleteEmptyGroups) ↔
      ∀ n, inv.Barren n → (inv.group n).children = [] := by
  constructor
  · intro h n hn
    by_contra hne
    obtain ⟨c, hc⟩ := List.exists_mem_of_ne_nil _ hne
    obtain ⟨⟨first, hfirst, hgone⟩, second, hsecond, hleft⟩ := order_matters hinv hn hc
    have hmem := (mem_keys_deleted (hsecond.hierarchical hinv)).mpr ⟨(hsecond.barren.mp hn).1, hleft⟩
    rw [← (h second hsecond).keys.mem_iff, (h first hfirst).keys.mem_iff,
      mem_keys_deleted (hfirst.hierarchical hinv)] at hmem
    exact hmem.2 hgone
  · intro hall inv' h
    have hall' : ∀ n, inv'.Barren n → (inv'.group n).children = [] := fun n hn =>
      (hall n (h.barren.mpr hn) ▸ h.children_perm n).nil_eq.symm
    refine h.without hinv fun n => ?_
    exact ⟨fun hn => removed_of_childless hall' (h.barren.mp (barren_of_removed hn)),
      fun hn => removed_of_childless hall (h.barren.mpr (barren_of_removed hn))⟩

end MemInventory

/-- An in-memory inventory with an acyclic structure of groups. -/
structure HierarchicalInventory extends MemInventory where
  hierarchical : toMemInventory.Hierarchical

/-- Every loaded inventory without a cycle is one. -/
theorem Loaded.hierarchical {inv : MemInventory} (h : Loaded inv) (hacyclic : Acyclic inv.Child) :
    inv.Hierarchical where
  all_not_mem hmem := (h.groupNames _ hmem).1 rfl
  children_nodup name := (h.children name).1
  children_known name := (h.children name).2
  acyclic := hacyclic

open MemInventory in
/-- The groups that are left keep their hosts, their variables and their children that are left, and those
that lead to hosts or variables are left. No empty one is left if and only if each barren group stands
behind its children; and that is so in every order, with the same result, if and only if barren groups have
no children. -/
theorem deleted_iff (inv : HierarchicalInventory) :
    (∀ n, inv.Knows n → n ∈ inv.deleteEmptyGroups.allGroups.keys ∨ n = allName →
      (inv.deleteEmptyGroups.group n).hosts = (inv.group n).hosts ∧
        (inv.deleteEmptyGroups.group n).vars = (inv.group n).vars ∧
          ∀ c, c ∈ (inv.deleteEmptyGroups.group n).children ↔
            c ∈ (inv.group n).children ∧ c ∈ inv.deleteEmptyGroups.allGroups.keys) ∧
    (∀ n ∈ inv.deleteEmptyGroups.allGroups.keys, n ∈ inv.allGroups.keys) ∧
    (∀ n ∈ inv.allGroups.keys, ∀ m, ReflTransGen inv.Child n m →
      (inv.group m).hosts ≠ [] ∨ (inv.group m).vars.entries ≠ [] →
        n ∈ inv.deleteEmptyGroups.allGroups.keys) ∧
    ((∀ n ∈ inv.deleteEmptyGroups.allGroups.keys, ¬ IsEmpty (inv.deleteEmptyGroups.group n)) ↔
      ∀ n, inv.Barren n → ∀ c ∈ (inv.group n).children, Before inv.allGroups.keys c n) ∧
    ((∀ n ∈ inv.deleteEmptyGroups.allGroups.keys, ¬ IsEmpty (inv.deleteEmptyGroups.group n)) ∧
        (∀ inv', inv.Reordered inv' → inv.deleteEmptyGroups.Reordered inv'.deleteEmptyGroups) ↔
      ∀ n, inv.Barren n → (inv.group n).children = []) := by
  have hinv := inv.hierarchical
  have hleft := without_deleteEmptyGroups hinv
  refine ⟨fun n hknows hn => ?_, fun n hn => ((mem_keys_deleted hinv).mp hn).1,
    fun n hn m hm hfull => ?_, no_empty_left_iff hinv, ?_⟩
  · have hgone : n ∉ inv.removed := by
      rcases hn with hn | rfl
      · exact ((mem_keys_deleted hinv).mp hn).2
      · exact fun hmem => hinv.all_not_mem (pruned_subset _ hmem)
    rw [hleft.group n hknows hgone]
    refine ⟨rfl, rfl, fun c => ?_⟩
    rw [List.mem_filter, decide_eq_true_eq, mem_keys_deleted hinv]
    exact and_congr_right fun hc => (and_iff_right (hinv.children_known n c hc)).symm
  · refine (mem_keys_deleted hinv).mpr ⟨hn, fun hgone => ?_⟩
    obtain ⟨hhosts, hvars⟩ := of_decide_eq_true ((barren_of_removed hgone).2 m hm)
    exact hfull.elim (· hhosts) (· hvars)
  · rw [order_free_iff hinv, no_empty_left_iff hinv]
    refine and_iff_right_of_imp fun h n hn c hc => ?_
    rw [h n hn] at hc
    exact absurd hc List.not_mem_nil

/-- The group `a` with the empty child `b`, in this order. -/
def nested (entries : List (Str × MemGroup)) (h : (entries.map Prod.fst).Nodup) : MemInventory :=
  ⟨⟨[['a'], ['b']], [], .empty⟩, .empty, ⟨entries, h⟩⟩

/-- The parent is passed before its child goes, and stays as an empty group; in the other order both go. -/
theorem empty_parent_left :
    (nested [(['a'], ⟨[['b']], [], .empty⟩), (['b'], .empty)] (by decide)).deleteEmptyGroups.allGroups.keys =
        [['a']] ∧
      MemInventory.IsEmpty ((nested [(['a'], ⟨[['b']], [], .empty⟩), (['b'], .empty)]
        (by decide)).deleteEmptyGroups.group ['a']) ∧
      (nested [(['b'], .empty), (['a'], ⟨[['b']], [], .empty⟩)] (by decide)).deleteEmptyGroups.allGroups.keys =
        [] := by
  decide

end Forail.InventoryData
