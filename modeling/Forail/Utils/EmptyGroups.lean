import Forail.Base.Pruning
import Forail.Utils.LoadedInventory

/-! `MemInventory.delete_empty_groups`: one pass over the groups in the order in which they were created. What
is left is the inventory without the groups that the pass removes. -/

namespace Forail.InventoryData

open Relation Acyclicity Pruning

namespace MemInventory

/-- `not group.children and not group.hosts and not group.variables` -/
def IsEmpty (g : MemGroup) : Prop := g.children = [] ∧ g.hosts = [] ∧ g.vars.entries = []

instance (g : MemGroup) : Decidable (IsEmpty g) := inferInstanceAs (Decidable (_ ∧ _ ∧ _))

/-- `group.parents`, which `add_child_group` keeps with the children. -/
def parents (inv : MemInventory) (name : Str) : List Str :=
  (allName :: inv.allGroups.keys).filter fun parent => name ∈ (inv.group parent).children

/-- `parent.children.remove(group)`, where it is a child. -/
def dropChild (name : Str) (inv : MemInventory) (parent : Str) : MemInventory :=
  let p := inv.group parent
  if name ∈ p.children then inv.setGroup parent { p with children := p.children.erase name } else inv

/-- The body of the loop. -/
def deleteIfEmpty (inv : MemInventory) (name : Str) : MemInventory :=
  if IsEmpty (inv.group name) then
    let inv := (inv.parents name).foldl (dropChild name) inv
    { inv with allGroups := inv.allGroups.erase name }
  else inv

/-- The loop runs over a copy of the entries. -/
def deleteEmptyGroups (inv : MemInventory) : MemInventory := inv.allGroups.keys.foldl deleteIfEmpty inv

/-! ### The groups and their links -/

/-- A group has another one as child. -/
def Child (inv : MemInventory) (parent child : Str) : Prop := child ∈ (inv.group parent).children

/-- Without hosts and variables. -/
def bare (inv : MemInventory) (name : Str) : Bool :=
  decide ((inv.group name).hosts = [] ∧ (inv.group name).vars.entries = [])

/-- The children and groups of an inventory are known groups, and their structure has no cycle. -/
structure Hierarchical (inv : MemInventory) : Prop where
  all_not_mem : allName ∉ inv.allGroups.keys
  children_nodup : ∀ name, (inv.group name).children.Nodup
  children_known : ∀ name, ∀ child ∈ (inv.group name).children, child ∈ inv.allGroups.keys
  acyclic : Acyclic inv.Child

/-- The groups that the pass removes. -/
def removed (inv : MemInventory) : List Str :=
  pruned inv.bare (fun name => (inv.group name).children) inv.allGroups.keys

/-- The other inventory is this one without some groups. -/
structure Without (inv : MemInventory) (gone : List Str) (inv' : MemInventory) : Prop where
  keys : inv'.allGroups.keys = inv.allGroups.keys.filter (· ∉ gone)
  group : ∀ name, inv.Knows name → name ∉ gone → inv'.group name =
    { inv.group name with children := (inv.group name).children.filter (· ∉ gone) }
  hosts : inv'.allHosts = inv.allHosts

variable {inv inv' : MemInventory} {gone : List Str} {name : Str}

/-! ### One group -/

theorem group_dropChild (parent q : Str) : (dropChild name inv parent).group q =
    if q = parent then { inv.group q with children := (inv.group q).children.erase name }
    else inv.group q := by
  unfold dropChild
  dsimp only
  split_ifs with hmem hq hq
  · rw [group_setGroup, if_pos hq, hq]
  · rw [group_setGroup, if_neg hq]
  · rw [hq, List.erase_of_not_mem hmem]
  · rfl

theorem keys_dropChild {parent : Str} (h : inv.Knows parent) :
    (dropChild name inv parent).allGroups.keys = inv.allGroups.keys := by
  unfold dropChild
  dsimp only
  split_ifs
  · exact keys_setGroup h _
  · rfl

theorem allHosts_dropChild (parent : Str) : (dropChild name inv parent).allHosts = inv.allHosts := by
  unfold dropChild
  dsimp only
  split_ifs
  · exact allHosts_setGroup _
  · rfl

/-- Distinct known parents lose the child, and nothing else changes. -/
theorem foldl_dropChild {l : List Str} (hl : l.Nodup) (hknows : ∀ p ∈ l, inv.Knows p) :
    (l.foldl (dropChild name) inv).allGroups.keys = inv.allGroups.keys ∧
      (l.foldl (dropChild name) inv).allHosts = inv.allHosts ∧
        ∀ q, (l.foldl (dropChild name) inv).group q =
          if q ∈ l then { inv.group q with children := (inv.group q).children.erase name }
          else inv.group q := by
  induction l generalizing inv with
  | nil => exact ⟨rfl, rfl, fun q => (if_neg List.not_mem_nil).symm⟩
  | cons p l ih =>
    obtain ⟨hp, hl⟩ := List.nodup_cons.mp hl
    have hkeys : (dropChild name inv p).allGroups.keys = inv.allGroups.keys :=
      keys_dropChild (hknows p List.mem_cons_self)
    have hknows' : ∀ q ∈ l, (dropChild name inv p).Knows q := by
      intro q hq
      rw [Knows, hkeys]
      exact hknows q (List.mem_cons_of_mem p hq)
    obtain ⟨hkeys', hhosts', hgroup'⟩ := ih hl hknows'
    rw [List.foldl_cons]
    refine ⟨hkeys'.trans hkeys, hhosts'.trans (allHosts_dropChild p), fun q => ?_⟩
    rw [hgroup', group_dropChild]
    by_cases hqp : q = p
    · rw [if_neg (hqp ▸ hp), if_pos hqp, if_pos (hqp ▸ List.mem_cons_self)]
    · rw [if_neg hqp]
      simp only [List.mem_cons, hqp, false_or]

theorem mem_parents {parent : Str} : parent ∈ inv.parents name ↔
    inv.Knows parent ∧ name ∈ (inv.group parent).children := by
  rw [parents, List.mem_filter, decide_eq_true_eq, List.mem_cons]
  rfl

theorem parents_nodup (h : allName ∉ inv.allGroups.keys) : (inv.parents name).Nodup :=
  (List.nodup_cons.mpr ⟨h, inv.allGroups.nodup⟩).filter _

theorem keys_erase_allGroups : ({ inv with allGroups := inv.allGroups.erase name } : MemInventory).allGroups.keys =
    inv.allGroups.keys.filter (· ≠ name) := Dict.keys_erase _ _

theorem group_erase {q : Str} (h : q ≠ name) :
    ({ inv with allGroups := inv.allGroups.erase name } : MemInventory).group q = inv.group q := by
  unfold group
  split_ifs
  · rfl
  · rw [Dict.getD, Dict.get?_erase, if_neg h]
    rfl

/-! ### The pass -/

theorem isEmpty_iff (h : Without inv gone inv') (hname : name ∈ inv.allGroups.keys) (hgone : name ∉ gone) :
    IsEmpty (inv'.group name) ↔ inv.bare name = true ∧ ∀ c ∈ (inv.group name).children, c ∈ gone := by
  rw [IsEmpty, h.group name (.inr hname) hgone, bare, decide_eq_true_eq, List.filter_eq_nil_iff]
  simp only [decide_eq_true_eq, not_not]
  exact and_comm

theorem knows_of_without (h : Without inv gone inv') {q : Str} (hq : inv.Knows q) (hgone : q ∉ gone) :
    inv'.Knows q := by
  refine hq.imp_right fun hq => ?_
  rw [h.keys]
  exact List.mem_filter.mpr ⟨hq, decide_eq_true hgone⟩

/-- A visit removes a group as the pruning does. -/
theorem Without.deleteIfEmpty (hinv : inv.Hierarchical) (h : Without inv gone inv')
    (hname : name ∈ inv.allGroups.keys) (hgone : name ∉ gone) :
    Without inv (step inv.bare (fun n => (inv.group n).children) gone name) (deleteIfEmpty inv' name) := by
  have hiff := isEmpty_iff h hname hgone
  unfold MemInventory.deleteIfEmpty step
  by_cases hempty : IsEmpty (inv'.group name)
  · rw [if_pos hempty, if_pos (hiff.mp hempty)]
    have hall : allName ∉ inv'.allGroups.keys := by
      rw [h.keys]
      exact fun hmem => hinv.all_not_mem (List.mem_filter.mp hmem).1
    have hnodup : (inv'.parents name).Nodup := parents_nodup hall
    obtain ⟨hkeys, hhosts, hgroup⟩ := foldl_dropChild hnodup fun p hp => (mem_parents.mp hp).1
    constructor
    · rw [keys_erase_allGroups, hkeys, h.keys, List.filter_filter]
      refine List.filter_congr fun q _ => ?_
      simp [and_comm]
    · intro q hq hqgone
      obtain ⟨hqgone, hqname⟩ : q ∉ gone ∧ q ≠ name := by simpa using hqgone
      have hold := h.group q hq hqgone
      have hchildren : ((inv.group q).children.filter (· ∉ gone)).erase name =
          (inv.group q).children.filter (· ∉ gone ++ [name]) := by
        rw [((hinv.children_nodup q).filter _).erase_eq_filter, List.filter_filter]
        refine List.filter_congr fun c _ => ?_
        by_cases hc : c ∈ gone <;> by_cases hcn : c = name <;> simp [hc, hcn]
      rw [group_erase hqname, hgroup]
      split_ifs with hparent
      · rw [hold]
        dsimp only
        rw [hchildren]
      · have hchild : name ∉ (inv.group q).children.filter (· ∉ gone) := by
          intro hmem
          refine hparent (mem_parents.mpr ⟨knows_of_without h hq hqgone, ?_⟩)
          rw [hold]
          exact hmem
        rw [hold, ← hchildren, List.erase_of_not_mem hchild]
    · exact hhosts.trans h.hosts
  · rw [if_neg hempty, if_neg (mt hiff.mpr hempty)]
    exact h

theorem without_nil (inv : MemInventory) : Without inv [] inv where
  keys := by simp
  group name _ _ := by simp
  hosts := rfl

/-- What is left is the inventory without the removed groups. -/
theorem without_deleteEmptyGroups (hinv : inv.Hierarchical) :
    Without inv inv.removed inv.deleteEmptyGroups := by
  have hall : ∀ l, l.Nodup → (∀ n ∈ l, n ∈ inv.allGroups.keys) →
      Without inv (pruned inv.bare (fun n => (inv.group n).children) l) (l.foldl MemInventory.deleteIfEmpty inv) := by
    intro l
    induction l using List.reverseRecOn with
    | nil => exact fun _ _ => without_nil inv
    | append_singleton l n ih =>
      intro hl hmem
      have hn : n ∉ l := fun hn => (List.nodup_append.mp hl).2.2 n hn n List.mem_cons_self rfl
      have hbefore := ih (List.nodup_append.mp hl).1 fun m hm => hmem m (List.mem_append_left _ hm)
      rw [List.foldl_append, pruned_concat]
      exact hbefore.deleteIfEmpty hinv (hmem n (List.mem_append_right _ List.mem_cons_self))
        fun hgone => hn (pruned_subset l hgone)
  exact hall _ inv.allGroups.nodup fun n hn => hn

end MemInventory

end Forail.InventoryData
