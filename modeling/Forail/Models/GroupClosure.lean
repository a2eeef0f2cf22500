import Forail.Base.Dict
import Forail.Base.Walk

/-! `Group.get_all_parents`, `get_all_children` and `get_all_hosts`: the maps of an inventory, the walks over
them and the rows with the keys that they find. -/

namespace Forail.GroupClosure

open Relation Walk

/-- The rows of all inventories: the inventory of each group and of each host, the links with the child and
then the parent, the memberships with the group and then the host. -/
structure Db where
  groups : Dict ℕ ℕ
  hosts : Dict ℕ ℕ
  parents : List (ℕ × ℕ)
  members : List (ℕ × ℕ)

/-- A stored group. -/
structure Group (db : Db) where
  pk : ℕ
  inventory : ℕ
  stored : db.groups.get? pk = some inventory

/-! ### The maps -/

/-- The sets of what the rows have under each key. -/
def collectMap (rows : List (ℕ × ℕ)) : Dict ℕ (Finset ℕ) :=
  rows.foldl (fun m row => m.set row.1 (insert row.2 (m.getD row.1 ∅))) .empty

namespace Db

variable (db : Db)

/-- The links with both groups in the inventory. -/
def parentRows (inventory : ℕ) : List (ℕ × ℕ) :=
  db.parents.filter fun row => db.groups.get? row.1 = some inventory ∧ db.groups.get? row.2 = some inventory

def getGroupParentsMap (inventory : ℕ) : Dict ℕ (Finset ℕ) := collectMap (db.parentRows inventory)

def getGroupChildrenMap (inventory : ℕ) : Dict ℕ (Finset ℕ) :=
  collectMap ((db.parentRows inventory).map Prod.swap)

def getGroupHostsMap (inventory : ℕ) : Dict ℕ (Finset ℕ) :=
  collectMap (db.members.filter fun row =>
    db.groups.get? row.1 = some inventory ∧ db.hosts.get? row.2 = some inventory)

/-! ### The walks -/

/-- `Group.objects.filter(pk__in=…)` -/
def groupsIn (pks : Finset ℕ) : List ℕ := db.groups.keys.filter (· ∈ pks)

def hostsIn (pks : Finset ℕ) : List ℕ := db.hosts.keys.filter (· ∈ pks)

end Db

namespace Group

variable {db : Db} (order : SetOrder ℕ) (fuel : ℕ) (g : Group db)

def getAllParents : Option (List ℕ) :=
  let map := fun k => (db.getGroupParentsMap g.inventory).getD k ∅
  (walk order map map fuel g.pk).map db.groupsIn

def getAllChildren : Option (List ℕ) :=
  let map := fun k => (db.getGroupChildrenMap g.inventory).getD k ∅
  (walk order map map fuel g.pk).map db.groupsIn

def getAllHosts : Option (List ℕ) :=
  let childrenMap := fun k => (db.getGroupChildrenMap g.inventory).getD k ∅
  let hostsMap := fun k => (db.getGroupHostsMap g.inventory).getD k ∅
  (walk order childrenMap hostsMap fuel g.pk).map db.hostsIn

end Group

/-! ### What the maps hold -/

theorem mem_collectMap {rows : List (ℕ × ℕ)} {a b : ℕ} :
    b ∈ (collectMap rows).getD a ∅ ↔ (a, b) ∈ rows := by
  induction rows using List.reverseRecOn with
  | nil => simp [collectMap]
  | append_singleton rows row ih =>
    obtain ⟨c, d⟩ := row
    have hstep : collectMap (rows ++ [(c, d)]) =
        (collectMap rows).set c (insert d ((collectMap rows).getD c ∅)) := by
      rw [collectMap, List.foldl_append]
      rfl
    rw [hstep, Dict.getD_set, List.mem_append, List.mem_singleton, Prod.mk.injEq]
    by_cases hac : a = c
    · subst hac
      rw [if_pos rfl, Finset.mem_insert, ih]
      simp [or_comm]
    · rw [if_neg hac, ih]
      simp [hac]

variable {db : Db}

namespace Db

/-- A link between groups of the inventory. -/
def Parent (db : Db) (inventory child parent : ℕ) : Prop :=
  (child, parent) ∈ db.parents ∧ db.groups.get? child = some inventory ∧
    db.groups.get? parent = some inventory

/-- A membership of a host of the inventory in a group of the inventory. -/
def Member (db : Db) (inventory group host : ℕ) : Prop :=
  (group, host) ∈ db.members ∧ db.groups.get? group = some inventory ∧ db.hosts.get? host = some inventory

theorem mem_getGroupParentsMap {inventory child parent : ℕ} :
    parent ∈ (db.getGroupParentsMap inventory).getD child ∅ ↔ db.Parent inventory child parent := by
  rw [getGroupParentsMap, mem_collectMap, parentRows, List.mem_filter, decide_eq_true_eq]
  rfl

theorem mem_getGroupChildrenMap {inventory child parent : ℕ} :
    child ∈ (db.getGroupChildrenMap inventory).getD parent ∅ ↔ db.Parent inventory child parent := by
  rw [getGroupChildrenMap, mem_collectMap]
  have hswap : (parent, child) ∈ (db.parentRows inventory).map Prod.swap ↔
      (child, parent) ∈ db.parentRows inventory :=
    List.mem_map_of_injective (a := (child, parent)) Prod.swap_injective
  rw [hswap, parentRows, List.mem_filter, decide_eq_true_eq]
  rfl

theorem mem_getGroupHostsMap {inventory group host : ℕ} :
    host ∈ (db.getGroupHostsMap inventory).getD group ∅ ↔ db.Member inventory group host := by
  rw [getGroupHostsMap, mem_collectMap, List.mem_filter, decide_eq_true_eq]
  rfl

theorem mem_groupsIn {pks : Finset ℕ} (h : ∀ x ∈ pks, x ∈ db.groups.keys) {x : ℕ} :
    x ∈ db.groupsIn pks ↔ x ∈ pks := by
  rw [groupsIn, List.mem_filter, decide_eq_true_eq]
  exact and_iff_right_of_imp (h x)

theorem mem_hostsIn {pks : Finset ℕ} (h : ∀ x ∈ pks, x ∈ db.hosts.keys) {x : ℕ} :
    x ∈ db.hostsIn pks ↔ x ∈ pks := by
  rw [hostsIn, List.mem_filter, decide_eq_true_eq]
  exact and_iff_right_of_imp (h x)

end Db

/-! ### The walks are exact -/

/-- The groups bound the walks along links between groups. -/
theorem reach_subset (g : Group db) {R : ℕ → ℕ → Prop} (hR : ∀ a b, R a b → b ∈ db.groups.keys) {x : ℕ}
    (h : ReflTransGen R g.pk x) : x ∈ db.groups.keys.toFinset := by
  rw [List.mem_toFinset]
  cases h with
  | refl => exact Dict.mem_keys_of_get? g.stored
  | tail _ hstep => exact hR _ _ hstep

theorem exists_next_iff {R : ℕ → ℕ → Prop} {a y : ℕ} :
    (∃ x, ReflTransGen R a x ∧ R x y) ↔ TransGen R a y :=
  ⟨fun ⟨_, hx, hy⟩ => .tail' hx hy, fun h => TransGen.tail'_iff.mp h⟩

theorem card_keys_le (db : Db) : db.groups.keys.toFinset.card ≤ db.groups.keys.length :=
  List.toFinset_card_le _

/-- A walk that collects where it goes finds what is reached by at least one link. -/
theorem walk_closure (order : SetOrder ℕ) (g : Group db) {map : ℕ → Finset ℕ} {R : ℕ → ℕ → Prop}
    (hmap : ∀ a b, b ∈ map a ↔ R a b) (hR : ∀ a b, R a b → b ∈ db.groups.keys) :
    ∃ found, (∀ fuel, db.groups.keys.length ≤ fuel →
        (walk order map map fuel g.pk).map db.groupsIn = some found) ∧
      found.Nodup ∧ ∀ x, x ∈ found ↔ TransGen R g.pk x := by
  have hnext : Next map = R := by
    funext a b
    exact propext (hmap a b)
  have hbound : ∀ x, ReflTransGen (Next map) g.pk x → x ∈ db.groups.keys.toFinset := fun x hx =>
    reach_subset g hR (hnext ▸ hx)
  obtain ⟨found, hwalk, hfound⟩ := walk_spec order map hbound
  rw [hnext] at hfound
  have hiff : ∀ x, x ∈ found ↔ TransGen R g.pk x := by
    intro x
    rw [hfound, ← exists_next_iff]
    exact exists_congr fun y => and_congr_right fun _ => hmap y x
  refine ⟨db.groupsIn found, fun fuel hfuel => ?_, db.groups.nodup.filter _, fun x => ?_⟩
  · rw [hwalk fuel ((card_keys_le db).trans hfuel)]
    rfl
  · rw [Db.mem_groupsIn, hiff]
    intro y hy
    obtain ⟨z, -, hz⟩ := TransGen.tail'_iff.mp ((hiff y).mp hy)
    exact hR z y hz

theorem parents_exact (order : SetOrder ℕ) (g : Group db) : ∃ parents,
    (∀ fuel, db.groups.keys.length ≤ fuel → g.getAllParents order fuel = some parents) ∧
      parents.Nodup ∧ ∀ x, x ∈ parents ↔ TransGen (db.Parent g.inventory) g.pk x :=
  walk_closure order g (fun _ _ => Db.mem_getGroupParentsMap)
    fun _ _ h => Dict.mem_keys_of_get? h.2.2

theorem children_exact (order : SetOrder ℕ) (g : Group db) : ∃ children,
    (∀ fuel, db.groups.keys.length ≤ fuel → g.getAllChildren order fuel = some children) ∧
      children.Nodup ∧ ∀ x, x ∈ children ↔ TransGen (db.Parent g.inventory) x g.pk := by
  obtain ⟨children, hrun, hnodup, hmem⟩ := walk_closure order g
    (fun a b => (Db.mem_getGroupChildrenMap : b ∈ (db.getGroupChildrenMap g.inventory).getD a ∅ ↔ _))
    fun _ _ h => Dict.mem_keys_of_get? h.2.1
  refine ⟨children, hrun, hnodup, fun x => ?_⟩
  rw [hmem, transGen_swap]

theorem hosts_exact (order : SetOrder ℕ) (g : Group db) : ∃ hosts,
    (∀ fuel, db.groups.keys.length ≤ fuel → g.getAllHosts order fuel = some hosts) ∧
      hosts.Nodup ∧ ∀ h, h ∈ hosts ↔
        ∃ x, (x = g.pk ∨ TransGen (db.Parent g.inventory) x g.pk) ∧ db.Member g.inventory x h := by
  have hnext : Next (fun k => (db.getGroupChildrenMap g.inventory).getD k ∅) =
      Function.swap (db.Parent g.inventory) := by
    funext a b
    exact propext Db.mem_getGroupChildrenMap
  obtain ⟨found, hwalk, hfound⟩ := walk_spec order (fun k => (db.getGroupHostsMap g.inventory).getD k ∅)
    fun x hx => reach_subset g (fun _ _ h => Dict.mem_keys_of_get? h.2.1) (hnext ▸ hx)
  have hiff : ∀ h, h ∈ found ↔
      ∃ x, (x = g.pk ∨ TransGen (db.Parent g.inventory) x g.pk) ∧ db.Member g.inventory x h := by
    intro h
    rw [hfound, hnext]
    refine exists_congr fun x => and_congr ?_ Db.mem_getGroupHostsMap
    rw [reflTransGen_iff_eq_or_transGen, transGen_swap]
  refine ⟨db.hostsIn found, fun fuel hfuel => ?_, db.hosts.nodup.filter _, fun h => ?_⟩
  · rw [Group.getAllHosts, hwalk fuel ((card_keys_le db).trans hfuel)]
    rfl
  · rw [Db.mem_hostsIn, hiff]
    intro y hy
    obtain ⟨x, -, hmember⟩ := (hiff y).mp hy
    exact Dict.mem_keys_of_get? hmember.2.2

/-- The walks end, and find exactly the groups that links lead to and the hosts of the group and of those. -/
theorem closures_exact (order : SetOrder ℕ) (g : Group db) : ∃ parents children hosts,
    (∀ fuel, db.groups.keys.length ≤ fuel → g.getAllParents order fuel = some parents ∧
      g.getAllChildren order fuel = some children ∧ g.getAllHosts order fuel = some hosts) ∧
    (parents.Nodup ∧ ∀ x, x ∈ parents ↔ TransGen (db.Parent g.inventory) g.pk x) ∧
    (children.Nodup ∧ ∀ x, x ∈ children ↔ TransGen (db.Parent g.inventory) x g.pk) ∧
    (hosts.Nodup ∧ ∀ h, h ∈ hosts ↔
      ∃ x, (x = g.pk ∨ TransGen (db.Parent g.inventory) x g.pk) ∧ db.Member g.inventory x h) ∧
    (g.pk ∈ parents ∨ g.pk ∈ children → TransGen (db.Parent g.inventory) g.pk g.pk) := by
  obtain ⟨parents, hparents, hparents'⟩ := parents_exact order g
  obtain ⟨children, hchildren, hchildren'⟩ := children_exact order g
  obtain ⟨hosts, hhosts, hhosts'⟩ := hosts_exact order g
  refine ⟨parents, children, hosts, fun fuel hfuel => ⟨hparents fuel hfuel, hchildren fuel hfuel,
    hhosts fuel hfuel⟩, hparents', hchildren', hhosts', ?_⟩
  rintro (h | h)
  · exact (hparents'.2 _).mp h
  · exact (hchildren'.2 _).mp h

end Forail.GroupClosure
