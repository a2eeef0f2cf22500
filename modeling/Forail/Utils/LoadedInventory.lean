import Forail.Utils.InventoryLoading
import Mathlib.Data.List.Nodup

/-! What holds of every inventory that was loaded: the groups refer to its own hosts and groups, each
group is below another, and `_meta` is at most the name of an empty child. -/

namespace Forail.InventoryData

open Relation

structure Loaded (inv : MemInventory) : Prop where
  groupNames : ∀ name ∈ inv.allGroups.keys, name ≠ allName ∧ name ≠ ungrouped ∧ name ≠ []
  hostNames : ∀ host ∈ inv.allHosts.keys, host ≠ [] ∧ ':' ∉ host
  hosts : ∀ name, (inv.group name).hosts.Nodup ∧
    ∀ host ∈ (inv.group name).hosts, host ∈ inv.allHosts.keys
  children : ∀ name, (inv.group name).children.Nodup ∧
    ∀ child ∈ (inv.group name).children, child ∈ inv.allGroups.keys
  linked : ∀ name ∈ inv.allGroups.keys, ∃ parent, inv.Knows parent ∧
    name ∈ (inv.group parent).children
  noMeta : inv.group metaName = .empty

variable {u : UnicodeData} {filters : Filters} {data : Data} {inv inv' : MemInventory}
  {name host group child : Str}

theorem nodup_appendNew {names : List Str} (h : names.Nodup) : (appendNew names name).Nodup := by
  unfold appendNew
  split_ifs with hmem
  · exact h
  · exact List.nodup_append.mpr ⟨h, List.nodup_singleton name, fun x hx y hy heq => by
      rw [List.mem_singleton.mp hy] at heq
      exact hmem (heq ▸ hx)⟩

theorem group_of_not_knows (h : ¬ inv.Knows name) : inv.group name = .empty := by
  obtain ⟨hall, hknown⟩ := not_or.mp h
  rw [MemInventory.group, if_neg hall, Dict.getD, Dict.get?_eq_none_of_not_mem _ hknown]
  rfl

/-- A group that is created is as empty as it was. -/
theorem group_setGroup_empty (h : ¬ inv.Knows group) :
    (inv.setGroup group .empty).group name = inv.group name := by
  rw [MemInventory.group_setGroup]
  split_ifs with hname
  · rw [hname, group_of_not_knows h]
  · rfl

theorem not_hasPort (h : ':' ∉ name) : ¬ HasPort u name := by
  refine not_or.mpr ⟨fun hsome => ?_, ?_⟩
  · obtain ⟨found, hfound⟩ := Option.isSome_iff_exists.mp hsome
    unfold ipv6PortRe at hfound
    split at hfound
    · rename_i rest
      split at hfound
      · rename_i port hdrop
        refine h (List.mem_cons_of_mem _ ((List.dropWhile_suffix isAddressChar).mem ?_))
        rw [hdrop]
        exact List.mem_cons_of_mem _ List.mem_cons_self
      · cases hfound
    · cases hfound
  · rw [List.count_eq_zero_of_not_mem h]
    exact Nat.zero_ne_one

theorem hostName_of_no_colon (h : ':' ∉ name) : hostName u name = name :=
  hostName_of_not_hasPort (not_hasPort h)

theorem loaded_empty : Loaded .empty where
  groupNames name h := by cases h
  hostNames host h := by cases h
  hosts name := by
    rw [MemInventory.group_empty]
    exact ⟨List.nodup_nil, nofun⟩
  children name := by
    rw [MemInventory.group_empty]
    exact ⟨List.nodup_nil, nofun⟩
  linked name h := by cases h
  noMeta := rfl

theorem keys_setGroup (h : inv.Knows group) (g : MemGroup) :
    (inv.setGroup group g).allGroups.keys = inv.allGroups.keys := by
  unfold MemInventory.setGroup
  split_ifs with hall
  · rfl
  · exact (Dict.keys_set _ _ _).trans (if_pos (h.resolve_left hall))

/-- Hosts and variables are added to a group. -/
theorem Loaded.fill (h : Loaded inv) (hknows : inv.Knows group) (hmeta : group ≠ metaName)
    {g : MemGroup} (hchildren : g.children = (inv.group group).children)
    (hhosts : g.hosts.Nodup ∧ ∀ host ∈ g.hosts, host ∈ inv.allHosts.keys) :
    Loaded (inv.setGroup group g) where
  groupNames name hname := h.groupNames name ((keys_setGroup hknows g) ▸ hname)
  hostNames host hhost := h.hostNames host (by rwa [MemInventory.allHosts_setGroup] at hhost)
  hosts name := by
    rw [MemInventory.group_setGroup, MemInventory.allHosts_setGroup]
    split_ifs
    · exact hhosts
    · exact h.hosts name
  children name := by
    rw [MemInventory.group_setGroup, keys_setGroup hknows]
    split_ifs
    · rw [hchildren]
      exact h.children group
    · exact h.children name
  linked name hname := by
    rw [keys_setGroup hknows] at hname
    obtain ⟨parent, hparent, hlink⟩ := h.linked name hname
    refine ⟨parent, (MemInventory.knows_setGroup g).mpr (.inr hparent), ?_⟩
    rw [MemInventory.group_setGroup]
    split_ifs with heq
    · rw [hchildren, ← heq]
      exact hlink
    · exact hlink
  noMeta := by
    rw [MemInventory.group_setGroup, if_neg fun heq => hmeta heq.symm]
    exact h.noMeta

/-- A group is put below another one. -/
theorem Loaded.linkChild (h : Loaded inv) (hknows : inv.Knows group) (hmeta : group ≠ metaName)
    (hchild : child ≠ allName ∧ child ≠ ungrouped ∧ child ≠ [])
    (hkeys : ∀ name, name ∈ inv'.allGroups.keys ↔ name ∈ inv.allGroups.keys ∨ name = child)
    (hgroup : ∀ name, inv'.group name = if name = group then
      { inv.group group with children := appendNew (inv.group group).children child }
      else inv.group name)
    (hallHosts : inv'.allHosts = inv.allHosts) : Loaded inv' where
  groupNames name hname := by
    rcases (hkeys name).mp hname with hname | rfl
    · exact h.groupNames name hname
    · exact hchild
  hostNames host hhost := h.hostNames host (hallHosts ▸ hhost)
  hosts name := by
    rw [hgroup, hallHosts]
    split_ifs
    · exact h.hosts group
    · exact h.hosts name
  children name := by
    rw [hgroup]
    split_ifs
    · refine ⟨nodup_appendNew (h.children group).1, fun c hc => (hkeys c).mpr ?_⟩
      exact (mem_appendNew.mp hc).imp_left ((h.children group).2 c)
    · exact ⟨(h.children name).1, fun c hc => (hkeys c).mpr (.inl ((h.children name).2 c hc))⟩
  linked name hname := by
    have hknows' : ∀ {n : Str}, inv.Knows n → inv'.Knows n := fun hn =>
      hn.imp_right fun hkey => (hkeys _).mpr (.inl hkey)
    rcases (hkeys name).mp hname with hname | rfl
    · obtain ⟨parent, hparent, hlink⟩ := h.linked name hname
      refine ⟨parent, hknows' hparent, ?_⟩
      rw [hgroup]
      split_ifs with heq
      · exact mem_appendNew.mpr (.inl (heq ▸ hlink))
      · exact hlink
    · refine ⟨group, hknows' hknows, ?_⟩
      rw [hgroup, if_pos rfl]
      exact mem_appendNew.mpr (.inr rfl)
  noMeta := by
    rw [hgroup, if_neg fun heq => hmeta heq.symm]
    exact h.noMeta

/-- The hosts change. -/
theorem Loaded.withHosts (h : Loaded inv) {allHosts : Dict Str Vars}
    (hkeep : ∀ host ∈ inv.allHosts.keys, host ∈ allHosts.keys)
    (hnames : ∀ host ∈ allHosts.keys, host ∈ inv.allHosts.keys ∨ host ≠ [] ∧ ':' ∉ host) :
    Loaded { inv with allHosts := allHosts } where
  groupNames := h.groupNames
  hostNames host hhost := (hnames host hhost).elim (h.hostNames host) id
  hosts name := ⟨(h.hosts name).1, fun host hhost => hkeep host ((h.hosts name).2 host hhost)⟩
  children := h.children
  linked := h.linked
  noMeta := h.noMeta

/-- No host name of the data has a colon, and `_meta` is no group. -/
structure Data.Plain (data : Data) : Prop where
  colon : ∀ k v e, data.get? k = some v → e ∈ v.hosts → ':' ∉ e.1
  noMeta : data.get? metaName = none

theorem Data.Plain.target_ne (hdata : data.Plain) {k : Str} {v : Entry} (hv : data.get? k = some v) :
    target k ≠ metaName := by
  unfold target
  split_ifs
  · decide
  · rintro rfl
    rw [hdata.noMeta] at hv
    cases hv

theorem Data.Plain.below_ne (hdata : data.Plain) (hbelow : data.Below group child) :
    group ≠ metaName := by
  rcases hbelow with ⟨rfl, -⟩ | ⟨k, v, rfl, hv, -⟩
  · decide
  · exact hdata.target_ne hv

theorem LoadStep.loaded (hdata : data.Plain) (hstep : LoadStep u data inv inv') (h : Loaded inv) :
    Loaded inv' := by
  cases hstep with
  | newHost hv he hnew hname =>
    refine h.withHosts (fun host hhost => ?_) fun host hhost => ?_
    · rw [Dict.keys_set, if_neg hnew]
      exact List.mem_append_left _ hhost
    · rw [Dict.keys_set, if_neg hnew] at hhost
      refine (List.mem_append.mp hhost).imp_right fun hlast => ?_
      rw [List.mem_singleton.mp hlast, hostName_of_no_colon (hdata.colon _ _ _ hv he)]
      rw [hostName_of_no_colon (hdata.colon _ _ _ hv he)] at hname
      exact ⟨hname, hdata.colon _ _ _ hv he⟩
  | @addHost k v e hv he hknows hhost =>
    have hkeys : (inv.updateHost (hostName u e.1) (e.2.getD .empty)).allHosts.keys =
        inv.allHosts.keys := (Dict.keys_set _ _ _).trans (if_pos hhost)
    have hupdate : Loaded (inv.updateHost (hostName u e.1) (e.2.getD .empty)) :=
      h.withHosts (fun host hhost => hkeys.symm ▸ hhost) fun host hhost => .inl (hkeys ▸ hhost)
    refine hupdate.fill hknows (hdata.target_ne hv) rfl ⟨nodup_appendNew (h.hosts _).1, ?_⟩
    intro host' hmem
    rw [hkeys]
    rcases mem_appendNew.mp hmem with hmem | rfl
    · exact (h.hosts _).2 host' hmem
    · exact hhost
  | addVars hv hknows => exact h.fill hknows (hdata.target_ne hv) rfl (h.hosts _)
  | @newGroup parent name hbelow hknows hnew hname hall hungrouped =>
    have hknown : ¬ inv.Knows name := not_or.mpr ⟨hall, hnew⟩
    have hknows' : (inv.setGroup name .empty).Knows parent :=
      (MemInventory.knows_setGroup _).mpr (.inr hknows)
    refine h.linkChild hknows (hdata.below_ne hbelow) ⟨hall, hungrouped, hname⟩ (fun n => ?_)
      (fun n => ?_) ?_
    · rw [MemInventory.linkChild, keys_setGroup hknows', MemInventory.setGroup, if_neg hall,
        Dict.keys_set, if_neg hnew, List.mem_append, List.mem_singleton]
    · rw [MemInventory.linkChild, MemInventory.group_setGroup, group_setGroup_empty hknown,
        group_setGroup_empty hknown]
    · rw [MemInventory.linkChild, MemInventory.allHosts_setGroup, MemInventory.allHosts_setGroup]
  | @link parent name hbelow hknows hkey =>
    refine h.linkChild hknows (hdata.below_ne hbelow) (h.groupNames name hkey) (fun n => ?_)
      (fun n => MemInventory.group_setGroup _) (MemInventory.allHosts_setGroup _)
    rw [MemInventory.linkChild, keys_setGroup hknows]
    exact ⟨.inl, fun hn => hn.elim id fun heq => heq ▸ hkey⟩

theorem LoadSteps.loaded (hdata : data.Plain) (h : LoadSteps u data .empty inv) : Loaded inv := by
  induction h with
  | refl => exact loaded_empty
  | tail _ hstep ih => exact hstep.loaded hdata ih

/-- Every inventory loaded from data without colons in the names of hosts. -/
theorem loaded_of_dictToMemData
    (hcolon : ∀ k v e, data.groups.get? k = some v → e ∈ v.hosts → ':' ∉ e.1)
    (h : dictToMemData u filters data = .ok inv) : Loaded inv := by
  obtain ⟨inv₁, hgroups, hmeta⟩ := dictToMemData_eq_ok h
  have hplain : data.groups.Plain := ⟨hcolon, (Dict.get?_erase _ _ _).trans (if_pos rfl)⟩
  have hloaded := (foldlM_loadGroup_steps hgroups).loaded hplain
  obtain ⟨hall, hallGroups, hkeys⟩ := loadMeta_groups hmeta
  have hwith : Loaded { inv₁ with allHosts := inv.allHosts } :=
    hloaded.withHosts (fun host hhost => hkeys.symm ▸ hhost) fun host hhost => .inl (hkeys ▸ hhost)
  rw [← hall, ← hallGroups] at hwith
  exact hwith

end Forail.InventoryData
