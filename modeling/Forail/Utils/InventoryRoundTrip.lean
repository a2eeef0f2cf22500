import Forail.Utils.LoadedInventory

/-! An inventory that is converted to a dictionary and loaded again. -/

namespace Forail.InventoryData

open ExceptFold

variable {u : UnicodeData} {inv : MemInventory} {name host group child : Str}

/-! ### Loading that does not fail -/

/-- An entry as the conversion writes it: hosts without variables and ports, and no names that are
refused. -/
structure Entry.Written (v : Entry) : Prop where
  hosts : ∀ e ∈ v.hosts, e.2 = none ∧ e.1 ≠ [] ∧ ':' ∉ e.1
  children : ∀ c ∈ v.children, c ≠ allName ∧ c ≠ []

def addHostName (group : Str) (inv : MemInventory) (e : Str × Option Vars) : MemInventory :=
  let inv := if e.1 ∈ inv.allHosts.keys then inv
    else { inv with allHosts := inv.allHosts.set e.1 .empty }
  (inv.updateHost e.1 .empty).addHost group e.1

def addGroup (inv : MemInventory) (name : Str) : MemInventory :=
  if name ∈ inv.allGroups.keys then inv else inv.setGroup name .empty

def addChild (group : Str) (inv : MemInventory) (name : Str) : MemInventory :=
  if name = ungrouped then inv else (addGroup inv name).linkChild group name

/-- What `loadGroup` does where nothing is filtered or refused; that a new group is put below `all`
before and after makes no difference. -/
def addEntry (inv : MemInventory) (e : Str × Entry) : MemInventory :=
  let start := if e.1 = allName ∨ e.1 = ungrouped then inv
    else if e.1 ∈ inv.allGroups.keys then inv
    else (inv.setGroup e.1 .empty).linkChild allName e.1
  let filled := (e.2.hosts.foldl (addHostName (target e.1)) start).updateGroup (target e.1) e.2.vars
  let linked := e.2.children.foldl (addChild (target e.1)) filled
  if e.1 = allName ∨ e.1 = ungrouped then linked else linked.linkChild allName e.1

theorem hostPort_of_no_colon (h : ':' ∉ name) : hostPort u name = .ok none := by
  obtain ⟨haddress, hcolon⟩ := not_or.mp (not_hasPort (u := u) h)
  rw [hostPort, Option.not_isSome_iff_eq_none.mp haddress]
  exact if_neg hcolon

theorem getHost_written (hname : name ≠ []) (hcolon : ':' ∉ name) :
    getHost u .none inv name = .ok (some name, if name ∈ inv.allHosts.keys then inv
      else { inv with allHosts := inv.allHosts.set name .empty }) := by
  have hkeeps : Filters.none.keepsHost name = true := rfl
  rw [getHost, hostPort_of_no_colon hcolon, hostName_of_no_colon hcolon]
  dsimp only [bind, Except.bind]
  rw [if_neg (not_not.mpr hkeeps)]
  by_cases hknown : name ∈ inv.allHosts.keys
  · rw [if_pos hknown, if_pos hknown]
    rfl
  · rw [if_neg hknown, if_neg hknown, if_neg hname]
    rfl

theorem loadHost_written {e : Str × Option Vars} (h : e.2 = none ∧ e.1 ≠ [] ∧ ':' ∉ e.1) :
    loadHost u .none group inv e = .ok (addHostName group inv e) := by
  rw [loadHost, getHost_written h.2.1 h.2.2, h.1]
  rfl

theorem getGroup_written (c : Bool) (hall : name ≠ allName) (hungrouped : name ≠ ungrouped)
    (hname : name ≠ []) : getGroup .none c inv name = .ok (some name,
      if name ∈ inv.allGroups.keys then inv
      else if c = true then inv.setGroup name .empty
      else (inv.setGroup name .empty).linkChild allName name) := by
  have hkeeps : Filters.none.keepsGroup name = true := rfl
  rw [getGroup, if_neg (not_or.mpr ⟨hall, hungrouped⟩), if_neg (not_not.mpr hkeeps), if_neg hname]
  dsimp only
  rw [MemInventory.addChildGroup, if_neg hall]
  split_ifs <;> rfl

theorem loadChild_written (hall : child ≠ allName) (hname : child ≠ []) :
    loadChild .none group inv child = .ok (addChild group inv child) := by
  rw [loadChild, addChild]
  by_cases hungrouped : child = ungrouped
  · rw [getGroup, if_pos (.inr hungrouped), if_pos hungrouped]
    exact if_pos hungrouped
  · rw [getGroup_written true hall hungrouped hname, if_neg hungrouped]
    change (if child = ungrouped then _ else _) = _
    rw [if_neg hungrouped, MemInventory.addChildGroup, if_neg hall]
    rfl

theorem loadGroup_written {e : Str × Entry} (hname : e.1 ≠ []) (h : e.2.Written) :
    loadGroup u .none inv e = .ok (addEntry inv e) := by
  have hfill : ∀ start, e.2.hosts.foldlM (loadHost u .none (target e.1)) start =
      .ok (e.2.hosts.foldl (addHostName (target e.1)) start) :=
    foldlM_ok fun s e' he' => loadHost_written (h.hosts e' he')
  have hlink : ∀ filled, e.2.children.foldlM (loadChild .none (target e.1)) filled =
      .ok (e.2.children.foldl (addChild (target e.1)) filled) :=
    foldlM_ok fun s c hc => loadChild_written (h.children c hc).1 (h.children c hc).2
  have hget : getGroup .none false inv e.1 = .ok (some (target e.1),
      if e.1 = allName ∨ e.1 = ungrouped then inv else if e.1 ∈ inv.allGroups.keys then inv
      else (inv.setGroup e.1 .empty).linkChild allName e.1) := by
    by_cases hall : e.1 = allName ∨ e.1 = ungrouped
    · have htarget : target e.1 = allName := by
        unfold target
        rcases hall with heq | heq
        · rw [heq]
          exact ite_self _
        · exact if_pos heq
      rw [getGroup, if_pos hall, if_pos hall, htarget]
      rfl
    · rw [getGroup_written false (not_or.mp hall).1 (not_or.mp hall).2 hname, if_neg hall,
        if_neg Bool.false_ne_true, target, if_neg (not_or.mp hall).2]
  rw [loadGroup, hget]
  change (e.2.hosts.foldlM (loadHost u .none (target e.1)) _ >>= _) = _
  rw [hfill]
  change (e.2.children.foldlM (loadChild .none (target e.1)) _ >>= _) = _
  rw [hlink]
  rw [addEntry]
  by_cases hall : e.1 = allName ∨ e.1 = ungrouped
  · rw [if_pos hall, if_pos hall]
    exact if_pos hall
  · have htarget : target e.1 = e.1 := if_neg (not_or.mp hall).2
    rw [if_neg hall, if_neg hall, htarget]
    refine Eq.trans (if_neg hall) ?_
    rw [MemInventory.addChildGroup, if_neg (not_or.mp hall).1]

/-! ### What is loaded -/

/-- A group with what the entry adds. -/
def MemGroup.fill (g : MemGroup) (v : Entry) : MemGroup where
  hosts := v.hosts.foldl (fun names e => appendNew names e.1) g.hosts
  vars := g.vars.update v.vars.entries
  children := v.children.foldl (fun names c => if c = ungrouped then names else appendNew names c)
    g.children

theorem group_addHostName (e : Str × Option Vars) : (addHostName group inv e).group name =
    if name = group then { inv.group group with hosts := appendNew (inv.group group).hosts e.1 }
    else inv.group name := by
  have hsame : ∀ n, ((if e.1 ∈ inv.allHosts.keys then inv
      else { inv with allHosts := inv.allHosts.set e.1 .empty }).updateHost e.1 .empty).group n =
        inv.group n := by
    intro n
    split_ifs <;> rfl
  rw [addHostName, MemInventory.addHost, MemInventory.group_setGroup, hsame, hsame]

theorem group_addHostNames (l : List (Str × Option Vars)) :
    (l.foldl (addHostName group) inv).group name = if name = group then
      { inv.group group with
        hosts := l.foldl (fun names e => appendNew names e.1) (inv.group group).hosts }
    else inv.group name := by
  induction l generalizing inv with
  | nil =>
    split_ifs with hname
    · rw [hname]
      rfl
    · rfl
  | cons e l ih =>
    rw [List.foldl_cons, ih, group_addHostName, if_pos rfl, group_addHostName]
    split_ifs <;> rfl

theorem group_addGroup (hall : child ≠ allName) : (addGroup inv child).group name = inv.group name := by
  unfold addGroup
  split_ifs with hknown
  · rfl
  · exact group_setGroup_empty (not_or.mpr ⟨hall, hknown⟩)

theorem group_addChild (hall : child ≠ allName) : (addChild group inv child).group name =
    if name = group then
      { inv.group group with
        children := if child = ungrouped then (inv.group group).children
          else appendNew (inv.group group).children child }
    else inv.group name := by
  unfold addChild
  by_cases hungrouped : child = ungrouped
  · rw [if_pos hungrouped, if_pos hungrouped]
    split_ifs with hname
    · rw [hname]
    · rfl
  · rw [if_neg hungrouped, if_neg hungrouped, MemInventory.linkChild, MemInventory.group_setGroup,
      group_addGroup hall, group_addGroup hall]

theorem group_addChildren (l : List Str) (hall : ∀ c ∈ l, c ≠ allName) :
    (l.foldl (addChild group) inv).group name = if name = group then
      { inv.group group with
        children := l.foldl (fun names c => if c = ungrouped then names else appendNew names c)
          (inv.group group).children }
    else inv.group name := by
  induction l generalizing inv with
  | nil =>
    split_ifs with hname
    · rw [hname]
      rfl
    · rfl
  | cons c l ih =>
    have hc := hall c List.mem_cons_self
    rw [List.foldl_cons, ih fun c hc => hall c (List.mem_cons_of_mem _ hc), group_addChild hc,
      if_pos rfl, group_addChild hc]
    by_cases hname : name = group
    · rw [if_pos hname, if_pos hname]
      rfl
    · rw [if_neg hname, if_neg hname, if_neg hname]

theorem group_linkAll : (name ≠ allName → (inv.linkChild allName child).group name = inv.group name) ∧
    ((inv.linkChild allName child).group name).vars = (inv.group name).vars := by
  rw [MemInventory.linkChild, MemInventory.group_setGroup]
  split_ifs with hname
  · rw [hname]
    exact ⟨fun hne => absurd rfl hne, rfl⟩
  · exact ⟨fun _ => rfl, rfl⟩

/-- The group of the entry is filled; `all` may have one child more. -/
theorem group_addEntry {e : Str × Entry} (h : e.2.Written) :
    (name ≠ allName → (addEntry inv e).group name =
      if name = target e.1 then (inv.group name).fill e.2 else inv.group name) ∧
    ((addEntry inv e).group name).vars =
      if name = target e.1 then (inv.group name).vars.update e.2.vars.entries
      else (inv.group name).vars := by
  have hfill : ∀ start : MemInventory,
      (e.2.children.foldl (addChild (target e.1))
        ((e.2.hosts.foldl (addHostName (target e.1)) start).updateGroup (target e.1) e.2.vars)).group
        name = if name = target e.1 then (start.group name).fill e.2 else start.group name := by
    intro start
    rw [group_addChildren _ fun c hc => (h.children c hc).1, MemInventory.updateGroup,
      MemInventory.group_setGroup, if_pos rfl, MemInventory.group_setGroup, group_addHostNames,
      group_addHostNames, if_pos rfl]
    split_ifs with hname
    · rw [hname]
      rfl
    · rfl
  have hfillVars : ∀ start : MemInventory,
      ((if name = target e.1 then (start.group name).fill e.2 else start.group name)).vars =
      if name = target e.1 then (start.group name).vars.update e.2.vars.entries
      else (start.group name).vars := fun start => apply_ite MemGroup.vars _ _ _
  unfold addEntry
  by_cases hall : e.1 = allName ∨ e.1 = ungrouped
  · rw [if_pos hall, if_pos hall, hfill]
    exact ⟨fun _ => rfl, hfillVars inv⟩
  · rw [if_neg hall, if_neg hall]
    have hstart : ∀ start : MemInventory, start = (if e.1 ∈ inv.allGroups.keys then inv
        else (inv.setGroup e.1 .empty).linkChild allName e.1) →
        (name ≠ allName → start.group name = inv.group name) ∧
          (start.group name).vars = (inv.group name).vars := by
      rintro start rfl
      split_ifs with hknown
      · exact ⟨fun _ => rfl, rfl⟩
      · have hempty : (inv.setGroup e.1 .empty).group name = inv.group name :=
          group_setGroup_empty (not_or.mpr ⟨(not_or.mp hall).1, hknown⟩)
        rw [group_linkAll.2, hempty]
        exact ⟨fun hne => (group_linkAll.1 hne).trans hempty, rfl⟩
    obtain ⟨hgroup, hvars⟩ := hstart _ rfl
    constructor
    · intro hne
      rw [group_linkAll.1 hne, hfill, hgroup hne]
    · rw [group_linkAll.2, hfill, hfillVars, hvars]

/-! ### The converted dictionary -/

@[simp] theorem hosts_groupData (g : MemGroup) :
    (Entry.dict (groupData g)).hosts = g.hosts.map (·, none) := by
  simp only [Entry.hosts, groupData]
  split_ifs with hempty
  · rw [hempty]
    rfl
  · rfl

@[simp] theorem vars_groupData (g : MemGroup) : (Entry.dict (groupData g)).vars = g.vars := by
  simp only [Entry.vars, groupData]
  split_ifs with hempty
  · rw [Dict.eq_empty hempty]
    rfl
  · rfl

@[simp] theorem children_groupData (g : MemGroup) :
    (Entry.dict (groupData g)).children = g.children := by
  simp only [Entry.children, groupData]
  split_ifs with hempty
  · rw [hempty]
    rfl
  · rfl

theorem vars_allData : (Entry.dict (allData inv)).vars = inv.allGroup.vars := by
  simp only [Entry.vars, allData]
  split_ifs with hempty
  · rw [Dict.eq_empty hempty]
    rfl
  · rfl

theorem hosts_ungroupedData (order : SetOrder) :
    (Entry.dict (ungroupedData order inv)).hosts = (ungroupedHosts order inv).map (·, none) := by
  simp only [Entry.hosts, ungroupedData]
  split_ifs with hempty
  · rw [hempty]
    rfl
  · rfl

theorem mem_ungroupedHosts (order : SetOrder) : host ∈ ungroupedHosts order inv ↔
    host ∈ inv.allHosts.keys ∧ ∀ e ∈ inv.allGroups.entries, host ∉ e.2.hosts := by
  rw [ungroupedHosts, order.mem_toList, List.mem_filter, decide_eq_true_iff]

/-- A group that is filled with its own data is as it was. -/
theorem fill_groupData {g : MemGroup} (hhosts : g.hosts.Nodup) (hchildren : g.children.Nodup)
    (hungrouped : ungrouped ∉ g.children) : MemGroup.empty.fill (.dict (groupData g)) = g := by
  have hnames : ∀ (l names : List Str), (names ++ l).Nodup → l.foldl appendNew names = names ++ l := by
    intro l
    induction l with
    | nil => exact fun names _ => (List.append_nil names).symm
    | cons name l ih =>
      intro names hnodup
      have hnew : name ∉ names := fun hmem =>
        (List.nodup_append.mp hnodup).2.2 name hmem name List.mem_cons_self rfl
      rw [List.foldl_cons, appendNew, if_neg hnew, ih, List.append_assoc]
      · rfl
      · rw [List.append_assoc]
        exact hnodup
  have hlinked : ∀ (l names : List Str), ungrouped ∉ l →
      l.foldl (fun names c => if c = ungrouped then names else appendNew names c) names =
        l.foldl appendNew names := by
    intro l
    induction l with
    | nil => exact fun names _ => rfl
    | cons name l ih =>
      intro names hnot
      rw [List.mem_cons, not_or] at hnot
      rw [List.foldl_cons, List.foldl_cons, if_neg fun heq => hnot.1 heq.symm, ih _ hnot.2]
  obtain ⟨children, hosts, vars⟩ := g
  rw [MemGroup.fill, hosts_groupData, vars_groupData, children_groupData, List.foldl_map,
    hlinked _ _ hungrouped]
  simp only [MemGroup.empty, hnames hosts [] hhosts, hnames children [] hchildren, List.nil_append,
    Dict.update_empty]

/-- The groups and the hosts that are loaded again, before `_meta` is read. -/
abbrev reloaded (order : SetOrder) (inv : MemInventory) : MemInventory :=
  (memDataToDict order inv).groups.entries.foldl addEntry .empty

section Converted
variable (order : SetOrder) (h : Loaded inv)
include h

theorem get?_memDataToDict : (memDataToDict order inv).get? name =
    if name = ungrouped then some (.dict (ungroupedData order inv))
    else if name = allName then some (.dict (allData inv))
    else if name ∈ inv.allGroups.keys then some (.dict (groupData (inv.group name)))
    else if name = metaName then some (.dict (metaData inv)) else none := by
  rw [memDataToDict, Dict.get?_set]
  refine if_congr Iff.rfl rfl ?_
  rw [Dict.get?_update, Dict.get?_mapValues, Dict.get?_set, Dict.get?_set, Dict.get?_empty]
  by_cases hall : name = allName
  · have hnot : name ∉ inv.allGroups.keys := fun hname => (h.groupNames name hname).1 hall
    rw [if_pos hall, if_pos hall, Dict.get?_eq_none_of_not_mem _ hnot]
    rfl
  · rw [if_neg hall, if_neg hall]
    by_cases hname : name ∈ inv.allGroups.keys
    · obtain ⟨g, hg⟩ := Dict.get?_of_mem_keys hname
      rw [if_pos hname, MemInventory.group, if_neg hall, Dict.getD, hg]
      rfl
    · rw [if_neg hname, Dict.get?_eq_none_of_not_mem _ hname]
      rfl

theorem get?_groups (hmeta : name ≠ metaName) :
    (memDataToDict order inv).groups.get? name = if name = ungrouped then
      some (.dict (ungroupedData order inv))
    else if name = allName then some (.dict (allData inv))
    else if name ∈ inv.allGroups.keys then some (.dict (groupData (inv.group name))) else none := by
  rw [Data.groups, Dict.get?_erase, if_neg hmeta, get?_memDataToDict order h, if_neg hmeta]

theorem groups_cases {v : Entry} (hv : (memDataToDict order inv).groups.get? name = some v) :
    name = ungrouped ∧ v = .dict (ungroupedData order inv) ∨
      name = allName ∧ v = .dict (allData inv) ∨
      name ∈ inv.allGroups.keys ∧ v = .dict (groupData (inv.group name)) := by
  have hmeta : name ≠ metaName := by
    rintro rfl
    rw [Data.groups, Dict.get?_erase, if_pos rfl] at hv
    cases hv
  rw [get?_groups order h hmeta] at hv
  split_ifs at hv with hungrouped hall hname
  · exact .inl ⟨hungrouped, (Option.some.inj hv).symm⟩
  · exact .inr (.inl ⟨hall, (Option.some.inj hv).symm⟩)
  · exact .inr (.inr ⟨hname, (Option.some.inj hv).symm⟩)

theorem hosts_of_groups {v : Entry} (hv : (memDataToDict order inv).groups.get? name = some v) :
    ∀ e ∈ v.hosts, e.2 = none ∧ e.1 ∈ inv.allHosts.keys := by
  have hhosts : ∀ names : List Str, (∀ n ∈ names, n ∈ inv.allHosts.keys) →
      ∀ e ∈ names.map (fun n => (n, (none : Option Vars))), e.2 = none ∧ e.1 ∈ inv.allHosts.keys := by
    intro names hnames e he
    obtain ⟨n, hn, rfl⟩ := List.mem_map.mp he
    exact ⟨rfl, hnames n hn⟩
  rcases groups_cases order h hv with ⟨-, rfl⟩ | ⟨-, rfl⟩ | ⟨-, rfl⟩
  · rw [hosts_ungroupedData]
    exact hhosts _ fun n hn => ((mem_ungroupedHosts order).mp hn).1
  · exact nofun
  · rw [hosts_groupData]
    exact hhosts _ (h.hosts name).2

theorem children_of_groups {v : Entry} (hv : (memDataToDict order inv).groups.get? name = some v) :
    ∀ c ∈ v.children, c ∈ inv.allGroups.keys ∨ c = ungrouped := by
  rcases groups_cases order h hv with ⟨-, rfl⟩ | ⟨-, rfl⟩ | ⟨-, rfl⟩
  · exact nofun
  · intro c hc
    rcases List.mem_append.mp (show c ∈ inv.allGroup.children ++ [ungrouped] from hc) with hc | hc
    · exact .inl ((h.children allName).2 c hc)
    · exact .inr (List.mem_singleton.mp hc)
  · rw [children_groupData]
    exact fun c hc => .inl ((h.children name).2 c hc)

theorem written_of_groups {v : Entry} (hv : (memDataToDict order inv).groups.get? name = some v) :
    name ≠ [] ∧ v.Written := by
  refine ⟨?_, fun e he => ?_, fun c hc => ?_⟩
  · rcases groups_cases order h hv with ⟨rfl, -⟩ | ⟨rfl, -⟩ | ⟨hname, -⟩
    · decide
    · decide
    · exact (h.groupNames name hname).2.2
  · obtain ⟨hvars, hhost⟩ := hosts_of_groups order h hv e he
    exact ⟨hvars, h.hostNames _ hhost⟩
  · rcases children_of_groups order h hv c hc with hc | rfl
    · exact ⟨(h.groupNames c hc).1, (h.groupNames c hc).2.2⟩
    · decide

theorem foldlM_groups : (memDataToDict order inv).groups.entries.foldlM (loadGroup u .none) .empty =
    .ok (reloaded order inv) := by
  refine foldlM_ok (fun s e he => ?_) _
  obtain ⟨hname, hwritten⟩ := written_of_groups order h (Dict.get?_of_mem_entries he)
  exact loadGroup_written hname hwritten

theorem plain_groups : (memDataToDict order inv).groups.Plain where
  colon k v e hv he := ((written_of_groups order h hv).2.hosts e he).2.2
  noMeta := by rw [Data.groups, Dict.get?_erase, if_pos rfl]

theorem reloaded_steps :
    LoadSteps asciiData (memDataToDict order inv).groups .empty (reloaded order inv) :=
  foldlM_loadGroup_steps (foldlM_groups order h)

theorem reloaded_complete {v : Entry} (hv : (memDataToDict order inv).groups.get? name = some v) :
    Complete asciiData .none name v (reloaded order inv) :=
  complete_of_foldlM (foldlM_groups order h) hv (.inl rfl)

/-! ### The groups that are loaded again -/

theorem group_reloaded (hall : name ≠ allName) (hungrouped : name ≠ ungrouped) :
    (reloaded order inv).group name = inv.group name := by
  have hloop := Dict.foldl_entry (π := fun s : MemInventory => s.group name) (F := MemGroup.fill)
    (f := addEntry) (k := name) (d := (memDataToDict order inv).groups) (fun s v hv => ?_)
    (fun s e he hne => ?_) .empty
  · refine hloop.trans ?_
    rw [MemInventory.group_empty]
    by_cases hmeta : name = metaName
    · rw [hmeta, Data.groups, Dict.get?_erase, if_pos rfl, h.noMeta]
      rfl
    · rw [get?_groups order h hmeta, if_neg hungrouped, if_neg hall]
      by_cases hname : name ∈ inv.allGroups.keys
      · rw [if_pos hname]
        refine fill_groupData (h.hosts name).1 (h.children name).1 fun hmem => ?_
        exact (h.groupNames _ ((h.children name).2 _ hmem)).2.1 rfl
      · rw [if_neg hname, group_of_not_knows (not_or.mpr ⟨hall, hname⟩)]
        rfl
  · have hwritten := (written_of_groups order h hv).2
    exact ((group_addEntry hwritten).1 hall).trans (if_pos (if_neg hungrouped).symm)
  · have hwritten := (written_of_groups order h (Dict.get?_of_mem_entries he)).2
    refine ((group_addEntry hwritten).1 hall).trans (if_neg ?_)
    unfold target
    split_ifs
    · exact hall
    · exact hne.symm

theorem vars_reloaded : (reloaded order inv).allGroup.vars = inv.allGroup.vars := by
  have hloop := Dict.foldl_entry (π := fun s : MemInventory => (s.group allName).vars)
    (F := fun vars v => vars.update v.vars.entries)
    (f := addEntry) (k := allName) (d := (memDataToDict order inv).groups) (fun s v hv => ?_)
    (fun s e he hne => ?_) .empty
  · refine hloop.trans ?_
    rw [get?_groups order h (by decide), if_neg (by decide), if_pos rfl, Option.elim_some, vars_allData]
    exact Dict.update_empty _
  · have hwritten := (written_of_groups order h hv).2
    exact (group_addEntry hwritten).2.trans (if_pos rfl)
  · have hv := Dict.get?_of_mem_entries he
    refine (group_addEntry (written_of_groups order h hv).2).2.trans ?_
    split_ifs with htarget
    · rcases groups_cases order h hv with ⟨-, heq⟩ | ⟨heq, -⟩ | ⟨hname, -⟩
      · rw [heq]
        rfl
      · exact absurd heq hne
      · rw [target, if_neg (h.groupNames _ hname).2.1] at htarget
        exact absurd htarget.symm hne
    · rfl

theorem knows_reloaded (hname : name ∈ inv.allGroups.keys) : (reloaded order inv).Knows name := by
  obtain ⟨hall, hungrouped, -⟩ := h.groupNames name hname
  by_cases hmeta : name = metaName
  · -- `_meta` is no entry, but a child of another group.
    obtain ⟨parent, hparent, hlink⟩ := h.linked name hname
    have hentry : ∃ k v, (memDataToDict order inv).groups.get? k = some v ∧ name ∈ v.children := by
      rcases hparent with rfl | hparent
      · exact ⟨allName, _, get?_groups order h (by decide), List.mem_append_left _ hlink⟩
      · obtain ⟨hall', hungrouped', -⟩ := h.groupNames parent hparent
        have hne : parent ≠ metaName := by
          rintro rfl
          rw [h.noMeta] at hlink
          cases hlink
        refine ⟨parent, .dict (groupData (inv.group parent)), ?_, ?_⟩
        · rw [get?_groups order h hne, if_neg hungrouped', if_neg hall', if_pos hparent]
        · rw [children_groupData]
          exact hlink
    obtain ⟨k, v, hv, hchild⟩ := hentry
    exact (reloaded_complete order h hv).children name hchild rfl hungrouped
  · have hv : (memDataToDict order inv).groups.get? name =
        some (.dict (groupData (inv.group name))) := by
      rw [get?_groups order h hmeta, if_neg hungrouped, if_neg hall, if_pos hname]
    have hknows := (reloaded_complete order h hv).group
    rwa [target, if_neg hungrouped] at hknows

theorem mem_of_reloaded (hname : name ∈ (reloaded order inv).allGroups.keys) :
    name ∈ inv.allGroups.keys := by
  have hloaded := (reloaded_steps order h).loaded (plain_groups order h)
  obtain ⟨hall, hungrouped, -⟩ := hloaded.groupNames name hname
  obtain ⟨parent, -, hlink⟩ := hloaded.linked name hname
  rcases ((reloaded_steps order h).sourced.children parent name hlink).2 with
    ⟨-, v, hv⟩ | ⟨k, v, -, hv, hchild⟩
  · rcases groups_cases order h hv with ⟨heq, -⟩ | ⟨heq, -⟩ | ⟨hkey, -⟩
    · exact absurd heq hungrouped
    · exact absurd heq hall
    · exact hkey
  · exact (children_of_groups order h hv name hchild).resolve_right hungrouped

theorem get?_allGroups_reloaded :
    (reloaded order inv).allGroups.get? name = inv.allGroups.get? name := by
  have hget : ∀ {inv : MemInventory}, name ≠ allName → name ∈ inv.allGroups.keys →
      inv.allGroups.get? name = some (inv.group name) := by
    intro inv hall hname
    obtain ⟨g, hg⟩ := Dict.get?_of_mem_keys hname
    rw [MemInventory.group, if_neg hall, Dict.getD, hg]
    rfl
  by_cases hname : name ∈ inv.allGroups.keys
  · obtain ⟨hall, hungrouped, -⟩ := h.groupNames name hname
    have hknown := (knows_reloaded order h hname).resolve_left hall
    rw [hget hall hknown, hget hall hname, group_reloaded order h hall hungrouped]
  · rw [Dict.get?_eq_none_of_not_mem _ hname,
      Dict.get?_eq_none_of_not_mem _ fun hmem => hname (mem_of_reloaded order h hmem)]

/-! ### The hosts that are loaded again -/

/-- Before `_meta` is read the hosts have no variables. -/
theorem hosts_of_steps {inv' : MemInventory}
    (hsteps : LoadSteps asciiData (memDataToDict order inv).groups .empty inv') :
    ∀ host vars, inv'.allHosts.get? host = some vars → vars = .empty ∧
      ∃ k v e, (memDataToDict order inv).groups.get? k = some v ∧ e ∈ v.hosts ∧ e.1 = host := by
  induction hsteps with
  | refl =>
    intro host vars hhost
    cases hhost
  | tail _ hstep ih =>
    cases hstep with
    | @newHost k v e port hv he hnew hne hport =>
      intro host vars hhost
      obtain ⟨-, -, hcolon⟩ := (written_of_groups order h hv).2.hosts e he
      rcases Dict.of_get?_set hhost with ⟨rfl, rfl⟩ | ⟨-, hhost⟩
      · rw [hostPort_of_no_colon hcolon] at hport
        cases hport
        exact ⟨rfl, k, v, e, hv, he, (hostName_of_no_colon hcolon).symm⟩
      · exact ih host vars hhost
    | @addHost k v e hv he hknows hknown =>
      intro host vars hhost
      obtain ⟨hvars, -, hcolon⟩ := (written_of_groups order h hv).2.hosts e he
      rw [MemInventory.addHost, MemInventory.allHosts_setGroup] at hhost
      rcases Dict.of_get?_set hhost with ⟨rfl, rfl⟩ | ⟨-, hhost⟩
      · refine ⟨?_, k, v, e, hv, he, (hostName_of_no_colon hcolon).symm⟩
        obtain ⟨vars, hold⟩ := Dict.get?_of_mem_keys hknown
        rw [hvars, Dict.getD, hold]
        exact (ih _ vars hold).1
      · exact ih host vars hhost
    | addVars =>
      intro host vars hhost
      rw [MemInventory.updateGroup, MemInventory.allHosts_setGroup] at hhost
      exact ih host vars hhost
    | newGroup =>
      intro host vars hhost
      rw [MemInventory.linkChild, MemInventory.allHosts_setGroup, MemInventory.allHosts_setGroup] at hhost
      exact ih host vars hhost
    | link =>
      intro host vars hhost
      rw [MemInventory.linkChild, MemInventory.allHosts_setGroup] at hhost
      exact ih host vars hhost

theorem mem_reloaded_hosts (hhost : host ∈ inv.allHosts.keys) :
    host ∈ (reloaded order inv).allHosts.keys := by
  obtain ⟨-, hcolon⟩ := h.hostNames host hhost
  have hentry : ∃ k v, (memDataToDict order inv).groups.get? k = some v ∧ (host, none) ∈ v.hosts := by
    by_cases hgroup : ∃ e ∈ inv.allGroups.entries, host ∈ e.2.hosts
    · obtain ⟨⟨k, g⟩, he, hmem⟩ := hgroup
      have hget := Dict.get?_of_mem_entries he
      have hkey := Dict.mem_keys_of_get? hget
      obtain ⟨hall, hungrouped, -⟩ := h.groupNames k hkey
      have hgroup : inv.group k = g := by
        rw [MemInventory.group, if_neg hall, Dict.getD, hget]
        rfl
      have hmeta : k ≠ metaName := by
        rintro rfl
        rw [h.noMeta] at hgroup
        rw [← hgroup] at hmem
        cases hmem
      refine ⟨k, .dict (groupData (inv.group k)), ?_, ?_⟩
      · rw [get?_groups order h hmeta, if_neg hungrouped, if_neg hall, if_pos hkey]
      · rw [hosts_groupData, hgroup]
        exact List.mem_map_of_mem hmem
    · refine ⟨ungrouped, _, (get?_groups order h (by decide)).trans (if_pos rfl), ?_⟩
      rw [hosts_ungroupedData]
      refine List.mem_map_of_mem ((mem_ungroupedHosts order).mpr ⟨hhost, fun e he hmem => ?_⟩)
      exact hgroup ⟨e, he, hmem⟩
  obtain ⟨k, v, hv, hmem⟩ := hentry
  have hknown := (reloaded_complete order h hv).hosts _ hmem rfl
  rwa [hostName_of_no_colon hcolon] at hknown

theorem get?_allHosts_reloaded :
    (reloaded order inv).allHosts.get? host = (inv.allHosts.get? host).map fun _ => .empty := by
  have hsteps := hosts_of_steps order h (reloaded_steps order h)
  by_cases hhost : host ∈ inv.allHosts.keys
  · obtain ⟨vars, hvars⟩ := Dict.get?_of_mem_keys hhost
    obtain ⟨vars', hvars'⟩ := Dict.get?_of_mem_keys (mem_reloaded_hosts order h hhost)
    rw [hvars, hvars', (hsteps host vars' hvars').1, Option.map_some]
  · rw [Dict.get?_eq_none_of_not_mem _ hhost, Option.map_none]
    refine Dict.get?_eq_none_of_not_mem _ fun hmem => hhost ?_
    obtain ⟨vars, hvars⟩ := Dict.get?_of_mem_keys hmem
    obtain ⟨-, k, v, e, hv, he, rfl⟩ := hsteps host vars hvars
    exact (hosts_of_groups order h hv e he).2

/-- All is as it was, but where a group is called `_meta` the hosts have no variables. -/
theorem dictToMemData_memDataToDict : ∃ inv',
    dictToMemData u .none (memDataToDict order inv) = .ok inv' ∧
      (∀ name, inv'.allGroups.get? name = inv.allGroups.get? name) ∧
      inv'.allGroup.vars = inv.allGroup.vars ∧
      ∀ host, inv'.allHosts.get? host = if metaName ∈ inv.allGroups.keys then
        (inv.allHosts.get? host).map fun _ => .empty else inv.allHosts.get? host := by
  have hload : dictToMemData u .none (memDataToDict order inv) =
      loadMeta (memDataToDict order inv).hostMeta (reloaded order inv) := by
    rw [dictToMemData, foldlM_groups order h]
    rfl
  have hget : (memDataToDict order inv).get? metaName = _ := get?_memDataToDict order h
  rw [if_neg (by decide), if_neg (by decide), if_pos rfl] at hget
  rw [hload, Data.hostMeta, Dict.getD, hget]
  by_cases hmeta : metaName ∈ inv.allGroups.keys
  · rw [if_pos hmeta, h.noMeta]
    refine ⟨reloaded order inv, rfl, fun name => get?_allGroups_reloaded order h,
      vars_reloaded order h, fun host => ?_⟩
    rw [if_pos hmeta]
    exact get?_allHosts_reloaded order h
  · rw [if_neg hmeta]
    refine ⟨_, rfl, fun name => get?_allGroups_reloaded order h, vars_reloaded order h,
      fun host => ?_⟩
    rw [if_neg hmeta]
    refine (Dict.get?_mapValues _ _ _).trans ?_
    rw [get?_allHosts_reloaded order h, Dict.get?_mapValues]
    cases inv.allHosts.get? host with
    | none => rfl
    | some vars => exact congrArg some (Dict.update_empty vars)

end Converted

/-- The same hosts and groups with the same variables, hosts and children, and the same variables of
`all`. -/
structure MemInventory.Same (inv inv' : MemInventory) : Prop where
  hosts : ∀ name, inv'.allHosts.get? name = inv.allHosts.get? name
  groups : ∀ name, inv'.allGroups.get? name = inv.allGroups.get? name
  allVars : inv'.allGroup.vars = inv.allGroup.vars

/-- Converting and loading again gives the same inventory, unless a group is called `_meta`, under
which the variables of the hosts are written. -/
theorem reloads_iff (u : UnicodeData) (filters : Filters) (order : SetOrder) (data : Data)
    (inv : MemInventory)
    (hcolon : ∀ k v e, data.groups.get? k = some v → e ∈ v.hosts → ':' ∉ e.1)
    (h : dictToMemData u filters data = .ok inv) :
    (∃ inv', dictToMemData u .none (memDataToDict order inv) = .ok inv' ∧ inv.Same inv') ↔
      (metaName ∈ inv.allGroups.keys → ∀ host vars, inv.allHosts.get? host = some vars →
        vars = .empty) := by
  obtain ⟨inv', hload, hgroups, hvars, hhosts⟩ :=
    dictToMemData_memDataToDict (u := u) order (loaded_of_dictToMemData hcolon h)
  constructor
  · rintro ⟨inv₁, hload₁, hsame⟩ hmeta host vars hhost
    rw [hload] at hload₁
    cases hload₁
    have hlost := hhosts host
    rw [if_pos hmeta, hsame.hosts, hhost, Option.map_some] at hlost
    exact Option.some.inj hlost
  · intro hempty
    refine ⟨inv', hload, ⟨fun host => ?_, hgroups, hvars⟩⟩
    rw [hhosts]
    split_ifs with hmeta
    · cases hhost : inv.allHosts.get? host with
      | none => rfl
      | some vars => rw [Option.map_some, hempty hmeta host vars hhost]
    · rfl

def listed : SetOrder := ⟨id, fun _ _ => Iff.rfl⟩

theorem nodup_variable : ([(['x'], .null)] : List (Str × Value)).map Prod.fst |>.Nodup := by decide

/-- A group with one host, its children, and a variable of the host. -/
def hostData (children : List Str) : Data where
  entries :=
    [(['g'], .dict { Fields.empty with
        hosts := some (.list [['h']]), children := some (some children) }),
      (metaName, .dict { Fields.empty with
        hostvars := some (some ⟨[(['h'], some ⟨[(['x'], .null)], nodup_variable⟩)], by decide⟩) })]
  nodup := (by decide : ([['g'], metaName] : List Str).Nodup)

theorem no_colon_hostData (children : List Str) : ∀ k v e,
    (hostData children).groups.get? k = some v → e ∈ v.hosts → ':' ∉ e.1 := by
  intro k v e hv he
  obtain ⟨rfl, rfl⟩ := Prod.mk.inj (List.mem_singleton.mp (Dict.mem_entries_of_get? hv))
  rw [List.mem_singleton.mp he]
  decide

theorem hostData_reloads : ∃ inv, dictToMemData asciiData .none (hostData [['c']]) = .ok inv ∧
    ∃ inv', dictToMemData asciiData .none (memDataToDict listed inv) = .ok inv' ∧ inv.Same inv' :=
  ⟨_, rfl, (reloads_iff asciiData .none listed (hostData [['c']]) _ (no_colon_hostData _) rfl).mpr
    fun hmeta => absurd hmeta (by decide)⟩

theorem hostvars_lost : ¬ ∀ data inv, (∀ k v e, data.groups.get? k = some v → e ∈ v.hosts → ':' ∉ e.1) →
    dictToMemData asciiData .none data = .ok inv →
    ∃ inv', dictToMemData asciiData .none (memDataToDict listed inv) = .ok inv' ∧ inv.Same inv' := by
  intro hall
  obtain ⟨inv', hload, hsame⟩ := hall (hostData [metaName]) _ (no_colon_hostData _) rfl
  obtain ⟨inv₁, hload₁, -, -, hhosts⟩ := dictToMemData_memDataToDict (u := asciiData) listed
    (loaded_of_dictToMemData (no_colon_hostData [metaName])
      (rfl : dictToMemData asciiData .none (hostData [metaName]) = .ok _))
  rw [hload] at hload₁
  cases hload₁
  have hlost := (hhosts ['h']).symm.trans (hsame.hosts ['h'])
  rw [if_pos (by decide)] at hlost
  exact absurd (congrArg (Option.map Dict.keys) hlost) (by decide)

end Forail.InventoryData
