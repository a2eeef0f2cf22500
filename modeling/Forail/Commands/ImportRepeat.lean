import Forail.Commands.ImportResult

/-! An import leaves the rows of the data as the data says, and a second import of the same data
changes nothing. -/

namespace Forail.InventoryImport

variable {text : Text} {db : Database} {set : Settings} {data : MemData} {inv inv' : Inventory}

/-! ### Groups -/

theorem createUpdateGroups_hosts : (createUpdateGroups set data inv).hosts = inv.hosts ∧
    (createUpdateGroups set data inv).sourceHosts = inv.sourceHosts :=
  List.foldlRecOn (motive := fun inv₁ : Inventory => inv₁.hosts = inv.hosts ∧
    inv₁.sourceHosts = inv.sourceHosts) _ _ ⟨rfl, rfl⟩ fun _ h _ _ => h

theorem get?_foldl_groups {es : List (String × Variables)} (hes : (es.map Prod.fst).Nodup)
    (inv : Inventory) (name : String) :
    (es.foldl (createUpdateGroup set) inv).groups.get? name =
      (es.lookup name).elim (inv.groups.get? name) fun vars =>
        some (importGroup set (inv.groups.get? name) vars) := by
  induction es generalizing inv with
  | nil => rfl
  | cons e es ih =>
    rw [List.map_cons, List.nodup_cons] at hes
    rw [List.foldl_cons, ih hes.2, Dict.lookup_cons_ite, createUpdateGroup, Dict.get?_set]
    by_cases hname : name = e.1
    · rw [if_pos hname, if_pos hname, hname, Dict.lookup_eq_none_of_not_mem es hes.1]
      rfl
    · rw [if_neg hname, if_neg hname]

theorem mem_sourceGroups_foldl (es : List (String × Variables)) (inv : Inventory) (name : String) :
    name ∈ (es.foldl (createUpdateGroup set) inv).sourceGroups ↔
      name ∈ inv.sourceGroups ∨ name ∈ es.map Prod.fst := by
  induction es generalizing inv with
  | nil => simp
  | cons e es ih =>
    rw [List.foldl_cons, ih, createUpdateGroup, Finset.mem_insert, List.map_cons, List.mem_cons]
    exact ⟨fun h => h.elim (fun h => h.elim (fun h => .inr (.inl h)) .inl) fun h => .inr (.inr h),
      fun h => h.elim (fun h => .inl (.inr h)) fun h => h.elim (fun h => .inl (.inl h)) .inr⟩

theorem stored_importGroup (hover : set.overwriteVars = true) {vars : Variables}
    (hplain : descriptionKey ∉ vars) (stored : Option Group) :
    Stored vars (importGroup set stored vars).vars := by
  unfold importGroup
  split
  case h_1 group =>
    have hmerge := stored_merge hover group.vars vars
    dsimp only
    split_ifs at hmerge ⊢
    · exact hmerge
    · exact hmerge
  case h_2 => exact .inl (erase_of_not_mem hplain)

theorem Stored.importGroup {group : Group} {vars : Variables} (h : Stored vars group.vars)
    (hover : set.overwriteVars = true) : importGroup set (some group) vars = group := by
  have hmerge := h.merge hover
  unfold InventoryImport.importGroup
  dsimp only
  split_ifs at hmerge ⊢
  · rfl
  · rw [hmerge]

/-! ### The result of an import -/

/-- The inventory after an import of the data. -/
structure Loaded (text : Text) (set : Settings) (data : MemData) (inv inv' : Inventory) : Prop where
  hosts : ∀ name vars, data.hosts.get? name = some vars → Plain set vars →
    ∃ host ∈ inv'.hosts.rows, host.name = name ∧ host.pk ∈ inv'.sourceHosts ∧
      Imported text set inv vars host
  groups : ∀ name vars, data.groups.get? name = some vars → descriptionKey ∉ vars →
    ∃ group, inv'.groups.get? name = some group ∧ Stored vars group.vars
  sourceHosts : set.overwrite = true → ∀ pk ∈ inv'.sourceHosts,
    ∃ host ∈ inv'.hosts.rows, host.pk = pk ∧ host.name ∈ data.hosts.keys
  sourceGroups : ∀ name ∈ data.groups.keys, name ∈ inv'.sourceGroups
  onlyGroups : set.overwrite = true → ∀ name ∈ inv'.sourceGroups, name ∈ data.groups.keys

/-- The rows before the updates. -/
def remaining (set : Settings) (data : MemData) (pkMemHostMap : Dict ℕ String) (inv : Inventory) :
    Inventory :=
  if set.overwrite then deleteGroups data (deleteHosts pkMemHostMap inv) else inv

theorem mem_remaining {pkMemHostMap : Dict ℕ String} {host : Host} :
    host ∈ (remaining set data pkMemHostMap inv).hosts.rows ↔ host ∈ inv.hosts.rows ∧
      (set.overwrite = true → host.pk ∈ inv.sourceHosts →
        (pkMemHostMap.get? host.pk).isSome = true) := by
  unfold remaining
  by_cases hover : set.overwrite = true
  · rw [if_pos hover]
    refine List.mem_filter.trans (and_congr_right fun _ => ?_)
    rw [decide_eq_true_iff, or_iff_not_imp_left, not_not]
    exact ⟨fun h _ => h, fun h => h hover⟩
  · rw [if_neg hover]
    exact ⟨fun h => ⟨h, fun h' => absurd h' hover⟩, fun h => h.1⟩

theorem remaining_next (pkMemHostMap : Dict ℕ String) :
    (remaining set data pkMemHostMap inv).hosts.next = inv.hosts.next := by
  unfold remaining
  split_ifs <;> rfl

theorem nodup_memHostNamesToCreate (pkMemHostMap : Dict ℕ String) (rows : List Host) :
    (memHostNamesToCreate data pkMemHostMap rows).Nodup :=
  (List.perm_insertionSort _ _).nodup_iff.mpr (data.hosts.nodup.filter _)

theorem mem_memHostNamesToCreate {pkMemHostMap : Dict ℕ String} {rows : List Host} {name : String} :
    name ∈ memHostNamesToCreate data pkMemHostMap rows ↔ name ∈ data.hosts.keys ∧
      ∀ host ∈ rows, pkMemHostMap.get? host.pk ≠ some name := by
  unfold memHostNamesToCreate
  rw [List.mem_insertionSort, List.mem_filter, decide_eq_true_iff, List.mem_filterMap]
  simp only [not_exists, not_and, ne_eq]

section Stages
variable {pkMemHostMap : Dict ℕ String} {inv₁ : Inventory} {rows : List Host}
  (hupdate : updateHosts text db set data pkMemHostMap
    (createUpdateGroups set data (remaining set data pkMemHostMap inv)) = some (inv₁, rows))
  (hcreate : createHosts text set data (memHostNamesToCreate data pkMemHostMap rows) inv₁ = some inv')

include hupdate

theorem mem_rows {host : Host} :
    host ∈ rows ↔ host ∈ inv.hosts.rows ∧ (pkMemHostMap.get? host.pk).isSome = true := by
  rw [(updateHosts_some hupdate).2.2.2 host, createUpdateGroups_hosts.1, mem_remaining]
  exact ⟨fun h => ⟨h.1.1, h.2⟩, fun h => ⟨⟨h.1, fun _ _ => h.2⟩, h.2⟩⟩

theorem mem_updated {host : Host} : host ∈ inv₁.hosts.rows ↔
    ∃ old ∈ (remaining set data pkMemHostMap inv).hosts.rows,
      updated text set data pkMemHostMap old = host := by
  rw [(updateHosts_some hupdate).1.1, createUpdateGroups_hosts.1, List.mem_map]

theorem mem_sourceHosts {pk : ℕ} : pk ∈ inv₁.sourceHosts ↔
    pk ∈ (remaining set data pkMemHostMap inv).sourceHosts ∨ ∃ host ∈ rows, host.pk = pk := by
  rw [(updateHosts_some hupdate).2.2.1, createUpdateGroups_hosts.2, Finset.mem_union, List.mem_toFinset,
    List.mem_map]

/-- A row whose name is not matched is not touched by the updates. -/
theorem mem_of_unmatched {host : Host} (hmem : host ∈ inv₁.hosts.rows)
    (hdata : ∀ pk name, pkMemHostMap.get? pk = some name → name ∈ data.hosts.keys)
    (hname : host.name ∈ memHostNamesToCreate data pkMemHostMap rows) :
    host ∈ inv.hosts.rows ∧ pkMemHostMap.get? host.pk = none := by
  obtain ⟨old, hold, rfl⟩ := (mem_updated hupdate).mp hmem
  have holdmem := (mem_remaining.mp hold).1
  cases hget : pkMemHostMap.get? old.pk with
  | none =>
    have hnone : updated text set data pkMemHostMap old = old := by rw [updated, hget]
    rw [hnone]
    exact ⟨holdmem, hget⟩
  | some name =>
    obtain ⟨vars, hvars⟩ := Dict.get?_of_mem_keys (hdata _ _ hget)
    rw [updated_of_get? hget hvars] at hname
    have hrows : old ∈ rows := (mem_rows hupdate).mpr ⟨holdmem, by rw [hget]; rfl⟩
    exact absurd hget ((mem_memHostNamesToCreate.mp hname).2 old hrows)

include hcreate

/-- A matched row ends as updated. -/
theorem mem_of_matched {host : Host} {name : String} {vars : Variables} (hmem : host ∈ inv.hosts.rows)
    (hname : pkMemHostMap.get? host.pk = some name) (hvars : data.hosts.get? name = some vars) :
    updateDbHostFromMemHost text set host name vars ∈ inv'.hosts.rows ∧
      host.pk ∈ inv'.sourceHosts := by
  have hsome : (pkMemHostMap.get? host.pk).isSome = true := by rw [hname]; rfl
  have hrows : host ∈ rows := (mem_rows hupdate).mpr ⟨hmem, hsome⟩
  obtain ⟨-, hkeep, ⟨hsource, -⟩, -⟩ := createHosts_some (nodup_memHostNamesToCreate _ _) hcreate
  refine ⟨(hkeep _ fun hnames => ?_).mpr ((mem_updated hupdate).mpr ⟨host, ?_, ?_⟩), hsource ?_⟩
  · exact (mem_memHostNamesToCreate.mp hnames).2 host hrows hname
  · exact mem_remaining.mpr ⟨hmem, fun _ _ => hsome⟩
  · exact updated_of_get? hname hvars
  · exact (mem_sourceHosts hupdate).mpr (.inr ⟨host, hrows, rfl⟩)

/-- A created row holds what the data says. -/
theorem imported_of_created (hmap : pkMemHostMap = buildPkMemHostMap text db set inv data)
    {name : String} (hname : name ∈ memHostNamesToCreate data pkMemHostMap rows) {vars : Variables}
    (hvars : data.hosts.get? name = some vars) (hplain : Plain set vars) :
    ∃ host ∈ inv'.hosts.rows, host.name = name ∧ host.pk ∈ inv'.sourceHosts ∧
      Imported text set inv vars host := by
  obtain ⟨hnew, -⟩ := createHosts_some (nodup_memHostNamesToCreate _ _) hcreate
  obtain ⟨vars', hvars', host, hmem, hcreated, hsource⟩ := hnew name hname
  obtain rfl : vars = vars' := Option.some.inj (hvars.symm.trans hvars')
  have hdata : ∀ pk name, pkMemHostMap.get? pk = some name → name ∈ data.hosts.keys := by
    subst hmap
    exact fun pk name h => (mem_data_of_get? h).1
  have herase := erase_of_not_mem hplain.description
  have henabled := hcreated.enabled
  have hid := hcreated.instanceId
  have hpk := hcreated.pk
  rw [herase] at henabled hid
  refine ⟨host, hmem, hcreated.named, hsource, .inl (by rw [hcreated.stored, herase]), ?_, ?_⟩
  · rw [hid]
    split_ifs with hunset
    · cases hof : inv₁.hosts.ofName name with
      | none => exact (getInstanceId_unset hunset).symm
      | some old =>
        -- without the variable every row with the name of a host is matched
        obtain ⟨hold, rfl⟩ := Table.ofName_some hof
        obtain ⟨holdmem, hnone⟩ := mem_of_unmatched hupdate hold hdata hname
        subst hmap
        rw [get?_of_unset hunset holdmem (mem_memHostNamesToCreate.mp hname).1] at hnone
        cases hnone
    · rfl
  · rw [henabled, Inventory.enabledOf]
    cases hof : inv₁.hosts.ofName name with
    | none =>
      rw [hof] at hpk
      have hnext : inv₁.hosts.next = inv.hosts.next := by
        rw [(updateHosts_some hupdate).1.2, createUpdateGroups_hosts.1, remaining_next]
      rw [Table.ofPk_next (hnext ▸ hpk)]
    | some old =>
      obtain ⟨hold, hname'⟩ := Table.ofName_some hof
      obtain ⟨holdmem, -⟩ := mem_of_unmatched hupdate hold hdata (hname'.symm ▸ hname)
      rw [hof] at hpk
      rw [show host.pk = old.pk from hpk, Table.ofPk_of_mem holdmem]

end Stages

theorem loaded (h : loadIntoDatabase text db set data inv = some inv')
    (hover : set.overwriteVars = true) : Loaded text set data inv inv' := by
  obtain ⟨⟨inv₁, rows⟩, hupdate, hcreate⟩ := Option.bind_eq_some_iff.mp h
  dsimp only at hupdate hcreate
  rw [← remaining] at hupdate
  obtain ⟨-, -, ⟨-, hsource⟩, hgroups, hsourceGroups⟩ :=
    createHosts_some (nodup_memHostNamesToCreate _ _) hcreate
  obtain ⟨-, ⟨hgroups₁, hsourceGroups₁⟩, -⟩ := updateHosts_some hupdate
  refine ⟨fun name vars hvars hplain => ?_, fun name vars hvars hplain => ?_, fun hset pk hpk => ?_,
    fun name hname => ?_, fun hset name hname => ?_⟩
  · by_cases hmatched : ∃ host ∈ rows,
        (buildPkMemHostMap text db set inv data).get? host.pk = some name
    · obtain ⟨host, hrows, hname⟩ := hmatched
      have hmem := ((mem_rows hupdate).mp hrows).1
      obtain ⟨hend, hend'⟩ := mem_of_matched hupdate hcreate hmem hname hvars
      exact ⟨_, hend, rfl, hend', imported_update hover hplain hmem name⟩
    · refine imported_of_created hupdate hcreate rfl ?_ hvars hplain
      exact mem_memHostNamesToCreate.mpr ⟨Dict.mem_keys_of_get? hvars, fun host hrows hname =>
        hmatched ⟨host, hrows, hname⟩⟩
  · have hget : inv'.groups.get? name = some (importGroup set
        ((remaining set data (buildPkMemHostMap text db set inv data) inv).groups.get? name) vars) := by
      rw [hgroups, hgroups₁, createUpdateGroups, get?_foldl_groups data.groups.nodup]
      rw [show data.groups.entries.lookup name = some vars from hvars]
      rfl
    exact ⟨_, hget, stored_importGroup hover hplain _⟩
  · rcases hsource pk hpk with hpk | ⟨host, hmem, rfl, hname⟩
    · have hmatched : ∃ name, (buildPkMemHostMap text db set inv data).get? pk = some name := by
        rcases (mem_sourceHosts hupdate).mp hpk with hpk | ⟨host, hrows, rfl⟩
        · rw [remaining, if_pos hset] at hpk
          exact Option.isSome_iff_exists.mp (Finset.mem_filter.mp hpk).2
        · exact Option.isSome_iff_exists.mp ((mem_rows hupdate).mp hrows).2
      obtain ⟨name, hname⟩ := hmatched
      obtain ⟨hkey, host, hmem, rfl⟩ := mem_data_of_get? hname
      obtain ⟨vars, hvars⟩ := Dict.get?_of_mem_keys hkey
      exact ⟨_, (mem_of_matched hupdate hcreate hmem hname hvars).1, rfl, hkey⟩
    · exact ⟨host, hmem, rfl, (mem_memHostNamesToCreate.mp hname).1⟩
  · rw [hsourceGroups, hsourceGroups₁, createUpdateGroups, mem_sourceGroups_foldl]
    exact .inr hname
  · rw [hsourceGroups, hsourceGroups₁, createUpdateGroups, mem_sourceGroups_foldl, remaining,
      if_pos hset] at hname
    rcases hname with hname | hname
    · exact (Finset.mem_filter.mp hname).2
    · exact hname

/-! ### A second import -/

/-- No instance ID is that of two rows. -/
def DistinctIds (inv : Inventory) : Prop :=
  ∀ host ∈ inv.hosts.rows, ∀ host' ∈ inv.hosts.rows, host.instanceId ≠ "" →
    host.instanceId = host'.instanceId → host = host'

structure PlainData (set : Settings) (data : MemData) : Prop where
  hosts : ∀ name vars, data.hosts.get? name = some vars → Plain set vars
  groups : ∀ name vars, data.groups.get? name = some vars → descriptionKey ∉ vars

section Again
variable (h : Loaded text set data inv inv') (hplain : PlainData set data)

include h hplain

theorem Loaded.imported {host : Host} (hmem : host ∈ inv'.hosts.rows) {vars : Variables}
    (hvars : data.hosts.get? host.name = some vars) :
    Imported text set inv vars host ∧ host.pk ∈ inv'.sourceHosts := by
  obtain ⟨host', hmem', hname, hsource, himported⟩ := h.hosts _ vars hvars (hplain.hosts _ vars hvars)
  obtain rfl := inv'.hosts.eq_of_name hmem' hmem hname
  exact ⟨himported, hsource⟩

/-- The second import matches rows and hosts by name. -/
theorem Loaded.matched (hids : DistinctIds inv') {host : Host} (hmem : host ∈ inv'.hosts.rows)
    (hkey : host.name ∈ data.hosts.keys) :
    (buildPkMemHostMap text db set inv' data).get? host.pk = some host.name := by
  refine get?_of_name (fun host hmem name hget hkey => ?_) (fun host hmem name hget => ?_) hmem hkey
  · obtain ⟨vars, hvars⟩ := Dict.get?_of_mem_keys hkey
    have himported := (h.imported hplain hmem hvars).1
    obtain ⟨vars', -, hids'⟩ := of_memHostPkMapById hget
    obtain ⟨hne, host', hmem', hpk, hempty, hid⟩ := noted inv' _ _ hids'
    obtain rfl := inv'.hosts.eq_of_pk hmem' hmem hpk
    -- a row that an import left without an ID has none among its variables either
    rw [himported.instanceId] at hempty
    have hremoved := getInstanceId_removeRemote hempty
    refine hne (hid.symm.trans ?_)
    rcases himported.stored with heq | heq
    · rw [heq, hremoved]
    · exact getInstanceId_eq heq hremoved
  · obtain ⟨hne, vars, hvars, hid⟩ := of_memHostInstanceIdMap hget
    obtain ⟨host', hmem', rfl, -, himported⟩ := h.hosts name vars hvars (hplain.hosts name vars hvars)
    have hsame := himported.instanceId.trans hid
    rw [hids host' hmem' host hmem (fun hempty => hne (hsame.symm.trans hempty)) hsame]

theorem Loaded.remaining_eq (hids : DistinctIds inv') :
    remaining set data (buildPkMemHostMap text db set inv' data) inv' = inv' := by
  unfold remaining
  split_ifs with hset
  · have hsome : ∀ pk ∈ inv'.sourceHosts,
        ((buildPkMemHostMap text db set inv' data).get? pk).isSome = true := by
      intro pk hpk
      obtain ⟨host, hmem, rfl, hkey⟩ := h.sourceHosts hset pk hpk
      rw [h.matched hplain hids hmem hkey]
      rfl
    have hhosts : deleteHosts (buildPkMemHostMap text db set inv' data) inv' = inv' := by
      unfold deleteHosts
      rw [Table.keep_of_forall fun host _ => decide_eq_true ?_, Finset.filter_true_of_mem hsome]
      rw [or_iff_not_imp_left, not_not]
      exact hsome host.pk
    rw [hhosts]
    unfold deleteGroups
    rw [Dict.filter_of_forall fun name _ => decide_eq_true ?_,
      Finset.filter_true_of_mem (h.onlyGroups hset)]
    rw [or_iff_not_imp_left, not_not]
    exact h.onlyGroups hset name
  · rfl

theorem Loaded.createUpdateGroups_eq (hover : set.overwriteVars = true) :
    createUpdateGroups set data inv' = inv' := by
  refine List.foldlRecOn (motive := fun inv₁ => inv₁ = inv') _ _ rfl fun inv₁ hinv e he => ?_
  subst hinv
  have hvars := Dict.get?_of_mem_entries he
  obtain ⟨group, hgroup, hstored⟩ := h.groups e.1 e.2 hvars (hplain.groups e.1 e.2 hvars)
  rw [createUpdateGroup, hgroup, hstored.importGroup hover, Dict.set_self hgroup,
    Finset.insert_eq_of_mem (h.sourceGroups e.1 (Dict.mem_keys_of_get? hvars))]

/-- Rows that the second import matches are rows of the data with their names. -/
theorem Loaded.name_of_matched (hids : DistinctIds inv') {host : Host} (hmem : host ∈ inv'.hosts.rows)
    (hsome : ((buildPkMemHostMap text db set inv' data).get? host.pk).isSome = true) :
    (buildPkMemHostMap text db set inv' data).get? host.pk = some host.name ∧
      ∃ vars, data.hosts.get? host.name = some vars := by
  obtain ⟨name, hname⟩ := Option.isSome_iff_exists.mp hsome
  obtain ⟨vars, hvars⟩ := Dict.get?_of_mem_keys (mem_data_of_get? hname).1
  obtain ⟨host', hmem', rfl, -⟩ := h.hosts name vars hvars (hplain.hosts name vars hvars)
  have hname' : (buildPkMemHostMap text db set inv' data).get? host'.pk = some host'.name :=
    h.matched hplain hids hmem' (Dict.mem_keys_of_get? hvars)
  obtain rfl := inv'.hosts.eq_of_pk hmem hmem' (pk_unique hname hname')
  exact ⟨hname, vars, hvars⟩

theorem Loaded.updateHost_eq (hover : set.overwriteVars = true) (hids : DistinctIds inv') {host : Host}
    (hmem : host ∈ inv'.hosts.rows)
    (hsome : ((buildPkMemHostMap text db set inv' data).get? host.pk).isSome = true) :
    updateHost text set data (buildPkMemHostMap text db set inv' data) inv'.hosts host =
      some inv'.hosts := by
  obtain ⟨hname, vars, hvars⟩ := h.name_of_matched hplain hids hmem hsome
  have himported := (h.imported hplain hmem hvars).1
  refine Option.bind_eq_some_iff.mpr ⟨_, hname, Option.bind_eq_some_iff.mpr ⟨vars, hvars, ?_⟩⟩
  rw [himported.update hover (hplain.hosts _ vars hvars)]
  exact Table.save_self hmem

theorem Loaded.updateHosts_eq (hover : set.overwriteVars = true) (hids : DistinctIds inv') :
    ∃ rows, updateHosts text db set data (buildPkMemHostMap text db set inv' data) inv' =
        some (inv', rows) ∧
      memHostNamesToCreate data (buildPkMemHostMap text db set inv' data) rows = [] := by
  have hfold : ∀ hosts : List Host, (∀ host ∈ hosts, host ∈ inv'.hosts.rows ∧
      ((buildPkMemHostMap text db set inv' data).get? host.pk).isSome = true) →
      hosts.foldlM (updateHost text set data (buildPkMemHostMap text db set inv' data)) inv'.hosts =
        some inv'.hosts := by
    intro hosts
    induction hosts with
    | nil => exact fun _ => rfl
    | cons host hosts ih =>
      intro hall
      obtain ⟨hmem, hsome⟩ := hall host List.mem_cons_self
      rw [List.foldlM_cons, h.updateHost_eq hplain hover hids hmem hsome]
      exact ih fun host' hm => hall host' (List.mem_cons_of_mem host hm)
  refine ⟨hostsToUpdate db (buildPkMemHostMap text db set inv' data) inv', ?_, ?_⟩
  · have hsource : inv'.sourceHosts ∪ ((hostsToUpdate db (buildPkMemHostMap text db set inv' data)
        inv').map Host.pk).toFinset = inv'.sourceHosts := by
      refine Finset.union_eq_left.mpr fun pk hpk => ?_
      obtain ⟨host, hm, rfl⟩ := List.mem_map.mp (List.mem_toFinset.mp hpk)
      obtain ⟨hmem, hsome⟩ := mem_hostsToUpdate.mp hm
      obtain ⟨-, vars, hvars⟩ := h.name_of_matched hplain hids hmem hsome
      exact (h.imported hplain hmem hvars).2
    rw [updateHosts, hfold _ fun host hm => mem_hostsToUpdate.mp hm]
    show some ({ inv' with sourceHosts := _ }, _) = _
    rw [hsource]
  · refine List.eq_nil_iff_forall_not_mem.mpr fun name hname => ?_
    obtain ⟨hkey, hnone⟩ := mem_memHostNamesToCreate.mp hname
    obtain ⟨vars, hvars⟩ := Dict.get?_of_mem_keys hkey
    obtain ⟨host, hmem, rfl, -⟩ := h.hosts name vars hvars (hplain.hosts name vars hvars)
    have hmatched : (buildPkMemHostMap text db set inv' data).get? host.pk = some host.name :=
      h.matched hplain hids hmem hkey
    exact hnone host (mem_hostsToUpdate.mpr ⟨hmem, by rw [hmatched]; rfl⟩) hmatched

theorem Loaded.again (hover : set.overwriteVars = true) (hids : DistinctIds inv') :
    loadIntoDatabase text db set data inv' = some inv' := by
  obtain ⟨rows, hupdate, hnames⟩ := h.updateHosts_eq hplain hover hids
  rw [loadIntoDatabase]
  dsimp only
  rw [← remaining, h.remaining_eq hplain hids, h.createUpdateGroups_eq hplain hover, hupdate]
  show createHosts text set data (memHostNamesToCreate data _ rows) inv' = some inv'
  rw [hnames]
  rfl

end Again

/-! ### New and old rows -/

/-- With `overwrite_vars` every host and group of the data ends with the variables and instance
ID of the data, whether its row is old or new, and with the enabled flag of the data or else that
of the old row. A second import of the data changes nothing. -/
theorem import_result (h : loadIntoDatabase text db set data inv = some inv')
    (hover : set.overwriteVars = true) :
    (∀ name vars, data.hosts.get? name = some vars → Plain set vars →
      ∃ host ∈ inv'.hosts.rows, host.name = name ∧ Imported text set inv vars host) ∧
    (∀ name vars, data.groups.get? name = some vars → descriptionKey ∉ vars →
      ∃ group, inv'.groups.get? name = some group ∧ Stored vars group.vars) ∧
    (PlainData set data → DistinctIds inv' →
      loadIntoDatabase text db set data inv' = some inv') := by
  have hloaded := loaded h hover
  refine ⟨fun name vars hvars hplain => ?_, hloaded.groups, fun hplain hids => ?_⟩
  · obtain ⟨host, hmem, hname, -, himported⟩ := hloaded.hosts name vars hvars hplain
    exact ⟨host, hmem, hname, himported⟩
  · exact hloaded.again hplain hover hids

section Examples

def plainText : Text where
  quote s := "'" ++ s ++ "'"
  lower s := s.map Char.toLower
  jinja _ := false

def inOrder : Database where
  order := id
  perm _ := .refl _
  contains _ _ := true

/-- An import with the flag at `on` and the instance ID at `id`. -/
def onById : Settings where
  overwrite := true
  overwriteVars := true
  constructed := false
  enabledVar := ["on"]
  enabledValue := none
  instanceIdVar := [["id"]]

def withId (id : String) : Variables := (∅ : Variables).insert "id" (.str id)

def noRows : Inventory where
  hosts := ⟨[], 1, by decide, by decide, by decide⟩
  groups := Dict.empty
  sourceHosts := ∅
  sourceGroups := ∅

/-- One row `a`, which is disabled. -/
def disabledRow : Inventory where
  hosts := ⟨[⟨1, "a", .str "", ∅, false, ""⟩], 2, by decide, by decide, by decide⟩
  groups := Dict.empty
  sourceHosts := {1}
  sourceGroups := ∅

def oneHost : MemData where
  hosts := ⟨[("a", withId "i")], by decide⟩
  groups := ⟨[("g", ∅)], by decide⟩

def twoHosts : MemData where
  hosts := ⟨[("a", withId "i"), ("b", withId "i")], by decide⟩
  groups := Dict.empty

def rowsAfter (data : MemData) (inv : Inventory) : Option (List (ℕ × String × Bool)) :=
  (loadIntoDatabase plainText inOrder onById data inv).map fun inv =>
    inv.hosts.rows.map fun host => (host.pk, host.name, host.enabled)

theorem oneHost_plain : PlainData onById oneHost := by
  refine ⟨fun name vars hget => ⟨?_, nofun⟩, fun name vars hget => ?_⟩
  · have hentry := Dict.mem_entries_of_get? hget
    cases List.mem_singleton.mp hentry
    decide
  · have hentry := Dict.mem_entries_of_get? hget
    cases List.mem_singleton.mp hentry
    decide

theorem import_result_disabled : ∃ inv, loadIntoDatabase plainText inOrder onById oneHost disabledRow = some inv ∧
    (∃ host ∈ inv.hosts.rows, host.name = "a" ∧
      Imported plainText onById disabledRow (withId "i") host) ∧
    loadIntoDatabase plainText inOrder onById oneHost inv = some inv := by
  have hsome : (loadIntoDatabase plainText inOrder onById oneHost disabledRow).isSome = true := by decide
  obtain ⟨inv, h⟩ := Option.isSome_iff_exists.mp hsome
  obtain ⟨hhosts, -, hagain⟩ := import_result h rfl
  refine ⟨inv, h, hhosts "a" (withId "i") rfl (oneHost_plain.hosts "a" _ rfl),
    hagain oneHost_plain ?_⟩
  have hrows : rowsAfter oneHost disabledRow = some [(1, "a", false)] := by decide
  rw [rowsAfter, h, Option.map_some, Option.some.injEq] at hrows
  intro host hmem host' hmem' _ _
  have hpk : ∀ x ∈ inv.hosts.rows, x.pk = 1 := fun x hx => by
    have hrow := List.mem_map_of_mem (f := fun host : Host => (host.pk, host.name, host.enabled)) hx
    rw [hrows, List.mem_singleton] at hrow
    exact congrArg Prod.fst hrow
  exact inv.hosts.eq_of_pk hmem hmem' ((hpk host hmem).trans (hpk host' hmem').symm)

/-- A new row is enabled where an old one stays disabled, and with one instance ID on two hosts
the second import deletes a row and creates it again. -/
theorem old_and_new_differ :
    rowsAfter oneHost noRows = some [(1, "a", true)] ∧
    rowsAfter oneHost disabledRow = some [(1, "a", false)] ∧
    rowsAfter twoHosts noRows = some [(1, "a", true), (2, "b", true)] ∧
    (loadIntoDatabase plainText inOrder onById twoHosts noRows).bind (rowsAfter twoHosts) =
      some [(2, "b", true), (3, "a", true)] := by
  decide

end Examples

end Forail.InventoryImport
