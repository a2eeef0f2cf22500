import Forail.Commands.ImportMatching

/-! What an import leaves behind. A host or group of the data ends with the same variables and
instance ID on an old row as on a new one, and with the enabled flag of the data where it has
one. A second import of the data then changes nothing. -/

namespace Forail.InventoryImport

variable {text : Text} {db : Database} {set : Settings} {data : MemData} {inv inv' : Inventory}

/-! ### Rows -/

/-- The flag of a row, which is true for a row to come. -/
def Inventory.enabledOf (inv : Inventory) (pk : ℕ) : Bool := (inv.hosts.ofPk pk).elim true Host.enabled

/-- The stored variables are those of the data, as `==` sees them. -/
def Stored (vars stored : Variables) : Prop := stored = vars ∨ vars.eq stored = true

/-- A row holds what the data says of a host; `inv` is the inventory before the import. -/
structure Imported (text : Text) (set : Settings) (inv : Inventory) (vars : Variables) (host : Host) :
    Prop where
  stored : Stored (removeRemote set vars) host.vars
  instanceId : host.instanceId = getInstanceId text set vars
  enabled : host.enabled = (getEnabled text set vars).getD (inv.enabledOf host.pk)

theorem stored_merge (h : set.overwriteVars = true) (stored vars : Variables) :
    Stored vars (if (mergeVariables set stored vars).eq stored then stored
      else mergeVariables set stored vars) := by
  rw [mergeVariables, if_pos h]
  split_ifs with heq
  · exact .inr heq
  · exact .inl rfl

/-- Merging stored variables again keeps them as they are. -/
theorem Stored.merge {stored vars : Variables} (h : Stored vars stored)
    (hover : set.overwriteVars = true) :
    (if (mergeVariables set stored vars).eq stored then stored
      else mergeVariables set stored vars) = stored := by
  rw [mergeVariables, if_pos hover]
  split_ifs with heq
  · rfl
  · exact (h.resolve_right heq).symm

theorem imported_update (hover : set.overwriteVars = true) {vars : Variables} (hplain : Plain set vars)
    {host : Host} (hmem : host ∈ inv.hosts.rows) (name : String) :
    Imported text set inv vars (updateDbHostFromMemHost text set host name vars) := by
  refine ⟨stored_merge hover host.vars _, rfl, ?_⟩
  have hflag : inv.enabledOf host.pk = host.enabled := by
    rw [Inventory.enabledOf, Table.ofPk_of_mem hmem]
    rfl
  show (getEnabled text set (removeRemote set vars)).getD host.enabled = _
  rw [hplain.getEnabled_removeRemote]
  exact congrArg _ hflag.symm

/-- A second update changes nothing. -/
theorem Imported.update {vars : Variables} {host : Host} (h : Imported text set inv vars host)
    (hover : set.overwriteVars = true) (hplain : Plain set vars) :
    updateDbHostFromMemHost text set host host.name vars = host := by
  have henabled : (getEnabled text set (removeRemote set vars)).getD host.enabled = host.enabled := by
    rw [hplain.getEnabled_removeRemote]
    have hflag := h.enabled
    cases hget : getEnabled text set vars with
    | none => rfl
    | some b =>
      rw [hget] at hflag
      exact hflag.symm
  unfold updateDbHostFromMemHost
  dsimp only
  rw [henabled, h.stored.merge hover, ← h.instanceId]

/-! ### Updates -/

/-- The row as the import updates it. -/
def updated (text : Text) (set : Settings) (data : MemData) (pkMemHostMap : Dict ℕ String) (host : Host) :
    Host :=
  match pkMemHostMap.get? host.pk with
  | none => host
  | some name => (data.hosts.get? name).elim host (updateDbHostFromMemHost text set host name)

theorem updated_pk (pkMemHostMap : Dict ℕ String) (host : Host) :
    (updated text set data pkMemHostMap host).pk = host.pk := by
  unfold updated
  split
  · rfl
  · cases data.hosts.get? _ <;> rfl

theorem updated_of_get? {pkMemHostMap : Dict ℕ String} {host : Host} {name : String}
    {vars : Variables} (hname : pkMemHostMap.get? host.pk = some name)
    (hvars : data.hosts.get? name = some vars) :
    updated text set data pkMemHostMap host = updateDbHostFromMemHost text set host name vars := by
  rw [updated, hname]
  dsimp only
  rw [hvars]
  rfl

theorem mem_hostsToUpdate {pkMemHostMap : Dict ℕ String} {host : Host} :
    host ∈ hostsToUpdate db pkMemHostMap inv ↔
      host ∈ inv.hosts.rows ∧ (pkMemHostMap.get? host.pk).isSome = true :=
  (db.perm _).mem_iff.trans List.mem_filter

theorem nodup_hostsToUpdate (pkMemHostMap : Dict ℕ String) :
    ((hostsToUpdate db pkMemHostMap inv).map Host.pk).Nodup :=
  ((db.perm _).map Host.pk).nodup_iff.mpr (inv.hosts.nodup.sublist (List.filter_sublist.map _))

/-- Every row is updated or left as it was. -/
theorem updateHosts_some {pkMemHostMap : Dict ℕ String} {rows : List Host}
    (h : updateHosts text db set data pkMemHostMap inv = some (inv', rows)) :
    (inv'.hosts.rows = inv.hosts.rows.map (updated text set data pkMemHostMap) ∧
      inv'.hosts.next = inv.hosts.next) ∧
    (inv'.groups = inv.groups ∧ inv'.sourceGroups = inv.sourceGroups) ∧
    inv'.sourceHosts = inv.sourceHosts ∪ (rows.map Host.pk).toFinset ∧
    ∀ host, host ∈ rows ↔ host ∈ inv.hosts.rows ∧ (pkMemHostMap.get? host.pk).isSome = true := by
  obtain ⟨hosts, hhosts, hs⟩ := Option.bind_eq_some_iff.mp h
  cases hs
  have hsave := Table.rows_foldlM_save (g := updated text set data pkMemHostMap)
    (updated_pk pkMemHostMap) (fun host _ hosts hosts' hupdate => ?_)
    (nodup_hostsToUpdate pkMemHostMap) (fun host hm => (mem_hostsToUpdate.mp hm).1) hhosts
  · refine ⟨⟨hsave.1.trans (List.map_congr_left fun host hm => ?_), hsave.2⟩, ⟨rfl, rfl⟩, rfl,
      fun host => mem_hostsToUpdate⟩
    by_cases hsome : (pkMemHostMap.get? host.pk).isSome = true
    · rw [if_pos (List.mem_map_of_mem (mem_hostsToUpdate.mpr ⟨hm, hsome⟩))]
    · have hnone : updated text set data pkMemHostMap host = host := by
        rw [updated, Option.not_isSome_iff_eq_none.mp hsome]
      rw [hnone, ite_self]
  · obtain ⟨name, hname, hupdate⟩ := Option.bind_eq_some_iff.mp hupdate
    obtain ⟨vars, hvars, hupdate⟩ := Option.bind_eq_some_iff.mp hupdate
    rw [updated_of_get? hname hvars]
    exact hupdate

/-! ### Creations -/

/-- A row that the import creates, or updates as if it did; `hosts` is the table before. -/
structure Created (text : Text) (set : Settings) (hosts : Table Host.pk Host.name) (name : String)
    (vars : Variables) (host : Host) : Prop where
  named : host.name = name
  stored : host.vars = removeRemote set (vars.erase descriptionKey)
  enabled : host.enabled = (getEnabled text set (vars.erase descriptionKey)).getD
    ((hosts.ofName name).elim true Host.enabled)
  instanceId : host.instanceId = if set.instanceIdVar = [] then
      (hosts.ofName name).elim "" Host.instanceId
    else getInstanceId text set (vars.erase descriptionKey)
  pk : (hosts.ofName name).elim (hosts.next ≤ host.pk) fun old => host.pk = old.pk

theorem createHost_some {hosts hosts' : Table Host.pk Host.name} {name : String} {vars : Variables}
    {pk : ℕ} (h : createHost text set hosts name vars = some (hosts', pk)) :
    ∃ host, host.pk = pk ∧ Created text set hosts name vars host ∧
      (∀ x, x ∈ hosts'.rows ↔ x = host ∨ x ∈ hosts.rows ∧ x.name ≠ name) ∧
      hosts.next ≤ hosts'.next := by
  have hgetD (stored : String) :
      (if set.instanceIdVar = [] then none
        else some (getInstanceId text set (vars.erase descriptionKey))).getD stored =
      if set.instanceIdVar = [] then stored
        else getInstanceId text set (vars.erase descriptionKey) := by
    split_ifs <;> rfl
  obtain ⟨-, h⟩ := Option.ite_none_left_eq_some.mp h
  dsimp only at h
  split at h
  case h_1 old hold =>
    obtain ⟨hosts₁, hsave, hs⟩ := Option.bind_eq_some_iff.mp h
    cases hs
    obtain ⟨hmem, hname⟩ := Table.ofName_some hold
    refine ⟨{ old with
      description := (vars.lookup descriptionKey).getD (.str "imported")
      vars := removeRemote set (vars.erase descriptionKey)
      enabled := (getEnabled text set (vars.erase descriptionKey)).getD old.enabled
      instanceId := (if set.instanceIdVar = [] then none
        else some (getInstanceId text set (vars.erase descriptionKey))).getD old.instanceId },
      rfl, ⟨hname, rfl, ?_, ?_, ?_⟩, fun x => ?_, (Table.save_some hsave).2.ge⟩
    · rw [hold]
      rfl
    · rw [hold]
      exact hgetD _
    · rw [hold]
      exact rfl
    · rw [Table.mem_save hsave hmem rfl]
      refine or_congr_right (and_congr_right fun hx => not_congr ⟨fun hpk => ?_, fun hxname => ?_⟩)
      · rw [hosts.eq_of_pk hx hmem hpk, hname]
      · rw [hosts.eq_of_name hx hmem (hxname.trans hname.symm)]
  case h_2 hnone =>
    obtain ⟨hosts₁, hinsert, hs⟩ := Option.bind_eq_some_iff.mp h
    cases hs
    obtain ⟨hrows, hnext⟩ := Table.insert_some hinsert
    refine ⟨{
      pk := hosts.next, name
      description := (vars.lookup descriptionKey).getD (.str "imported")
      vars := removeRemote set (vars.erase descriptionKey)
      enabled := (getEnabled text set (vars.erase descriptionKey)).getD true
      instanceId := (if set.instanceIdVar = [] then none
        else some (getInstanceId text set (vars.erase descriptionKey))).getD "" },
      rfl, ⟨rfl, rfl, ?_, ?_, ?_⟩, fun x => ?_, hnext ▸ Nat.le_succ _⟩
    · rw [hnone]
      rfl
    · rw [hnone]
      exact hgetD _
    · rw [hnone]
      exact le_rfl
    · rw [hrows, List.mem_append, List.mem_singleton, or_comm]
      exact or_congr_right (iff_self_and.mpr (Table.ofName_none hnone x))

/-- Creations touch the rows of their names only. -/
theorem createHosts_some {names : List String} (hnodup : names.Nodup)
    (h : createHosts text set data names inv = some inv') :
    (∀ name ∈ names, ∃ vars, data.hosts.get? name = some vars ∧ ∃ host ∈ inv'.hosts.rows,
      Created text set inv.hosts name vars host ∧ host.pk ∈ inv'.sourceHosts) ∧
    (∀ host, host.name ∉ names → (host ∈ inv'.hosts.rows ↔ host ∈ inv.hosts.rows)) ∧
    (inv.sourceHosts ⊆ inv'.sourceHosts ∧ ∀ pk ∈ inv'.sourceHosts, pk ∈ inv.sourceHosts ∨
      ∃ host ∈ inv'.hosts.rows, host.pk = pk ∧ host.name ∈ names) ∧
    inv'.groups = inv.groups ∧ inv'.sourceGroups = inv.sourceGroups := by
  induction names generalizing inv with
  | nil =>
    cases h
    exact ⟨nofun, fun _ _ => Iff.rfl, ⟨subset_rfl, fun pk hpk => .inl hpk⟩, rfl, rfl⟩
  | cons name names ih =>
    obtain ⟨inv₁, h₁, h₂⟩ := Option.bind_eq_some_iff.mp h
    obtain ⟨vars, hvars, h₁⟩ := Option.bind_eq_some_iff.mp h₁
    obtain ⟨⟨hosts, pk⟩, hcreate, h₁⟩ := Option.bind_eq_some_iff.mp h₁
    cases h₁
    rw [List.nodup_cons] at hnodup
    obtain ⟨host, rfl, hcreated, hrows, hnext⟩ := createHost_some hcreate
    obtain ⟨hnew, hold, ⟨hsub, hsource⟩, hgroups⟩ := ih hnodup.2 h₂
    have hhost : host ∈ inv'.hosts.rows := by
      rw [hold host (by rw [hcreated.named]; exact hnodup.1), hrows]
      exact .inl rfl
    have hof : ∀ name' ∈ names, hosts.ofName name' = inv.hosts.ofName name' := by
      refine fun name' hname' => Table.ofName_congr fun x hx => ?_
      have hne : x.name ≠ name := fun heq => hnodup.1 (heq ▸ hx ▸ hname')
      rw [hrows]
      refine ⟨fun hmem => (hmem.resolve_left ?_).1, fun hmem => .inr ⟨hmem, hne⟩⟩
      rintro rfl
      exact hne hcreated.named
    refine ⟨fun name' hname' => ?_, fun host' hname' => ?_, ⟨?_, fun pk hpk => ?_⟩, hgroups⟩
    · rcases List.mem_cons.mp hname' with rfl | hname'
      · exact ⟨vars, hvars, host, hhost, hcreated, hsub (Finset.mem_insert_self _ _)⟩
      · obtain ⟨vars', hvars', host', hhost', hcreated', hsource'⟩ := hnew name' hname'
        refine ⟨vars', hvars', host', hhost', ?_, hsource'⟩
        have hname := hof name' hname'
        refine ⟨hcreated'.named, hcreated'.stored, ?_, ?_, ?_⟩
        · exact hname ▸ hcreated'.enabled
        · exact hname ▸ hcreated'.instanceId
        · have hpk := hcreated'.pk
          dsimp only at hpk
          rw [hname] at hpk
          cases hcase : inv.hosts.ofName name' with
          | none =>
            rw [hcase] at hpk
            exact hnext.trans hpk
          | some old =>
            rw [hcase] at hpk
            exact hpk
    · rw [List.mem_cons, not_or] at hname'
      rw [hold host' hname'.2, hrows]
      refine ⟨fun hmem => (hmem.resolve_left ?_).1, fun hmem => .inr ⟨hmem, hname'.1⟩⟩
      rintro rfl
      exact hname'.1 hcreated.named
    · exact (Finset.subset_insert _ _).trans hsub
    · rcases hsource pk hpk with hpk | ⟨host', hmem, hpk, hname⟩
      · rcases Finset.mem_insert.mp hpk with rfl | hpk
        · exact .inr ⟨host, hhost, rfl, hcreated.named ▸ List.mem_cons_self⟩
        · exact .inl hpk
      · exact .inr ⟨host', hmem, hpk, List.mem_cons_of_mem _ hname⟩

end Forail.InventoryImport
