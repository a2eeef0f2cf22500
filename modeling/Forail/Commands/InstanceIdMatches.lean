import Forail.Commands.ImportMatching

/-! Which row an import matches with a host of the data: the row that has its name, where that row has no
instance ID of the data, and else the last of the rows with the instance ID of the host. -/

namespace Forail.InventoryImport

variable {text : Text} {db : Database} {set : Settings} {data : MemData} {inv : Inventory}

section Definitions
variable (text : Text) (db : Database) (set : Settings) (data : MemData) (inv : Inventory)

/-- The instance ID of a host of the data is that of a row. An ID that was read from the variables of a
row, since none was stored, counts before the stored ones. -/
def HasInstanceId (host : Host) (name : String) : Prop :=
  ∃ vars, data.hosts.get? name = some vars ∧
    match (buildDbInstanceIdMap text db set inv).get? (getInstanceId text set vars) with
    | some pk => host.pk = pk
    | none => host.instanceId = getInstanceId text set vars

/-- Hosts of the data have instance IDs of their own. -/
structure Identified : Prop where
  ne_empty : ∀ name vars, data.hosts.get? name = some vars → getInstanceId text set vars ≠ ""
  distinct : ∀ name vars name' vars', data.hosts.get? name = some vars →
    data.hosts.get? name' = some vars' → getInstanceId text set vars = getInstanceId text set vars' →
    name = name'

/-- The host that the first pass finds for a row. -/
def foundByPk (host : Host) : Option String :=
  (memHostPkMapById text set (buildDbInstanceIdMap text db set inv) data).get? host.pk

/-- The host that the second pass finds for a row. -/
def foundByStored (host : Host) : Option String :=
  (memHostInstanceIdMap text set (buildDbInstanceIdMap text db set inv) data).get? host.instanceId

/-- The host that the passes by instance ID find for a row. -/
def foundById (host : Host) : Option String :=
  (foundByPk text db set data inv host).or (foundByStored text db set data inv host)

/-- The rows in the order of the passes by instance ID. -/
def idPasses : List Host :=
  db.order (inv.hosts.rows.filter fun host => (foundByPk text db set data inv host).isSome) ++
    db.order (inv.hosts.rows.filter fun host => (foundByStored text db set data inv host).isSome)

/-- The last row with the instance ID of a host of the data. -/
def lastById (name : String) : Option Host :=
  (idPasses text db set data inv).reverse.find? fun host => foundById text db set data inv host = some name

end Definitions

/-! ### The maps -/

/-- A key that one of the entries sets, and none removes. -/
theorem isSome_foldl {α κ ν : Type} [DecidableEq κ] {f : Dict κ ν → α → Dict κ ν} {k : κ} {es : List α}
    (hmono : ∀ d e, (d.get? k).isSome = true → ((f d e).get? k).isSome = true) {e : α} (he : e ∈ es)
    (hset : ∀ d, ((f d e).get? k).isSome = true) (d : Dict κ ν) :
    ((es.foldl f d).get? k).isSome = true := by
  obtain ⟨before, after, rfl⟩ := List.append_of_mem he
  rw [List.foldl_append, List.foldl_cons]
  exact List.foldlRecOn (motive := fun d => (d.get? k).isSome = true) _ _ (hset _) fun d h e _ => hmono d e h

theorem isSome_set {κ ν : Type} [DecidableEq κ] (d : Dict κ ν) (k k' : κ) (v : ν)
    (h : k = k' ∨ (d.get? k').isSome = true) : ((d.set k v).get? k').isSome = true := by
  rw [Dict.get?_set]
  split_ifs with hk
  · rfl
  · exact h.resolve_left fun heq => hk heq.symm

section Found
variable (hdata : Identified text set data)
include hdata

theorem foundByPk_iff {host : Host} {name : String} : foundByPk text db set data inv host = some name ↔
    ∃ vars, data.hosts.get? name = some vars ∧
      (buildDbInstanceIdMap text db set inv).get? (getInstanceId text set vars) = some host.pk := by
  refine ⟨of_memHostPkMapById, ?_⟩
  rintro ⟨vars, hvars, hid⟩
  have hsome : (foundByPk text db set data inv host).isSome = true := by
    refine isSome_foldl (fun byId e h => ?_) (Dict.mem_entries_of_get? hvars) (fun byId => ?_) Dict.empty
    · split
      · exact isSome_set _ _ _ _ (.inr h)
      · exact h
    · simp only [hid]
      exact isSome_set _ _ _ _ (.inl rfl)
  obtain ⟨name', hname'⟩ := Option.isSome_iff_exists.mp hsome
  obtain ⟨vars', hvars', hid'⟩ := of_memHostPkMapById hname'
  -- one row has one instance ID among its variables
  obtain ⟨-, row, hrow, hpk, -, hrowId⟩ := noted inv _ _ hid
  obtain ⟨-, row', hrow', hpk', -, hrowId'⟩ := noted inv _ _ hid'
  obtain rfl := inv.hosts.eq_of_pk hrow hrow' (hpk.trans hpk'.symm)
  rw [hname', hdata.distinct name' vars' name vars hvars' hvars (hrowId'.symm.trans hrowId)]

theorem foundByStored_iff {host : Host} {name : String} :
    foundByStored text db set data inv host = some name ↔
      ∃ vars, data.hosts.get? name = some vars ∧
        (buildDbInstanceIdMap text db set inv).get? (getInstanceId text set vars) = none ∧
        host.instanceId = getInstanceId text set vars := by
  have hof : ∀ {instanceId name}, (memHostInstanceIdMap text set (buildDbInstanceIdMap text db set inv)
      data).get? instanceId = some name → ∃ vars, data.hosts.get? name = some vars ∧
        (buildDbInstanceIdMap text db set inv).get? (getInstanceId text set vars) = none ∧
        instanceId = getInstanceId text set vars := by
    intro instanceId name h
    refine List.foldlRecOn (motive := fun byId : Dict String String => ∀ instanceId name,
      byId.get? instanceId = some name → ∃ vars, data.hosts.get? name = some vars ∧
        (buildDbInstanceIdMap text db set inv).get? (getInstanceId text set vars) = none ∧
        instanceId = getInstanceId text set vars) _ _ (fun _ _ h => by cases h) (fun byId hby e he => ?_)
        instanceId name h
    dsimp only
    split
    case h_1 => exact hby
    case h_2 hnone =>
      split_ifs
      · exact hby
      · intro instanceId name hget
        rcases Dict.of_get?_set hget with ⟨rfl, rfl⟩ | ⟨-, hget⟩
        · exact ⟨e.2, Dict.get?_of_mem_entries he, hnone, rfl⟩
        · exact hby instanceId name hget
  refine ⟨hof, ?_⟩
  rintro ⟨vars, hvars, hnone, hid⟩
  have hsome : (foundByStored text db set data inv host).isSome = true := by
    refine isSome_foldl (fun byId e h => ?_) (Dict.mem_entries_of_get? hvars) (fun byId => ?_) Dict.empty
    · dsimp only
      split
      · exact h
      · split_ifs
        · exact h
        · exact isSome_set _ _ _ _ (.inr h)
    · simp only [hnone, hdata.ne_empty name vars hvars, if_false]
      exact isSome_set _ _ _ _ (.inl hid.symm)
  obtain ⟨name', hname'⟩ := Option.isSome_iff_exists.mp hsome
  obtain ⟨vars', hvars', -, hid'⟩ := hof hname'
  rw [hname', hdata.distinct name' vars' name vars hvars' hvars (hid'.symm.trans hid)]

/-- A row that the first pass finds has no stored instance ID. -/
theorem foundByStored_of_foundByPk {host : Host} (hmem : host ∈ inv.hosts.rows) {name : String}
    (h : foundByPk text db set data inv host = some name) :
    foundByStored text db set data inv host = none := by
  obtain ⟨vars, -, hid⟩ := (foundByPk_iff hdata).mp h
  obtain ⟨-, row, hrow, hpk, hempty, -⟩ := noted inv _ _ hid
  obtain rfl := inv.hosts.eq_of_pk hrow hmem hpk
  refine Option.eq_none_iff_forall_ne_some.mpr fun name' hname' => ?_
  obtain ⟨vars', hvars', -, hid'⟩ := (foundByStored_iff hdata).mp hname'
  exact hdata.ne_empty name' vars' hvars' (hid'.symm.trans hempty)

theorem foundById_iff {host : Host} (hmem : host ∈ inv.hosts.rows) {name : String} :
    foundById text db set data inv host = some name ↔ HasInstanceId text db set data inv host name := by
  rw [foundById, Option.or_eq_some_iff, foundByPk_iff hdata, foundByStored_iff hdata]
  constructor
  · rintro (⟨vars, hvars, hid⟩ | ⟨-, vars, hvars, hnone, hid⟩)
    · exact ⟨vars, hvars, by rw [hid]⟩
    · exact ⟨vars, hvars, by rw [hnone]; exact hid⟩
  · rintro ⟨vars, hvars, hid⟩
    cases hget : (buildDbInstanceIdMap text db set inv).get? (getInstanceId text set vars) with
    | some pk =>
      rw [hget] at hid
      exact .inl ⟨vars, hvars, by rw [hget, ← hid]⟩
    | none =>
      rw [hget] at hid
      refine .inr ⟨Option.eq_none_iff_forall_ne_some.mpr fun name' hname' => ?_, vars, hvars, hget, hid⟩
      have hstored := (foundByStored_iff hdata).mpr ⟨vars, hvars, hget, hid⟩
      rw [foundByStored_of_foundByPk hdata hmem hname'] at hstored
      exact Option.some_ne_none _ hstored.symm

end Found

theorem mem_idPasses {host : Host} : host ∈ idPasses text db set data inv ↔
    host ∈ inv.hosts.rows ∧ (foundById text db set data inv host).isSome = true := by
  rw [idPasses, List.mem_append, (db.perm _).mem_iff, (db.perm _).mem_iff, List.mem_filter,
    List.mem_filter, ← and_or_left, foundById, Option.isSome_or, Bool.or_eq_true]

theorem of_lastById {host : Host} {name : String} (h : lastById text db set data inv name = some host) :
    host ∈ inv.hosts.rows ∧ foundById text db set data inv host = some name := by
  rw [lastById] at h
  have hname := List.find?_some h
  rw [decide_eq_true_iff] at hname
  exact ⟨(mem_idPasses.mp (List.mem_reverse.mp (List.mem_of_find?_eq_some h))).1, hname⟩

theorem exists_lastById {host : Host} {name : String} (hmem : host ∈ inv.hosts.rows)
    (h : foundById text db set data inv host = some name) :
    ∃ last, lastById text db set data inv name = some last := by
  refine Option.isSome_iff_exists.mp (List.find?_isSome.mpr ⟨host, ?_, decide_eq_true h⟩)
  exact List.mem_reverse.mpr (mem_idPasses.mpr ⟨hmem, Option.isSome_iff_exists.mpr ⟨name, h⟩⟩)

/-! ### The passes -/

/-- A pass matches each row that it finds a host for and that is not matched; the last row of a host
counts. -/
theorem foldl_assign (find : Host → Option String) {hosts : List Host}
    (hnodup : (hosts.map Host.pk).Nodup) (m : Matched) :
    (∀ pk, pk ∈ (hosts.foldl (assign find) m).updated ↔
      pk ∈ m.updated ∨ ∃ host ∈ hosts, host.pk = pk ∧ (find host).isSome = true) ∧
    ∀ name, (hosts.foldl (assign find) m).pks.get? name =
      ((hosts.reverse.find? fun host => find host = some name ∧ host.pk ∉ m.updated).map Host.pk).or
        (m.pks.get? name) := by
  induction hosts using List.reverseRecOn with
  | nil => exact ⟨by simp, fun name => rfl⟩
  | append_singleton hosts host ih =>
    rw [List.map_append, List.nodup_append] at hnodup
    obtain ⟨hupdated, hpks⟩ := ih hnodup.1
    have hfresh : ∀ other ∈ hosts, other.pk ≠ host.pk := fun other hother =>
      hnodup.2.2 _ (List.mem_map_of_mem hother) _ (List.mem_singleton.mpr rfl)
    have hnot : host.pk ∈ (hosts.foldl (assign find) m).updated ↔ host.pk ∈ m.updated := by
      rw [hupdated]
      exact or_iff_left fun ⟨other, hother, heq, _⟩ => hfresh other hother heq
    have hexists : ∀ {P : Host → Prop}, (∃ x ∈ hosts ++ [host], P x) ↔ (∃ x ∈ hosts, P x) ∨ P host := by
      simp [or_and_right, exists_or]
    simp only [List.foldl_append, List.foldl_cons, List.foldl_nil, List.reverse_append,
      List.reverse_singleton, List.singleton_append, hexists]
    generalize hosts.foldl (assign find) m = m' at hupdated hpks hnot
    cases hfind : find host with
    | none =>
      have hsame : assign find m' host = m' := by rw [assign, hfind]
      rw [hsame]
      refine ⟨fun pk => (hupdated pk).trans ?_, fun name => ?_⟩
      · simp
      · rw [List.find?_cons_of_neg (by simp [hfind])]
        exact hpks name
    | some name' =>
      by_cases hup : host.pk ∈ m.updated
      · have hsame : assign find m' host = m' := by
          rw [assign, hfind]
          exact if_pos (hnot.mpr hup)
        rw [hsame]
        refine ⟨fun pk => (hupdated pk).trans ?_, fun name => ?_⟩
        · simp only [Option.isSome_some, and_true, ← or_assoc]
          exact (or_iff_left_of_imp fun heq => .inl (heq ▸ hup)).symm
        · rw [List.find?_cons_of_neg (by simp [hup])]
          exact hpks name
      · have hset : assign find m' host =
            { pks := m'.pks.set name' host.pk, updated := Insert.insert host.pk m'.updated } := by
          rw [assign, hfind]
          exact if_neg (mt hnot.mp hup)
        rw [hset]
        refine ⟨fun pk => ?_, fun name => ?_⟩
        · simp only [Finset.mem_insert, hupdated, Option.isSome_some, and_true]
          rw [or_comm, or_assoc, eq_comm]
        · rw [Dict.get?_set]
          by_cases hname : name = name'
          · rw [if_pos hname, List.find?_cons_of_pos (by simp [hfind, hname, hup])]
            rfl
          · rw [if_neg hname, List.find?_cons_of_neg (by simp [hfind, Ne.symm hname])]
            exact hpks name

theorem nodup_pass (db : Database) (find : Host → Option String) (rows : Table Host.pk Host.name) :
    ((db.order (rows.rows.filter fun host => (find host).isSome)).map Host.pk).Nodup :=
  ((db.perm _).map Host.pk).nodup_iff.mpr (rows.nodup.sublist (List.filter_sublist.map _))

end Forail.InventoryImport
