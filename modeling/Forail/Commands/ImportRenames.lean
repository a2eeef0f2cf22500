import Forail.Commands.ImportRepeat
import Forail.Commands.InstanceIdMatches

/-! The renames of an import. Rows are stored one after another under the names of the hosts that they are
matched with, and the database refuses a row with the name of another one. -/

namespace Forail.InventoryImport

variable {text : Text} {db : Database} {set : Settings} {data : MemData} {inv : Inventory}

/-! ### The map -/

section Definitions
variable (text : Text) (db : Database) (set : Settings) (data : MemData) (inv : Inventory)

/-- A row that has the name of a host and no instance ID of the data. -/
def FoundByName (host : Host) (name : String) : Prop :=
  foundById text db set data inv host = none ∧ host.name = name ∧ name ∈ data.hosts.keys

/-- The matches by instance ID. -/
def matchedById : Matched :=
  matchHosts db inv.hosts.rows (foundByStored text db set data inv)
    (matchHosts db inv.hosts.rows (foundByPk text db set data inv) ⟨Dict.empty, ∅⟩)

end Definitions

theorem find?_congr {α : Type} {p q : α → Bool} {l : List α} (h : ∀ x ∈ l, p x = q x) :
    l.find? p = l.find? q := by
  induction l with
  | nil => rfl
  | cons x l ih =>
    rw [List.find?_cons, List.find?_cons, h x List.mem_cons_self,
      ih fun y hy => h y (List.mem_cons_of_mem x hy)]

section Map
variable (hdata : Identified text set data)
include hdata

theorem matchedById_spec :
    (∀ pk, pk ∈ (matchedById text db set data inv).updated ↔
      ∃ host ∈ inv.hosts.rows, host.pk = pk ∧ (foundById text db set data inv host).isSome = true) ∧
    ∀ name, (matchedById text db set data inv).pks.get? name =
      (lastById text db set data inv name).map Host.pk := by
  obtain ⟨hfirst, hfirstPks⟩ := foldl_assign (foundByPk text db set data inv)
    (nodup_pass db _ inv.hosts) ⟨Dict.empty, ∅⟩
  rw [← matchHosts] at hfirst hfirstPks
  obtain ⟨hupdated, hpks⟩ := foldl_assign (foundByStored text db set data inv)
    (nodup_pass db _ inv.hosts) (matchHosts db inv.hosts.rows (foundByPk text db set data inv)
      ⟨Dict.empty, ∅⟩)
  rw [← matchHosts, ← matchedById] at hupdated hpks
  have hpass : ∀ {find : Host → Option String} {host : Host},
      host ∈ db.order (inv.hosts.rows.filter fun host => (find host).isSome) ↔
        host ∈ inv.hosts.rows ∧ (find host).isSome = true := (db.perm _).mem_iff.trans List.mem_filter
  refine ⟨fun pk => ?_, fun name => ?_⟩
  · rw [hupdated, hfirst]
    simp only [hpass, Finset.notMem_empty, false_or, foundById, Option.isSome_or, Bool.or_eq_true]
    constructor
    · rintro (⟨host, ⟨hmem, hsome⟩, hpk, -⟩ | ⟨host, ⟨hmem, hsome⟩, hpk, -⟩)
      · exact ⟨host, hmem, hpk, .inl hsome⟩
      · exact ⟨host, hmem, hpk, .inr hsome⟩
    · rintro ⟨host, hmem, hpk, hsome | hsome⟩
      · exact .inl ⟨host, ⟨hmem, hsome⟩, hpk, hsome⟩
      · exact .inr ⟨host, ⟨hmem, hsome⟩, hpk, hsome⟩
  · have hsecond : ∀ host ∈ (db.order (inv.hosts.rows.filter fun host =>
        (foundByStored text db set data inv host).isSome)).reverse,
        decide (foundByStored text db set data inv host = some name ∧ host.pk ∉
          (matchHosts db inv.hosts.rows (foundByPk text db set data inv) ⟨Dict.empty, ∅⟩).updated) =
        decide (foundById text db set data inv host = some name) := by
      intro host hhost
      obtain ⟨hmem, hsome⟩ := hpass.mp (List.mem_reverse.mp hhost)
      have hnone : foundByPk text db set data inv host = none := by
        refine Option.eq_none_iff_forall_ne_some.mpr fun name' hname' => ?_
        rw [foundByStored_of_foundByPk hdata hmem hname'] at hsome
        exact absurd hsome (by simp)
      have hnot : host.pk ∉
          (matchHosts db inv.hosts.rows (foundByPk text db set data inv) ⟨Dict.empty, ∅⟩).updated := by
        rw [hfirst]
        rintro (hpk | ⟨other, hother, hpk, hfound⟩)
        · exact absurd hpk (Finset.notMem_empty _)
        · rw [inv.hosts.eq_of_pk (hpass.mp hother).1 hmem hpk, hnone] at hfound
          exact absurd hfound (by simp)
      rw [foundById, hnone, Option.none_or]
      simp only [hnot, not_false_eq_true, and_true]
    have hpkPass : ∀ host ∈ (db.order (inv.hosts.rows.filter fun host =>
        (foundByPk text db set data inv host).isSome)).reverse,
        decide (foundByPk text db set data inv host = some name ∧ host.pk ∉ (∅ : Finset ℕ)) =
        decide (foundById text db set data inv host = some name) := by
      intro host hhost
      obtain ⟨name', hname'⟩ := Option.isSome_iff_exists.mp (hpass.mp (List.mem_reverse.mp hhost)).2
      rw [foundById, hname', Option.some_or]
      simp only [Finset.notMem_empty, not_false_eq_true, and_true]
    rw [hpks, hfirstPks, find?_congr hsecond, find?_congr hpkPass, lastById, idPasses,
      List.reverse_append, List.find?_append, Option.map_or]
    exact congrArg _ Option.or_none

/-- A row with the name of a host, and no instance ID of the data, comes before those with its ID. -/
theorem get?_map_iff {pk : ℕ} {name : String} :
    (buildPkMemHostMap text db set inv data).get? pk = some name ↔
      ∃ host ∈ inv.hosts.rows, host.pk = pk ∧ (FoundByName text db set data inv host name ∨
        lastById text db set data inv name = some host ∧
          ∀ other ∈ inv.hosts.rows, ¬ FoundByName text db set data inv other name) := by
  obtain ⟨hupdated, hpksById⟩ := @matchedById_spec text db set data inv hdata
  obtain ⟨-, hpks⟩ := foldl_assign (fun host => (data.hosts.get? host.name).map fun _ => host.name)
    (nodup_pass db _ inv.hosts) (matchedById text db set data inv)
  have hmatched : (buildPkMemHostMap text db set inv data).get? pk = some name ↔ _ := get?_buildPkMemHostMap
  rw [hmatched]
  have hnamed : ∀ host ∈ inv.hosts.rows,
      ((data.hosts.get? host.name).map fun _ => host.name) = some name ∧
        host.pk ∉ (matchedById text db set data inv).updated ↔ FoundByName text db set data inv host name := by
    intro host hmem
    have hnot : host.pk ∉ (matchedById text db set data inv).updated ↔
        foundById text db set data inv host = none := by
      rw [hupdated, ← Option.not_isSome_iff_eq_none]
      refine not_congr ⟨?_, fun hsome => ⟨host, hmem, rfl, hsome⟩⟩
      rintro ⟨other, hother, hpk, hsome⟩
      rwa [inv.hosts.eq_of_pk hother hmem hpk] at hsome
    rw [hnot, FoundByName, and_comm]
    refine and_congr_right fun _ => ⟨fun h => ?_, fun h => ?_⟩
    · obtain ⟨vars, hvars, rfl⟩ := Option.map_eq_some_iff.mp h
      exact ⟨rfl, Dict.mem_keys_of_get? hvars⟩
    · obtain ⟨vars, hvars⟩ := Dict.get?_of_mem_keys h.2
      rw [h.1, hvars]
      rfl
  have hlast := hpks name
  rw [hpksById] at hlast
  have hpass : ∀ host, host ∈ (db.order (inv.hosts.rows.filter fun host =>
      ((data.hosts.get? host.name).map fun _ => host.name).isSome)).reverse ↔
        host ∈ inv.hosts.rows ∧ ((data.hosts.get? host.name).map fun _ => host.name).isSome = true :=
    fun host => List.mem_reverse.trans ((db.perm _).mem_iff.trans List.mem_filter)
  cases hfind : (db.order (inv.hosts.rows.filter fun host =>
      ((data.hosts.get? host.name).map fun _ => host.name).isSome)).reverse.find? fun host =>
        ((data.hosts.get? host.name).map fun _ => host.name) = some name ∧
          host.pk ∉ (matchedById text db set data inv).updated with
  | some host =>
    rw [hfind, Option.map_some, Option.some_or] at hlast
    have hmem := ((hpass host).mp (List.mem_of_find?_eq_some hfind)).1
    have hhost := List.find?_some hfind
    rw [decide_eq_true_iff, hnamed host hmem] at hhost
    refine (Iff.of_eq (congrArg (· = some pk) hlast)).trans ⟨fun h => ?_, ?_⟩
    · exact ⟨host, hmem, Option.some.inj h, .inl hhost⟩
    · rintro ⟨other, hother, rfl, h | ⟨-, h⟩⟩
      · rw [inv.hosts.eq_of_name hmem hother (hhost.2.1.trans h.2.1.symm)]
      · exact absurd hhost (h host hmem)
  | none =>
    rw [hfind, Option.map_none, Option.none_or] at hlast
    have hnone : ∀ other ∈ inv.hosts.rows, ¬ FoundByName text db set data inv other name := by
      intro other hother hfound
      have hpred := (hnamed other hother).mpr hfound
      have hmem := (hpass other).mpr ⟨hother, by rw [hpred.1]; rfl⟩
      exact absurd (decide_eq_true hpred) (List.find?_eq_none.mp hfind other hmem)
    refine (Iff.of_eq (congrArg (· = some pk) hlast)).trans ⟨fun h => ?_, ?_⟩
    · obtain ⟨host, hhost, rfl⟩ := Option.map_eq_some_iff.mp h
      exact ⟨host, (of_lastById hhost).1, rfl, .inr ⟨hhost, hnone⟩⟩
    · rintro ⟨host, hmem, rfl, h | ⟨h, -⟩⟩
      · exact absurd h (hnone host hmem)
      · rw [h]
        rfl

end Map

/-! ### Creations -/

theorem exists_createHost (set : Settings) (hosts : Table Host.pk Host.name) (vars : Variables)
    {name : String} :
    (∃ r, createHost text set hosts name vars = some r) ↔ text.jinja name = false := by
  unfold createHost
  dsimp only
  by_cases hjinja : text.jinja name = true
  · rw [if_pos hjinja]
    simp [hjinja]
  · rw [if_neg hjinja]
    refine iff_of_true ?_ (Bool.eq_false_iff.mpr hjinja)
    cases hof : hosts.ofName name with
    | some old =>
      obtain ⟨hmem, hname⟩ := Table.ofName_some hof
      dsimp only
      rw [Table.save, dif_pos fun y hy hyname => by rw [hosts.eq_of_name hy hmem hyname]]
      exact ⟨_, rfl⟩
    | none =>
      dsimp only
      rw [Table.insert, dif_pos fun y hy => Table.ofName_none hof y hy]
      exact ⟨_, rfl⟩

/-- Hosts are created unless the name of one has an expression in it. -/
theorem exists_createHosts {names : List String} (hkeys : ∀ name ∈ names, name ∈ data.hosts.keys) :
    (∃ inv', createHosts text set data names inv = some inv') ↔
      ∀ name ∈ names, text.jinja name = false := by
  induction names generalizing inv with
  | nil => exact iff_of_true ⟨inv, rfl⟩ (by simp)
  | cons name names ih =>
    obtain ⟨vars, hvars⟩ := Dict.get?_of_mem_keys (hkeys name List.mem_cons_self)
    have hrest (inv₁ : Inventory) : (∃ inv', createHosts text set data names inv₁ = some inv') ↔
        ∀ name ∈ names, text.jinja name = false :=
      ih fun name' h => hkeys name' (List.mem_cons_of_mem name h)
    rw [List.forall_mem_cons, ← exists_createHost set inv.hosts vars]
    unfold createHosts at hrest ⊢
    rw [List.foldlM_cons, hvars]
    constructor
    · rintro ⟨inv', h⟩
      obtain ⟨inv₁, h₁, h₂⟩ := Option.bind_eq_some_iff.mp h
      obtain ⟨vars', hvars', h₁⟩ := Option.bind_eq_some_iff.mp h₁
      obtain rfl := Option.some.inj hvars'
      obtain ⟨r, hr, -⟩ := Option.bind_eq_some_iff.mp h₁
      exact ⟨⟨r, hr⟩, (hrest inv₁).mp ⟨inv', h₂⟩⟩
    · rintro ⟨⟨r, hr⟩, hnames⟩
      obtain ⟨inv', h₂⟩ := (hrest { inv with hosts := r.1, sourceHosts := insert r.2 inv.sourceHosts }).mpr
        hnames
      exact ⟨inv', Option.bind_eq_some_iff.mpr ⟨_, Option.bind_eq_some_iff.mpr
        ⟨vars, rfl, Option.bind_eq_some_iff.mpr ⟨r, hr, rfl⟩⟩, h₂⟩⟩

/-! ### Updates -/

theorem foldlM_congr {σ α : Type} {f : σ → α → Option σ} (f' : σ → α → Option σ) {l : List α}
    (h : ∀ x ∈ l, ∀ s, f s x = f' s x) (s : σ) : l.foldlM f s = l.foldlM f' s := by
  induction l generalizing s with
  | nil => rfl
  | cons x l ih =>
    rw [List.foldlM_cons, List.foldlM_cons, h x List.mem_cons_self]
    exact congrArg _ (funext fun s' => ih (fun y hy => h y (List.mem_cons_of_mem x hy)) s')

/-- The rows that the import leaves before it updates them. -/
def leftRows (text : Text) (db : Database) (set : Settings) (data : MemData) (inv : Inventory) : Inventory :=
  createUpdateGroups set data (remaining set data (buildPkMemHostMap text db set inv data) inv)

theorem mem_leftRows {host : Host} : host ∈ (leftRows text db set data inv).hosts.rows ↔
    host ∈ inv.hosts.rows ∧ (set.overwrite = true → host.pk ∈ inv.sourceHosts →
      ((buildPkMemHostMap text db set inv data).get? host.pk).isSome = true) := by
  rw [leftRows, createUpdateGroups_hosts.1, mem_remaining]

theorem updated_name {host : Host} {name : String}
    (h : (buildPkMemHostMap text db set inv data).get? host.pk = some name) :
    (updated text set data (buildPkMemHostMap text db set inv data) host).name = name := by
  obtain ⟨vars, hvars⟩ := Dict.get?_of_mem_keys (mem_data_of_get? h).1
  rw [updated_of_get? h hvars]
  rfl

/-- The updates go through if and only if no row that is not matched has the name of a matched host, and
no matched row has the name of a host whose row comes before it. -/
theorem exists_updateHosts :
    (∃ r, updateHosts text db set data (buildPkMemHostMap text db set inv data)
        (leftRows text db set data inv) = some r) ↔
      (∀ pk name, (buildPkMemHostMap text db set inv data).get? pk = some name →
        ∀ y ∈ (leftRows text db set data inv).hosts.rows,
          (buildPkMemHostMap text db set inv data).get? y.pk = none → y.name ≠ name) ∧
      (hostsToUpdate db (buildPkMemHostMap text db set inv data)
        (leftRows text db set data inv)).Pairwise fun x y =>
          (buildPkMemHostMap text db set inv data).get? x.pk ≠ some y.name := by
  have hmem : ∀ {x}, x ∈ hostsToUpdate db (buildPkMemHostMap text db set inv data)
      (leftRows text db set data inv) ↔ x ∈ inv.hosts.rows ∧
        ((buildPkMemHostMap text db set inv data).get? x.pk).isSome = true := by
    intro x
    rw [mem_hostsToUpdate, mem_leftRows]
    exact ⟨fun h => ⟨h.1.1, h.2⟩, fun h => ⟨⟨h.1, fun _ _ => h.2⟩, h.2⟩⟩
  have hnodup : ((hostsToUpdate db (buildPkMemHostMap text db set inv data)
      (leftRows text db set data inv)).map Host.pk).Nodup := nodup_hostsToUpdate _
  have hfold : (∃ r, updateHosts text db set data (buildPkMemHostMap text db set inv data)
        (leftRows text db set data inv) = some r) ↔
      ∃ t, (hostsToUpdate db (buildPkMemHostMap text db set inv data)
        (leftRows text db set data inv)).foldlM (fun t x => t.save
          (updated text set data (buildPkMemHostMap text db set inv data) x))
          (leftRows text db set data inv).hosts = some t := by
    rw [updateHosts, foldlM_congr (fun t x => t.save
      (updated text set data (buildPkMemHostMap text db set inv data) x)) fun x hx t => ?_]
    · constructor
      · rintro ⟨r, h⟩
        obtain ⟨t, ht, -⟩ := Option.bind_eq_some_iff.mp h
        exact ⟨t, ht⟩
      · rintro ⟨t, ht⟩
        exact ⟨_, Option.bind_eq_some_iff.mpr ⟨t, ht, rfl⟩⟩
    · obtain ⟨name, hname⟩ := Option.isSome_iff_exists.mp (hmem.mp hx).2
      obtain ⟨vars, hvars⟩ := Dict.get?_of_mem_keys (mem_data_of_get? hname).1
      rw [updateHost, hname, updated_of_get? hname hvars]
      simp [hvars]
  rw [hfold, Table.exists_foldlM_save (updated_pk _) hnodup fun x hx => (mem_hostsToUpdate.mp hx).1]
  refine and_congr ⟨fun h pk name hname y hy hnone => ?_, fun h x hx y hy hnot => ?_⟩
    ⟨fun h => ?_, fun h => ?_⟩
  · obtain ⟨-, x, hx, rfl⟩ := mem_data_of_get? hname
    have hne := h x (hmem.mpr ⟨hx, by rw [hname]; rfl⟩) y hy fun hmap => ?_
    · rwa [updated_name hname] at hne
    · obtain ⟨z, hz, hpk⟩ := List.mem_map.mp hmap
      have hsome := (hmem.mp hz).2
      rw [hpk, hnone] at hsome
      exact absurd hsome (by simp)
  · obtain ⟨name, hname⟩ := Option.isSome_iff_exists.mp (hmem.mp hx).2
    rw [updated_name hname]
    refine h x.pk name hname y hy (Option.not_isSome_iff_eq_none.mp fun hsome => hnot ?_)
    exact List.mem_map_of_mem (hmem.mpr ⟨(mem_leftRows.mp hy).1, hsome⟩)
  · refine h.imp_of_mem fun {x y} hx _ hxy hname => hxy.1 ?_
    rw [updated_name hname]
  · refine (h.and (List.pairwise_map.mp hnodup)).imp_of_mem fun {x y} hx hy hxy => ?_
    obtain ⟨name, hname⟩ := Option.isSome_iff_exists.mp (hmem.mp hx).2
    obtain ⟨name', hname'⟩ := Option.isSome_iff_exists.mp (hmem.mp hy).2
    rw [updated_name hname, updated_name hname']
    refine ⟨fun heq => hxy.1 (heq ▸ hname), ?_⟩
    rintro rfl
    exact hxy.2 (pk_unique hname hname')

end Forail.InventoryImport
