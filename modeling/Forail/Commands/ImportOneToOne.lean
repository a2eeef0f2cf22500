import Forail.Commands.ImportRenames

/-! When the rows of an inventory are matched with the hosts of the data by their instance IDs first, and
the import of the data goes through. A row with the name of a host takes that host from the row with its
instance ID, and a row cannot get its new name while another one has it. -/

namespace Forail.InventoryImport

section Definitions
variable (text : Text) (db : Database) (set : Settings) (data : MemData) (inv : Inventory)

/-- The map is one to one and prefers instance IDs, and the import ends with one row for each host. -/
structure OneToOne : Prop where
  maps : ∀ pk name, (buildPkMemHostMap text db set inv data).get? pk = some name →
    name ∈ data.hosts.keys ∧ ∃ host ∈ inv.hosts.rows, host.pk = pk
  injective : ∀ pk pk' name, (buildPkMemHostMap text db set inv data).get? pk = some name →
    (buildPkMemHostMap text db set inv data).get? pk' = some name → pk = pk'
  prefersId : ∀ name, (∃ host ∈ inv.hosts.rows, HasInstanceId text db set data inv host name) →
    ∃ host ∈ inv.hosts.rows, HasInstanceId text db set data inv host name ∧
      (buildPkMemHostMap text db set inv data).get? host.pk = some name
  completes : ∃ inv', loadIntoDatabase text db set data inv = some inv' ∧
    (∀ name ∈ data.hosts.keys, ∃! host, host ∈ inv'.hosts.rows ∧ host.name = name) ∧
    ∀ pk name, (buildPkMemHostMap text db set inv data).get? pk = some name →
      ∃ host ∈ inv'.hosts.rows, host.pk = pk ∧ host.name = name

/-- A row that is matched: the last one with an instance ID of the data, or one without that has the name
of a host. -/
def matchedRow (host : Host) : Bool :=
  match foundById text db set data inv host with
  | some name => (lastById text db set data inv name).map Host.pk = some host.pk
  | none => host.name ∈ data.hosts.keys

/-- The rows in the order in which they are updated. -/
def updateOrder : List Host := db.order (inv.hosts.rows.filter (matchedRow text db set data inv))

/-- No name is in the way of a match by instance ID. -/
structure NamesFree : Prop where
  names : ∀ x ∈ inv.hosts.rows, foundById text db set data inv x = none →
    ∀ y ∈ inv.hosts.rows, foundById text db set data inv y ≠ some x.name
  order : (updateOrder text db set data inv).Pairwise fun x y =>
    foundById text db set data inv x ≠ some y.name
  others : ∀ x ∈ inv.hosts.rows, ∀ name, foundById text db set data inv x = some name →
    lastById text db set data inv name ≠ some x →
    lastById text db set data inv x.name = none ∨ set.overwrite = true ∧ x.pk ∈ inv.sourceHosts
  texts : ∀ name ∈ data.hosts.keys, (∀ x ∈ inv.hosts.rows, foundById text db set data inv x ≠ some name ∧
    (foundById text db set data inv x = none → x.name ≠ name)) → text.jinja name = false

end Definitions

section OneToOne
variable {text : Text} {db : Database} {set : Settings} {data : MemData} {inv : Inventory}
variable (hdata : Identified text set data)
include hdata

/-- The host of the data that a row is matched with. -/
theorem get?_pk_iff {host : Host} (hmem : host ∈ inv.hosts.rows) {name : String} :
    (buildPkMemHostMap text db set inv data).get? host.pk = some name ↔
      FoundByName text db set data inv host name ∨ lastById text db set data inv name = some host ∧
        ∀ other ∈ inv.hosts.rows, ¬ FoundByName text db set data inv other name := by
  rw [get?_map_iff hdata]
  refine ⟨?_, fun h => ⟨host, hmem, rfl, h⟩⟩
  rintro ⟨other, hother, hpk, h⟩
  rwa [inv.hosts.eq_of_pk hother hmem hpk] at h

section NamesFree
variable (hnames : ∀ x ∈ inv.hosts.rows, foundById text db set data inv x = none →
  ∀ y ∈ inv.hosts.rows, foundById text db set data inv y ≠ some x.name)
include hnames

/-- The last row with the instance ID of a host is matched with it. -/
theorem get?_of_lastById {host : Host} {name : String}
    (h : lastById text db set data inv name = some host) :
    (buildPkMemHostMap text db set inv data).get? host.pk = some name := by
  obtain ⟨hmem, hfound⟩ := of_lastById h
  refine (get?_pk_iff hdata hmem).mpr (.inr ⟨h, fun other hother hname => ?_⟩)
  exact hnames other hother hname.1 host hmem (hname.2.1.symm ▸ hfound)

theorem isSome_eq_matchedRow {host : Host} (hmem : host ∈ inv.hosts.rows) :
    ((buildPkMemHostMap text db set inv data).get? host.pk).isSome =
      matchedRow text db set data inv host := by
  rw [Bool.eq_iff_iff, Option.isSome_iff_exists, matchedRow]
  cases hfound : foundById text db set data inv host with
  | none =>
    refine ⟨?_, fun h => ⟨host.name, (get?_pk_iff hdata hmem).mpr
      (.inl ⟨hfound, rfl, of_decide_eq_true h⟩)⟩⟩
    rintro ⟨name, hname⟩
    rcases (get?_pk_iff hdata hmem).mp hname with ⟨-, rfl, hkey⟩ | ⟨hlast, -⟩
    · exact decide_eq_true hkey
    · rw [(of_lastById hlast).2] at hfound
      exact absurd hfound (Option.some_ne_none _)
  | some name =>
    refine ⟨?_, fun h => ⟨name, ?_⟩⟩
    · rintro ⟨name', hname'⟩
      rcases (get?_pk_iff hdata hmem).mp hname' with ⟨hnone, -⟩ | ⟨hlast, -⟩
      · rw [hfound] at hnone
        exact absurd hnone (Option.some_ne_none _)
      · have heq := (of_lastById hlast).2
        rw [hfound] at heq
        obtain rfl := Option.some.inj heq
        exact decide_eq_true (by rw [hlast, Option.map_some])
    · obtain ⟨last, hlast, hpk⟩ := Option.map_eq_some_iff.mp (of_decide_eq_true h)
      obtain rfl := inv.hosts.eq_of_pk (of_lastById hlast).1 hmem hpk
      exact get?_of_lastById hdata hnames hlast

theorem hostsToUpdate_eq : hostsToUpdate db (buildPkMemHostMap text db set inv data)
    (leftRows text db set data inv) = updateOrder text db set data inv := by
  have hrows : (leftRows text db set data inv).hosts.rows.filter (fun host =>
      ((buildPkMemHostMap text db set inv data).get? host.pk).isSome) =
      inv.hosts.rows.filter fun host =>
        ((buildPkMemHostMap text db set inv data).get? host.pk).isSome := by
    rw [leftRows, createUpdateGroups_hosts.1, remaining]
    by_cases hover : set.overwrite = true
    · rw [if_pos hover]
      show (List.filter _ (List.filter _ _)) = _
      rw [List.filter_filter]
      refine List.filter_congr fun host _ => ?_
      by_cases hsome : ((buildPkMemHostMap text db set inv data).get? host.pk).isSome = true
      · simp [hsome]
      · simp [hsome]
    · rw [if_neg hover]
  rw [hostsToUpdate, hrows, updateOrder]
  exact congrArg db.order (List.filter_congr fun host hmem => isSome_eq_matchedRow hdata hnames hmem)

/-- The updates go through if and only if no row has the new name of one that comes before it, or that
leaves it unmatched. -/
theorem exists_updateHosts_iff :
    (∃ r, updateHosts text db set data (buildPkMemHostMap text db set inv data)
        (leftRows text db set data inv) = some r) ↔
      (updateOrder text db set data inv).Pairwise (fun x y =>
        foundById text db set data inv x ≠ some y.name) ∧
      ∀ x ∈ inv.hosts.rows, ∀ name, foundById text db set data inv x = some name →
        lastById text db set data inv name ≠ some x →
        lastById text db set data inv x.name = none ∨ set.overwrite = true ∧ x.pk ∈ inv.sourceHosts := by
  rw [exists_updateHosts, hostsToUpdate_eq hdata hnames, and_comm]
  have hupdated : ∀ x ∈ updateOrder text db set data inv, x ∈ inv.hosts.rows ∧
      ((buildPkMemHostMap text db set inv data).get? x.pk).isSome = true := fun x hx => by
    obtain ⟨hmem, hmatched⟩ := List.mem_filter.mp ((db.perm _).mem_iff.mp hx)
    exact ⟨hmem, (isSome_eq_matchedRow hdata hnames hmem).trans hmatched⟩
  refine and_congr ⟨fun h => ?_, fun h => ?_⟩ ⟨fun h x hx name hname hlast => ?_, fun h pk name hpk y hy hnone heq => ?_⟩
  · refine h.imp_of_mem fun {x y} hx _ hne hfound => hne ?_
    obtain ⟨hmem, hsome⟩ := hupdated x hx
    obtain ⟨name, hname⟩ := Option.isSome_iff_exists.mp hsome
    rcases (get?_pk_iff hdata hmem).mp hname with ⟨hnone, -⟩ | ⟨hlast, -⟩
    · rw [hfound] at hnone
      exact absurd hnone (Option.some_ne_none _)
    · have heq := (of_lastById hlast).2
      rw [hfound] at heq
      rw [hname, ← heq]
  · have hdistinct : (updateOrder text db set data inv).Pairwise fun x y => x.pk ≠ y.pk := by
      have hnodup : ((hostsToUpdate db (buildPkMemHostMap text db set inv data)
          (leftRows text db set data inv)).map Host.pk).Nodup := nodup_hostsToUpdate _
      rw [hostsToUpdate_eq hdata hnames] at hnodup
      exact List.pairwise_map.mp hnodup
    refine (h.and hdistinct).imp_of_mem fun {x y} hx hy hxy hget => ?_
    rcases (get?_pk_iff hdata (hupdated x hx).1).mp hget with ⟨-, hname, -⟩ | ⟨hlast, -⟩
    · exact hxy.2 (congrArg Host.pk (inv.hosts.eq_of_name (hupdated x hx).1 (hupdated y hy).1 hname))
    · exact hxy.1 (of_lastById hlast).2
  · by_contra hnot
    rw [not_or] at hnot
    obtain ⟨last, hlast'⟩ := Option.ne_none_iff_exists'.mp hnot.1
    have hnone : (buildPkMemHostMap text db set inv data).get? x.pk = none := by
      refine Option.eq_none_iff_forall_ne_some.mpr fun name' hname' => ?_
      rcases (get?_pk_iff hdata hx).mp hname' with ⟨hnone, -⟩ | ⟨hlast₂, -⟩
      · rw [hname] at hnone
        exact Option.some_ne_none _ hnone
      · have heq := (of_lastById hlast₂).2
        rw [hname] at heq
        obtain rfl := Option.some.inj heq
        exact hlast hlast₂
    refine h last.pk x.name (get?_of_lastById hdata hnames hlast') x ?_ hnone rfl
    exact mem_leftRows.mpr ⟨hx, fun hover hsource => absurd ⟨hover, hsource⟩ hnot.2⟩
  · obtain ⟨hymem, hsource⟩ := mem_leftRows.mp hy
    obtain ⟨hkey, x, hx, rfl⟩ := mem_data_of_get? hpk
    cases hfound : foundById text db set data inv y with
    | none =>
      rw [(get?_pk_iff hdata hymem).mpr (.inl ⟨hfound, heq, hkey⟩)] at hnone
      exact Option.some_ne_none _ hnone
    | some name' =>
      have hlast : lastById text db set data inv name' ≠ some y := fun hlast => by
        rw [get?_of_lastById hdata hnames hlast] at hnone
        exact Option.some_ne_none _ hnone
      rcases h y hymem name' hfound hlast with hnoLast | ⟨hover, hsourceMem⟩
      · rcases (get?_pk_iff hdata hx).mp hpk with ⟨-, hname, -⟩ | ⟨hlast', -⟩
        · obtain rfl := inv.hosts.eq_of_name hx hymem (hname.trans heq.symm)
          rw [hnone] at hpk
          exact Option.some_ne_none _ hpk.symm
        · rw [heq, hlast'] at hnoLast
          exact Option.some_ne_none _ hnoLast
      · have hsome := hsource hover hsourceMem
        rw [hnone] at hsome
        exact absurd hsome (by simp)

/-- The names of hosts that are created. -/
theorem mem_created_iff {rows : List Host} {inv₁ : Inventory}
    (hupdate : updateHosts text db set data (buildPkMemHostMap text db set inv data)
      (leftRows text db set data inv) = some (inv₁, rows)) {name : String} :
    name ∈ memHostNamesToCreate data (buildPkMemHostMap text db set inv data) rows ↔
      name ∈ data.hosts.keys ∧ ∀ x ∈ inv.hosts.rows, foundById text db set data inv x ≠ some name ∧
        (foundById text db set data inv x = none → x.name ≠ name) := by
  rw [mem_memHostNamesToCreate]
  refine and_congr_right fun hkey => ⟨fun h x hx => ?_, fun h x hx hget => ?_⟩
  · have hno : ∀ y ∈ inv.hosts.rows, (buildPkMemHostMap text db set inv data).get? y.pk ≠ some name :=
      fun y hy hget => h y ((mem_rows hupdate).mpr ⟨hy, by rw [hget]; rfl⟩) hget
    refine ⟨fun hfound => ?_, fun hfound hname => ?_⟩
    · obtain ⟨last, hlast⟩ := exists_lastById hx hfound
      exact hno last (of_lastById hlast).1 (get?_of_lastById hdata hnames hlast)
    · exact hno x hx ((get?_pk_iff hdata hx).mpr (.inl ⟨hfound, hname, hkey⟩))
  · have hxmem := ((mem_rows hupdate).mp hx).1
    rcases (get?_pk_iff hdata hxmem).mp hget with ⟨hnone, hname, -⟩ | ⟨hlast, -⟩
    · exact (h x hxmem).2 hnone hname
    · exact (h x hxmem).1 (of_lastById hlast).2

end NamesFree

/-- A match by instance ID that is preferred leaves no row with the name in its way. -/
theorem names_of_prefersId (h : ∀ name, (∃ host ∈ inv.hosts.rows, HasInstanceId text db set data inv host name) →
    ∃ host ∈ inv.hosts.rows, HasInstanceId text db set data inv host name ∧
      (buildPkMemHostMap text db set inv data).get? host.pk = some name) :
    ∀ x ∈ inv.hosts.rows, foundById text db set data inv x = none →
      ∀ y ∈ inv.hosts.rows, foundById text db set data inv y ≠ some x.name := by
  intro x hx hnone y hy hfound
  have hy' := (foundById_iff hdata hy).mp hfound
  obtain ⟨z, hz, hid, hget⟩ := h x.name ⟨y, hy, hy'⟩
  obtain ⟨vars, hvars, -⟩ := hy'
  have hname : (buildPkMemHostMap text db set inv data).get? x.pk = some x.name :=
    (get?_pk_iff hdata hx).mpr (.inl ⟨hnone, rfl, Dict.mem_keys_of_get? hvars⟩)
  obtain rfl := inv.hosts.eq_of_pk hz hx (pk_unique hget hname)
  rw [(foundById_iff hdata hz).mpr hid] at hnone
  exact Option.some_ne_none _ hnone

/-- The rows are matched one to one and the import goes through if and only if no name is in the way. -/
theorem oneToOne_iff : OneToOne text db set data inv ↔ NamesFree text db set data inv := by
  constructor
  · rintro ⟨-, -, hprefers, inv', hload, -⟩
    have hnames := names_of_prefersId hdata hprefers
    obtain ⟨⟨inv₁, rows⟩, hupdate, hcreate⟩ := Option.bind_eq_some_iff.mp hload
    dsimp only at hupdate hcreate
    rw [← remaining, ← leftRows] at hupdate
    obtain ⟨horder, hothers⟩ := (exists_updateHosts_iff hdata hnames).mp ⟨_, hupdate⟩
    refine ⟨hnames, horder, hothers, fun name hkey hfree => ?_⟩
    refine (exists_createHosts fun name' hname' => ?_).mp ⟨inv', hcreate⟩ name ?_
    · exact ((mem_created_iff hdata hnames hupdate).mp hname').1
    · exact (mem_created_iff hdata hnames hupdate).mpr ⟨hkey, hfree⟩
  · rintro ⟨hnames, horder, hothers, htexts⟩
    obtain ⟨⟨inv₁, rows⟩, hupdate⟩ := (exists_updateHosts_iff hdata hnames).mpr ⟨horder, hothers⟩
    obtain ⟨inv', hcreate⟩ := (@exists_createHosts text set data inv₁ _ fun name' hname' =>
      ((mem_created_iff hdata hnames hupdate).mp hname').1).mpr fun name hname =>
        have hfree := (mem_created_iff hdata hnames hupdate).mp hname
        htexts name hfree.1 hfree.2
    have hload : loadIntoDatabase text db set data inv = some inv' :=
      Option.bind_eq_some_iff.mpr ⟨(inv₁, rows), hupdate, hcreate⟩
    have hmatched : ∀ pk name, (buildPkMemHostMap text db set inv data).get? pk = some name →
        ∃ host ∈ inv'.hosts.rows, host.pk = pk ∧ host.name = name := by
      intro pk name hget
      obtain ⟨hkey, host, hmem, rfl⟩ := mem_data_of_get? hget
      obtain ⟨vars, hvars⟩ := Dict.get?_of_mem_keys hkey
      exact ⟨_, (mem_of_matched hupdate hcreate hmem hget hvars).1, rfl, rfl⟩
    refine ⟨fun pk name hget => mem_data_of_get? hget, fun pk pk' name h h' => pk_unique h h',
      fun name => ?_, inv', hload, fun name hkey => ?_, hmatched⟩
    · rintro ⟨host, hmem, hid⟩
      obtain ⟨last, hlast⟩ := exists_lastById hmem ((foundById_iff hdata hmem).mpr hid)
      obtain ⟨hlastMem, hfound⟩ := of_lastById hlast
      exact ⟨last, hlastMem, (foundById_iff hdata hlastMem).mp hfound, get?_of_lastById hdata hnames hlast⟩
    · have hexists : ∃ host, host ∈ inv'.hosts.rows ∧ host.name = name := by
        by_cases hcreated : name ∈ memHostNamesToCreate data (buildPkMemHostMap text db set inv data) rows
        · obtain ⟨hnew, -⟩ := createHosts_some (nodup_memHostNamesToCreate _ _) hcreate
          obtain ⟨vars, -, host, hmem, hhost, -⟩ := hnew name hcreated
          exact ⟨host, hmem, hhost.named⟩
        · rw [mem_memHostNamesToCreate, not_and] at hcreated
          push Not at hcreated
          obtain ⟨host, -, hget⟩ := hcreated hkey
          obtain ⟨row, hmem, -, hname⟩ := hmatched host.pk name hget
          exact ⟨row, hmem, hname⟩
      obtain ⟨host, hmem, hname⟩ := hexists
      exact ⟨host, ⟨hmem, hname⟩, fun other h => inv'.hosts.eq_of_name h.1 hmem (h.2.trans hname.symm)⟩

end OneToOne

section Examples

/-- A host whose row has its instance ID stored, and another name. -/
def renamedRow : Inventory where
  hosts := ⟨[⟨1, "old", .str "", ∅, true, "i"⟩], 2, by decide, by decide, by decide⟩
  groups := Dict.empty
  sourceHosts := {1}
  sourceGroups := ∅

/-- Two rows with each other's names. -/
def swappedRows : Inventory where
  hosts := ⟨[⟨1, "a", .str "", ∅, true, "j"⟩, ⟨2, "b", .str "", ∅, true, "i"⟩], 3, by decide, by decide,
    by decide⟩
  groups := Dict.empty
  sourceHosts := {1, 2}
  sourceGroups := ∅

/-- A row with the instance ID of the host, and one with its name. -/
def namedRow : Inventory where
  hosts := ⟨[⟨1, "old", .str "", ∅, true, "i"⟩, ⟨2, "a", .str "", ∅, true, ""⟩], 3, by decide, by decide,
    by decide⟩
  groups := Dict.empty
  sourceHosts := {1}
  sourceGroups := ∅

def twoIds : MemData where
  hosts := ⟨[("a", withId "i"), ("b", withId "j")], by decide⟩
  groups := Dict.empty

theorem identified_of_entries {text : Text} {set : Settings} {data : MemData}
    (hne : ∀ e ∈ data.hosts.entries, getInstanceId text set e.2 ≠ "")
    (hdistinct : ∀ e ∈ data.hosts.entries, ∀ e' ∈ data.hosts.entries,
      getInstanceId text set e.2 = getInstanceId text set e'.2 → e.1 = e'.1) :
    Identified text set data where
  ne_empty name vars h := hne (name, vars) (Dict.mem_entries_of_get? h)
  distinct name vars name' vars' h h' :=
    hdistinct (name, vars) (Dict.mem_entries_of_get? h) (name', vars') (Dict.mem_entries_of_get? h')

theorem renamed_one_to_one : OneToOne plainText inOrder onById oneHost renamedRow := by
  have hdata : Identified plainText onById oneHost := identified_of_entries (by decide) (by decide)
  refine (oneToOne_iff hdata).mpr ⟨by decide, by decide, fun x hx name hname hlast => .inr ⟨rfl, ?_⟩,
    fun _ _ _ => rfl⟩
  obtain rfl := List.mem_singleton.mp hx
  decide

/-- Two rows cannot change their names, and the row with the name of a host takes it from the row with its
instance ID. -/
theorem swap_fails : Identified plainText onById twoIds ∧
    loadIntoDatabase plainText inOrder onById twoIds swappedRows = none ∧
    ¬ OneToOne plainText inOrder onById twoIds swappedRows ∧
    Identified plainText onById oneHost ∧
    (buildPkMemHostMap plainText inOrder onById namedRow oneHost).entries = [(2, "a")] ∧
    ¬ OneToOne plainText inOrder onById oneHost namedRow := by
  have hswap : (loadIntoDatabase plainText inOrder onById twoIds swappedRows).isNone = true := by decide
  have hnamed : (buildPkMemHostMap plainText inOrder onById namedRow oneHost).entries = [(2, "a")] := by
    decide
  have hdata : Identified plainText onById oneHost := identified_of_entries (by decide) (by decide)
  refine ⟨identified_of_entries (by decide) (by decide), Option.isNone_iff_eq_none.mp hswap, fun h => ?_,
    hdata, hnamed, fun h => ?_⟩
  · obtain ⟨inv', hload, -⟩ := h.completes
    rw [hload] at hswap
    exact absurd hswap (by simp)
  · have hnames := names_of_prefersId hdata h.prefersId
    exact absurd hnames (by decide)

end Examples

end Forail.InventoryImport
