import Forail.Commands.InventoryImport

/-! How an import matches the rows of the inventory with the hosts of the data. No row is matched
with two hosts and no host with two rows. Where the passes by instance ID match rows with the
hosts of their own names only, every row with the name of a host is matched with it. -/

namespace Forail.InventoryImport

variable {text : Text} {db : Database} {set : Settings} {data : MemData}

/-! ### Instance IDs of rows that have none stored -/

/-- Each ID is read off the variables of a row without a stored one. -/
def Noted (text : Text) (set : Settings) (rows : List Host) (ids : Dict String ℕ) : Prop :=
  ∀ instanceId pk, ids.get? instanceId = some pk → instanceId ≠ "" ∧ ∃ host ∈ rows,
    host.pk = pk ∧ host.instanceId = "" ∧ getInstanceId text set host.vars = instanceId

theorem Noted.note {rows : List Host} {ids : Dict String ℕ} (h : Noted text set rows ids)
    {host : Host} (hmem : host ∈ rows) (hempty : host.instanceId = "") :
    Noted text set rows (noteInstanceId text set ids host) := by
  unfold noteInstanceId
  dsimp only
  split_ifs with hid
  · exact h
  · intro instanceId pk hget
    rcases Dict.of_get?_set hget with ⟨rfl, rfl⟩ | ⟨-, hget⟩
    · exact ⟨hid, host, hmem, rfl, hempty, rfl⟩
    · exact h instanceId pk hget

theorem noted (inv : Inventory) :
    Noted text set inv.hosts.rows (buildDbInstanceIdMap text db set inv) := by
  refine (List.foldlRecOn (motive := fun s : List Host × Dict String ℕ => (∀ host ∈ s.1, host ∈ inv.hosts.rows) ∧
    Noted text set inv.hosts.rows s.2) _ _ ⟨fun host hm => (List.mem_filter.mp hm).1, ?_⟩
    fun s hs part _ => ⟨fun host hm => hs.1 host (List.mem_filter.mp hm).1, ?_⟩).2
  · intro instanceId pk hget
    cases hget
  · refine List.foldlRecOn _ _ hs.2 fun ids h host hm => ?_
    have hfilter := List.mem_filter.mp ((db.perm _).mem_iff.mp hm)
    exact h.note (hs.1 host hfilter.1) (of_decide_eq_true hfilter.2).1

theorem buildDbInstanceIdMap_unset (h : set.instanceIdVar = []) (inv : Inventory) :
    buildDbInstanceIdMap text db set inv = Dict.empty := by
  rw [buildDbInstanceIdMap, h]
  rfl

/-! ### The two maps by instance ID -/

variable {ids : Dict String ℕ}

theorem of_memHostPkMapById {pk : ℕ} {name : String}
    (h : (memHostPkMapById text set ids data).get? pk = some name) :
    ∃ vars, data.hosts.get? name = some vars ∧ ids.get? (getInstanceId text set vars) = some pk := by
  refine List.foldlRecOn (motive := fun byId : Dict ℕ String => ∀ pk name, byId.get? pk = some name →
    ∃ vars, data.hosts.get? name = some vars ∧ ids.get? (getInstanceId text set vars) = some pk)
    _ _ ?_ (fun byId hby e he => ?_) pk name h
  · intro pk name hget
    cases hget
  · split
    case h_1 pk' hpk =>
      intro pk name hget
      rcases Dict.of_get?_set hget with ⟨rfl, rfl⟩ | ⟨-, hget⟩
      · exact ⟨e.2, Dict.get?_of_mem_entries he, hpk⟩
      · exact hby pk name hget
    case h_2 => exact hby

theorem of_memHostInstanceIdMap {instanceId name : String}
    (h : (memHostInstanceIdMap text set ids data).get? instanceId = some name) :
    instanceId ≠ "" ∧ ∃ vars, data.hosts.get? name = some vars ∧
      getInstanceId text set vars = instanceId := by
  refine List.foldlRecOn (motive := fun byId : Dict String String => ∀ instanceId name,
    byId.get? instanceId = some name → instanceId ≠ "" ∧
      ∃ vars, data.hosts.get? name = some vars ∧ getInstanceId text set vars = instanceId)
    _ _ ?_ (fun byId hby e he => ?_) instanceId name h
  · intro instanceId name hget
    cases hget
  · dsimp only
    split
    case h_1 => exact hby
    case h_2 =>
      split_ifs with hempty
      · exact hby
      · intro instanceId name hget
        rcases Dict.of_get?_set hget with ⟨rfl, rfl⟩ | ⟨-, hget⟩
        · exact ⟨hempty, e.2, Dict.get?_of_mem_entries he, rfl⟩
        · exact hby instanceId name hget

/-! ### The passes -/

/-- Hosts are of the data, and matched with rows one to one. -/
structure Matched.Valid (data : MemData) (rows : List Host) (m : Matched) : Prop where
  name : ∀ name pk, m.pks.get? name = some pk → name ∈ data.hosts.keys
  row : ∀ name pk, m.pks.get? name = some pk → ∃ host ∈ rows, host.pk = pk
  updated : ∀ name pk, m.pks.get? name = some pk → pk ∈ m.updated
  inj : ∀ name name' pk, m.pks.get? name = some pk → m.pks.get? name' = some pk → name = name'

/-- Matched rows with the name of a host are matched with it. -/
def Matched.Named (data : MemData) (rows : List Host) (m : Matched) : Prop :=
  ∀ host ∈ rows, host.name ∈ data.hosts.keys → host.pk ∈ m.updated →
    m.pks.get? host.name = some host.pk

theorem matchHosts_induction {P : Matched → Prop} {rows : List Host} {find : Host → Option String}
    {m : Matched} (hm : P m)
    (hstep : ∀ m host name, P m → host ∈ rows → find host = some name → host.pk ∉ m.updated →
      P { pks := m.pks.set name host.pk, updated := insert host.pk m.updated }) :
    P (matchHosts db rows find m) := by
  refine List.foldlRecOn _ _ hm fun m h host hmem => ?_
  have hfilter := List.mem_filter.mp ((db.perm _).mem_iff.mp hmem)
  unfold assign
  split
  case h_1 => exact h
  case h_2 name hfind =>
    split_ifs with hup
    · exact h
    · exact hstep m host name h hfilter.1 hfind hup

theorem Matched.Valid.matchHosts {rows : List Host} {find : Host → Option String} {m : Matched}
    (h : m.Valid data rows) (hfind : ∀ host name, find host = some name → name ∈ data.hosts.keys) :
    (matchHosts db rows find m).Valid data rows := by
  refine matchHosts_induction (P := fun m => m.Valid data rows) h
    fun m host name h hhost hname hup => ?_
  refine ⟨fun name' pk hget => ?_, fun name' pk hget => ?_, fun name' pk hget => ?_,
    fun name₁ name₂ pk h₁ h₂ => ?_⟩
  · rcases Dict.of_get?_set hget with ⟨rfl, -⟩ | ⟨-, hget⟩
    · exact hfind host _ hname
    · exact h.name name' pk hget
  · rcases Dict.of_get?_set hget with ⟨-, rfl⟩ | ⟨-, hget⟩
    · exact ⟨host, hhost, rfl⟩
    · exact h.row name' pk hget
  · rcases Dict.of_get?_set hget with ⟨-, rfl⟩ | ⟨-, hget⟩
    · exact Finset.mem_insert_self _ _
    · exact Finset.mem_insert_of_mem (h.updated name' pk hget)
  · rcases Dict.of_get?_set h₁ with ⟨rfl, hpk₁⟩ | ⟨-, hget₁⟩ <;>
      rcases Dict.of_get?_set h₂ with ⟨rfl, hpk₂⟩ | ⟨-, hget₂⟩
    · rfl
    · exact absurd (hpk₁ ▸ h.updated name₂ pk hget₂) hup
    · exact absurd (hpk₂ ▸ h.updated name₁ pk hget₁) hup
    · exact h.inj name₁ name₂ pk hget₁ hget₂

theorem Matched.Named.matchHosts {rows : Table Host.pk Host.name} {find : Host → Option String}
    {m : Matched} (h : m.Named data rows.rows)
    (hfind : ∀ host ∈ rows.rows, ∀ name, find host = some name → name = host.name) :
    (matchHosts db rows.rows find m).Named data rows.rows := by
  refine matchHosts_induction (P := fun m => m.Named data rows.rows) h
    fun m host name h hhost hname _ => ?_
  obtain rfl := hfind host hhost name hname
  intro host' hmem hkey hupdated
  rw [Dict.get?_set]
  split_ifs with heq
  · rw [rows.eq_of_name hmem hhost heq]
  · refine h host' hmem hkey ((Finset.mem_insert.mp hupdated).resolve_left fun hpk => ?_)
    exact heq (congrArg Host.name (rows.eq_of_pk hmem hhost hpk))

/-- After a pass all rows that it finds a host for are matched. -/
theorem mem_updated_matchHosts {rows : List Host} {find : Host → Option String} {m : Matched}
    {host : Host} (hmem : host ∈ rows) (hfind : (find host).isSome = true) :
    host.pk ∈ (matchHosts db rows find m).updated := by
  have hassign (m : Matched) (host' : Host) : m.updated ⊆ (assign find m host').updated := by
    unfold assign
    split
    · exact subset_rfl
    · split_ifs
      · exact subset_rfl
      · exact Finset.subset_insert _ _
  have hmono : ∀ (hosts : List Host) (m : Matched),
      m.updated ⊆ (hosts.foldl (assign find) m).updated := by
    intro hosts
    induction hosts with
    | nil => exact fun m => subset_rfl
    | cons host' hosts ih => exact fun m => (hassign m host').trans (ih _)
  have hfold : ∀ (hosts : List Host) (m : Matched), host ∈ hosts →
      host.pk ∈ (hosts.foldl (assign find) m).updated := by
    intro hosts
    induction hosts with
    | nil => nofun
    | cons host' hosts ih =>
      intro m hm
      rcases List.mem_cons.mp hm with rfl | hm
      · refine hmono hosts _ ?_
        obtain ⟨name, hname⟩ := Option.isSome_iff_exists.mp hfind
        rw [assign, hname]
        dsimp only
        split_ifs with hup
        · exact hup
        · exact Finset.mem_insert_self _ _
      · exact ih _ hm
  exact hfold _ m ((db.perm _).mem_iff.mpr (List.mem_filter.mpr ⟨hmem, hfind⟩))

/-! ### The map by rows -/

theorem get?_rotate {pks : Dict String ℕ}
    (hinj : ∀ name name' pk, pks.get? name = some pk → pks.get? name' = some pk → name = name')
    {pk : ℕ} {name : String} : (rotate pks).get? pk = some name ↔ pks.get? name = some pk := by
  have hof : ∀ pk name, (rotate pks).get? pk = some name → pks.get? name = some pk := by
    refine List.foldlRecOn (motive := fun names : Dict ℕ String =>
      ∀ pk name, names.get? pk = some name → pks.get? name = some pk) _ _ ?_ fun names h e he => ?_
    · intro pk name hget
      cases hget
    · intro pk name hget
      rcases Dict.of_get?_set hget with ⟨rfl, rfl⟩ | ⟨-, hget⟩
      · exact Dict.get?_of_mem_entries he
      · exact h pk name hget
  have hsome : ∀ (es : List (String × ℕ)) (names : Dict ℕ String),
      (∃ e ∈ es, e.2 = pk) ∨ (names.get? pk).isSome = true →
      ((es.foldl (fun names e => names.set e.2 e.1) names).get? pk).isSome = true := by
    intro es
    induction es with
    | nil => exact fun names h => h.resolve_left (by simp)
    | cons e es ih =>
      intro names h
      refine ih _ ?_
      rw [Dict.get?_set]
      split_ifs with hpk
      · exact .inr rfl
      · rcases h with ⟨e', he', hpk'⟩ | h
        · rcases List.mem_cons.mp he' with rfl | he'
          · exact absurd hpk'.symm hpk
          · exact .inl ⟨e', he', hpk'⟩
        · exact .inr h
  refine ⟨hof pk name, fun h => ?_⟩
  obtain ⟨name', hname'⟩ := Option.isSome_iff_exists.mp
    (hsome pks.entries Dict.empty (.inl ⟨_, Dict.mem_entries_of_get? h, rfl⟩))
  rw [show (rotate pks).get? pk = some name' from hname', hinj name' name pk (hof pk name' hname') h]

theorem matched_valid (rows : List Host) (ids : Dict String ℕ) :
    (matchedHosts text db set rows ids data).Valid data rows := by
  have hempty : Matched.Valid data rows ⟨Dict.empty, ∅⟩ := ⟨nofun, nofun, nofun, nofun⟩
  refine ((hempty.matchHosts fun host name h => ?_).matchHosts fun host name h => ?_).matchHosts
    fun host name h => ?_
  · obtain ⟨vars, hvars, -⟩ := of_memHostPkMapById h
    exact Dict.mem_keys_of_get? hvars
  · obtain ⟨-, vars, hvars, -⟩ := of_memHostInstanceIdMap h
    exact Dict.mem_keys_of_get? hvars
  · obtain ⟨vars, hvars, rfl⟩ := Option.map_eq_some_iff.mp h
    exact Dict.mem_keys_of_get? hvars

section Map
variable {inv : Inventory}

theorem get?_buildPkMemHostMap {pk : ℕ} {name : String} :
    (buildPkMemHostMap text db set inv data).get? pk = some name ↔
      (matchedHosts text db set inv.hosts.rows (buildDbInstanceIdMap text db set inv) data).pks.get?
        name = some pk :=
  get?_rotate (matched_valid _ _).inj

theorem mem_data_of_get? {pk : ℕ} {name : String}
    (h : (buildPkMemHostMap text db set inv data).get? pk = some name) :
    name ∈ data.hosts.keys ∧ ∃ host ∈ inv.hosts.rows, host.pk = pk :=
  have hmatch := get?_buildPkMemHostMap.mp h
  ⟨(matched_valid _ _).name name pk hmatch, (matched_valid _ _).row name pk hmatch⟩

/-- A host is matched with one row only. -/
theorem pk_unique {pk pk' : ℕ} {name : String}
    (h : (buildPkMemHostMap text db set inv data).get? pk = some name)
    (h' : (buildPkMemHostMap text db set inv data).get? pk' = some name) : pk = pk' :=
  Option.some.inj ((get?_buildPkMemHostMap.mp h).symm.trans (get?_buildPkMemHostMap.mp h'))

/-- Rows with the name of a host are matched with it, if no instance ID says otherwise. -/
theorem get?_of_name
    (hpk : ∀ host ∈ inv.hosts.rows, ∀ name, (memHostPkMapById text set
      (buildDbInstanceIdMap text db set inv) data).get? host.pk = some name →
      host.name ∉ data.hosts.keys)
    (hid : ∀ host ∈ inv.hosts.rows, ∀ name, (memHostInstanceIdMap text set
      (buildDbInstanceIdMap text db set inv) data).get? host.instanceId = some name →
      name = host.name) {host : Host} (hmem : host ∈ inv.hosts.rows)
    (hkey : host.name ∈ data.hosts.keys) :
    (buildPkMemHostMap text db set inv data).get? host.pk = some host.name := by
  have hfirst : Matched.Named data inv.hosts.rows (matchHosts db inv.hosts.rows (fun host =>
      (memHostPkMapById text set (buildDbInstanceIdMap text db set inv) data).get? host.pk)
      ⟨Dict.empty, ∅⟩) := by
    have hother : ∀ pk ∈ (matchHosts db inv.hosts.rows (fun host => (memHostPkMapById text set
        (buildDbInstanceIdMap text db set inv) data).get? host.pk) ⟨Dict.empty, ∅⟩).updated,
        ∃ host ∈ inv.hosts.rows, host.pk = pk ∧ host.name ∉ data.hosts.keys := by
      refine matchHosts_induction (P := fun m => ∀ pk ∈ m.updated, ∃ host ∈ inv.hosts.rows,
        host.pk = pk ∧ host.name ∉ data.hosts.keys) nofun fun m host name h hhost hname _ pk hup => ?_
      rcases Finset.mem_insert.mp hup with rfl | hup
      · exact ⟨host, hhost, rfl, hpk host hhost name hname⟩
      · exact h pk hup
    intro host hmem hkey hup
    obtain ⟨host', hmem', heq, hnot⟩ := hother host.pk hup
    rw [inv.hosts.eq_of_pk hmem' hmem heq] at hnot
    exact absurd hkey hnot
  obtain ⟨vars, hvars⟩ := Dict.get?_of_mem_keys hkey
  rw [get?_buildPkMemHostMap]
  refine ((hfirst.matchHosts hid).matchHosts fun host _ name hname => ?_) host hmem hkey
    (mem_updated_matchHosts hmem ?_)
  · obtain ⟨_, _, rfl⟩ := Option.map_eq_some_iff.mp hname
    rfl
  · rw [hvars]
    rfl

/-- Without an instance ID variable rows are matched by name. -/
theorem get?_of_unset (h : set.instanceIdVar = []) {host : Host} (hmem : host ∈ inv.hosts.rows)
    (hkey : host.name ∈ data.hosts.keys) :
    (buildPkMemHostMap text db set inv data).get? host.pk = some host.name := by
  refine get?_of_name (fun host _ name hget => ?_) (fun host _ name hget => ?_) hmem hkey
  · obtain ⟨vars, -, hids⟩ := of_memHostPkMapById hget
    rw [buildDbInstanceIdMap_unset h] at hids
    cases hids
  · obtain ⟨hne, vars, -, hid⟩ := of_memHostInstanceIdMap hget
    rw [getInstanceId_unset h] at hid
    exact absurd hid.symm hne

end Map

end Forail.InventoryImport
