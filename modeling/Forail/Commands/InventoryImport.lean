import Forail.Base.Dict
import Forail.Base.Table
import Forail.Commands.ImportVariables
import Mathlib.Data.List.Sort

/-! The import of an in-memory inventory. Rows of the inventory are matched with the hosts of the
data, by instance ID and then by name; matched rows are updated, the other hosts created. An
error undoes the whole import. -/

namespace Forail.InventoryImport

structure Host where
  pk : ℕ
  name : String
  description : Value
  vars : Variables
  enabled : Bool
  instanceId : String

/-- A group; its name is its key. -/
structure Group where
  description : Value
  vars : Variables

/-- The rows of an inventory, and those that its source has imported. -/
structure Inventory where
  hosts : Table Host.pk Host.name
  groups : Dict String Group
  sourceHosts : Finset ℕ
  sourceGroups : Finset String

/-- Hosts and groups of the in-memory inventory, by name. -/
structure MemData where
  hosts : Dict String Variables
  groups : Dict String Variables

/-- What queries leave to the database: the order of the rows, and whether the text of a row's
variables contains another one. -/
structure Database where
  order : List Host → List Host
  perm : ∀ hosts, (order hosts).Perm hosts
  contains : Host → String → Bool

section Definitions
variable (text : Text) (db : Database) (set : Settings)

def noteInstanceId (ids : Dict String ℕ) (host : Host) : Dict String ℕ :=
  let instanceId := getInstanceId text set host.vars
  if instanceId = "" then ids else ids.set instanceId host.pk

/-- One turn of `_build_db_instance_id_map`; each filter narrows the rows of the last one. -/
def noteInstanceIds (s : List Host × Dict String ℕ) (part : List String) :
    List Host × Dict String ℕ :=
  let hosts := s.1.filter fun host => host.instanceId = "" ∧ db.contains host (part.headD "") = true
  (hosts, (db.order hosts).foldl (noteInstanceId text set) s.2)

/-- `_build_db_instance_id_map`. -/
def buildDbInstanceIdMap (inv : Inventory) : Dict String ℕ :=
  (set.instanceIdVar.reverse.foldl (noteInstanceIds text db set)
    (inv.hosts.rows.filter fun host => host.pk ∈ inv.sourceHosts, Dict.empty)).2

/-- `mem_host_pk_map_by_id`. -/
def memHostPkMapById (ids : Dict String ℕ) (data : MemData) : Dict ℕ String :=
  data.hosts.entries.foldl (fun byId e =>
    match ids.get? (getInstanceId text set e.2) with
    | some pk => byId.set pk e.1
    | none => byId) Dict.empty

/-- `mem_host_instance_id_map`. -/
def memHostInstanceIdMap (ids : Dict String ℕ) (data : MemData) : Dict String String :=
  data.hosts.entries.foldl (fun byId e =>
    let instanceId := getInstanceId text set e.2
    match ids.get? instanceId with
    | some _ => byId
    | none => if instanceId = "" then byId else byId.set instanceId e.1) Dict.empty

/-- `mem_host_pk_map` and `host_pks_updated`. -/
structure Matched where
  pks : Dict String ℕ
  updated : Finset ℕ

/-- Match a row with the host that is found for it, unless it is matched. -/
def assign (find : Host → Option String) (m : Matched) (host : Host) : Matched :=
  match find host with
  | none => m
  | some name =>
    if host.pk ∈ m.updated then m
    else { pks := m.pks.set name host.pk, updated := insert host.pk m.updated }

def matchHosts (rows : List Host) (find : Host → Option String) (m : Matched) : Matched :=
  (db.order (rows.filter fun host => (find host).isSome)).foldl (assign find) m

/-- Lookups by the row instead of the name. -/
def rotate (pks : Dict String ℕ) : Dict ℕ String :=
  pks.entries.foldl (fun names e => names.set e.2 e.1) Dict.empty

def matchedHosts (rows : List Host) (ids : Dict String ℕ) (data : MemData) : Matched :=
  let m := matchHosts db rows (fun host => (memHostPkMapById text set ids data).get? host.pk)
    ⟨Dict.empty, ∅⟩
  let m := matchHosts db rows
    (fun host => (memHostInstanceIdMap text set ids data).get? host.instanceId) m
  matchHosts db rows (fun host => (data.hosts.get? host.name).map fun _ => host.name) m

/-- `_build_pk_mem_host_map`. -/
def buildPkMemHostMap (inv : Inventory) (data : MemData) : Dict ℕ String :=
  rotate (matchedHosts text db set inv.hosts.rows (buildDbInstanceIdMap text db set inv) data).pks

/-- `_delete_hosts`. -/
def deleteHosts (pkMemHostMap : Dict ℕ String) (inv : Inventory) : Inventory :=
  { inv with
    hosts := inv.hosts.keep fun host =>
      host.pk ∉ inv.sourceHosts ∨ (pkMemHostMap.get? host.pk).isSome = true
    sourceHosts := inv.sourceHosts.filter fun pk => (pkMemHostMap.get? pk).isSome = true }

/-- `_delete_groups`. -/
def deleteGroups (data : MemData) (inv : Inventory) : Inventory :=
  { inv with
    groups := inv.groups.filter fun name => name ∉ inv.sourceGroups ∨ name ∈ data.groups.keys
    sourceGroups := inv.sourceGroups.filter fun name => name ∈ data.groups.keys }

/-- A group of the data as it is stored, over its row or as a new one. -/
def importGroup (stored : Option Group) (vars : Variables) : Group :=
  match stored with
  | some group =>
    let dbVars := mergeVariables set group.vars vars
    if dbVars.eq group.vars then group else { group with vars := dbVars }
  | none =>
    { description := (vars.lookup descriptionKey).getD (.str "imported")
      vars := vars.erase descriptionKey }

def createUpdateGroup (inv : Inventory) (e : String × Variables) : Inventory :=
  { inv with
    groups := inv.groups.set e.1 (importGroup set (inv.groups.get? e.1) e.2)
    sourceGroups := insert e.1 inv.sourceGroups }

/-- `_create_update_groups`; no two groups of the data have one name. -/
def createUpdateGroups (data : MemData) (inv : Inventory) : Inventory :=
  data.groups.entries.foldl (createUpdateGroup set) inv

/-- `_update_db_host_from_mem_host`. -/
def updateDbHostFromMemHost (host : Host) (name : String) (memVars : Variables) : Host :=
  let instanceId := getInstanceId text set memVars
  let memVars := removeRemote set memVars
  let dbVars := mergeVariables set host.vars memVars
  { host with
    instanceId
    vars := if dbVars.eq host.vars then host.vars else dbVars
    enabled := (getEnabled text set memVars).getD host.enabled
    name }

def updateHost (data : MemData) (pkMemHostMap : Dict ℕ String) (hosts : Table Host.pk Host.name)
    (host : Host) : Option (Table Host.pk Host.name) := do
  let name ← pkMemHostMap.get? host.pk
  let memVars ← data.hosts.get? name
  hosts.save (updateDbHostFromMemHost text set host name memVars)

def hostsToUpdate (pkMemHostMap : Dict ℕ String) (inv : Inventory) : List Host :=
  db.order (inv.hosts.rows.filter fun host => (pkMemHostMap.get? host.pk).isSome)

/-- The first half of `_create_update_hosts`, with the rows that it updates. -/
def updateHosts (data : MemData) (pkMemHostMap : Dict ℕ String) (inv : Inventory) :
    Option (Inventory × List Host) := do
  let rows := hostsToUpdate db pkMemHostMap inv
  let hosts ← rows.foldlM (updateHost text set data pkMemHostMap) inv.hosts
  return ({ inv with hosts, sourceHosts := inv.sourceHosts ∪ (rows.map Host.pk).toFinset }, rows)

/-- A host of the data that no row was matched with; a row of its name is updated even so. -/
def createHost (hosts : Table Host.pk Host.name) (name : String) (importVars : Variables) :
    Option (Table Host.pk Host.name × ℕ) :=
  let description := (importVars.lookup descriptionKey).getD (.str "imported")
  let importVars := importVars.erase descriptionKey
  let enabled := getEnabled text set importVars
  let instanceId :=
    if set.instanceIdVar = [] then none else some (getInstanceId text set importVars)
  let vars := removeRemote set importVars
  if text.jinja name then none
  else
    match hosts.ofName name with
    | some host => do
      let hosts ← hosts.save { host with
        description, vars
        enabled := enabled.getD host.enabled
        instanceId := instanceId.getD host.instanceId }
      return (hosts, host.pk)
    | none => do
      let pk := hosts.next
      let hosts ← hosts.insert { pk, name, description, vars
                                 enabled := enabled.getD true
                                 instanceId := instanceId.getD "" } rfl
      return (hosts, pk)

def createHosts (data : MemData) (names : List String) (inv : Inventory) : Option Inventory :=
  names.foldlM (fun inv name => do
    let importVars ← data.hosts.get? name
    let (hosts, pk) ← createHost text set inv.hosts name importVars
    return { inv with hosts, sourceHosts := insert pk inv.sourceHosts }) inv

/-- `mem_host_names_to_create`, sorted. -/
def memHostNamesToCreate (data : MemData) (pkMemHostMap : Dict ℕ String) (updated : List Host) :
    List String :=
  (data.hosts.keys.filter fun name =>
    name ∉ updated.filterMap fun host => pkMemHostMap.get? host.pk).insertionSort (· ≤ ·)

/-- `load_into_database`. -/
def loadIntoDatabase (data : MemData) (inv : Inventory) : Option Inventory := do
  let pkMemHostMap := buildPkMemHostMap text db set inv data
  let inv := if set.overwrite then deleteGroups data (deleteHosts pkMemHostMap inv) else inv
  let inv := createUpdateGroups set data inv
  let (inv, updated) ← updateHosts text db set data pkMemHostMap inv
  createHosts text set data (memHostNamesToCreate data pkMemHostMap updated) inv

end Definitions

end Forail.InventoryImport
