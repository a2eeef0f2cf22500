import Forail.Base.Dict
import Forail.Base.Percent
import Forail.Base.Value

/-! The in-memory inventory, and its loading from and conversion to the dictionaries of dynamic
inventory sources. Hosts and groups are known by their names; the group `all` stands also for
`ungrouped`. -/

namespace Forail.InventoryData

abbrev Vars := Dict Str Value

/-! ### Dictionaries -/

/-- `hosts` of a group; variables are none where something else stands in their place. -/
inductive Hosts
  | dict (vars : Dict Str (Option Vars))
  | list (names : List Str)
  | other

/-- The keys that are read of a dictionary, and whether it has others. -/
structure Fields where
  hosts : Option Hosts
  vars : Option (Option Vars)
  children : Option (Option (List Str))
  hostvars : Option (Option (Dict Str (Option Vars)))
  others : Bool

/-- What stands under the name of a group or under `_meta`; of other values their truth. -/
inductive Entry
  | dict (fields : Fields)
  | list (names : List Str)
  | other (truth : Bool)

abbrev Data := Dict Str Entry

def Fields.empty : Fields := ⟨none, none, none, none, false⟩

def metaName : Str := ['_', 'm', 'e', 't', 'a']

def allName : Str := ['a', 'l', 'l']

def ungrouped : Str := ['u', 'n', 'g', 'r', 'o', 'u', 'p', 'e', 'd']

/-- What is left without `_meta`. -/
def Data.groups (data : Data) : Data := data.erase metaName

/-- `_meta`, empty where there is none. -/
def Data.hostMeta (data : Data) : Entry := data.getD metaName (.dict .empty)

def Hosts.entries : Hosts → List (Str × Option Vars)
  | dict vars => vars.entries
  | list names => names.map (·, none)
  | other => []

/-- `hosts = v.get('hosts', {})`, or the names of a list. -/
def Entry.hosts : Entry → List (Str × Option Vars)
  | dict fields => (fields.hosts.getD (.dict .empty)).entries
  | list names => names.map (·, none)
  | other _ => []

/-- `vars = v.get('vars', {})` -/
def Entry.vars : Entry → Vars
  | dict fields => (fields.vars.getD none).getD .empty
  | _ => .empty

/-- `children = v.get('children', [])` -/
def Entry.children : Entry → List Str
  | dict fields => (fields.children.getD none).getD []
  | _ => []

def Entry.truth : Entry → Bool
  | dict fields => fields.hosts.isSome || fields.vars.isSome || fields.children.isSome ||
      fields.hostvars.isSome || fields.others
  | list names => !names.isEmpty
  | other truth => truth

/-- `_meta['hostvars']`, where it has `get`. -/
def Entry.hostvars : Entry → Option (Dict Str (Option Vars))
  | dict fields => fields.hostvars.getD none
  | _ => none

/-! ### Names of hosts -/

section Names
variable (u : UnicodeData)

/-- `int`, which refuses more than 4300 digits. -/
def readInt (text : Str) : Option ℤ :=
  if 4300 < text.countP fun c => (u.decimal c).isSome then none else u.int text

def isAddressChar (c : Char) : Bool :=
  ('A' ≤ c ∧ c ≤ 'F') ∨ ('a' ≤ c ∧ c ≤ 'f') ∨ ('0' ≤ c ∧ c ≤ '9') ∨ c = ':'

/-- `ipv6_port_re.match`, an address of three characters or more in brackets, and a port. The end
of the pattern also matches before a last newline. -/
def ipv6PortRe : Str → Option (Str × Str)
  | '[' :: rest =>
    match rest.dropWhile isAddressChar with
    | ']' :: ':' :: port =>
      let port := if port.getLast? = some '\n' then port.dropLast else port
      if 3 ≤ (rest.takeWhile isAddressChar).length ∧ port ≠ [] ∧
          port.all (fun c => (u.decimal c).isSome) then
        some (rest.takeWhile isAddressChar, port)
      else none
    | _ => none
  | _ => none

/-- The name of the host without a port. -/
def hostName (name : Str) : Str :=
  match ipv6PortRe u name with
  | some (host, _) => host
  | none => if name.count ':' = 1 then name.takeWhile (· ≠ ':') else name

/-- An address in brackets and a port, or exactly one colon. -/
def HasPort (name : Str) : Prop := (ipv6PortRe u name).isSome = true ∨ name.count ':' = 1

/-- The port. One that is invalid is left out, but raises behind an address in brackets. -/
def hostPort (name : Str) : Except String (Option ℤ) :=
  match ipv6PortRe u name with
  | some (_, port) =>
    match readInt u port with
    | some n => .ok (some n)
    | none => .error "ValueError"
  | none =>
    if name.count ':' = 1 then .ok (readInt u ((name.dropWhile (· ≠ ':')).drop 1)) else .ok none

end Names

/-! ### The inventory -/

structure MemGroup where
  children : List Str
  hosts : List Str
  vars : Vars

def MemGroup.empty : MemGroup := ⟨[], [], .empty⟩

/-- `all_group`, its `all_hosts` with their variables, and its `all_groups`. -/
structure MemInventory where
  allGroup : MemGroup
  allHosts : Dict Str Vars
  allGroups : Dict Str MemGroup

/-- `group_filter_re.match` and `host_filter_re.match`, where they are set. -/
structure Filters where
  group : Option (Str → Bool)
  host : Option (Str → Bool)

def Filters.none : Filters := ⟨.none, .none⟩

def Filters.keepsGroup (f : Filters) (name : Str) : Bool := f.group.all (· name)

def Filters.keepsHost (f : Filters) (name : Str) : Bool := f.host.all (· name)

def appendNew (names : List Str) (name : Str) : List Str :=
  if name ∈ names then names else names ++ [name]

namespace MemInventory

/-- An inventory that is new. -/
def empty : MemInventory := ⟨.empty, .empty, .empty⟩

/-- The group of the name, where it is known. -/
def group (inv : MemInventory) (name : Str) : MemGroup :=
  if name = allName then inv.allGroup else inv.allGroups.getD name .empty

def setGroup (inv : MemInventory) (name : Str) (g : MemGroup) : MemInventory :=
  if name = allName then { inv with allGroup := g }
  else { inv with allGroups := inv.allGroups.set name g }

/-- `MemGroup.add_host` -/
def addHost (inv : MemInventory) (group host : Str) : MemInventory :=
  let g := inv.group group
  inv.setGroup group { g with hosts := appendNew g.hosts host }

def linkChild (inv : MemInventory) (group child : Str) : MemInventory :=
  let g := inv.group group
  inv.setGroup group { g with children := appendNew g.children child }

/-- `MemGroup.add_child_group` -/
def addChildGroup (inv : MemInventory) (group child : Str) : Except String MemInventory :=
  if child = allName then .error "group name is all" else .ok (inv.linkChild group child)

/-- `variables.update` -/
def updateGroup (inv : MemInventory) (group : Str) (vars : Vars) : MemInventory :=
  let g := inv.group group
  inv.setGroup group { g with vars := g.vars.update vars.entries }

def updateHost (inv : MemInventory) (host : Str) (vars : Vars) : MemInventory :=
  { inv with allHosts := inv.allHosts.set host ((inv.allHosts.getD host .empty).update vars.entries) }

end MemInventory

def portVars : Option ℤ → Vars
  | none => .empty
  | some port =>
    if port = 0 then .empty else Dict.empty.set "ansible_port".toList (.int port)

section Loading
variable (u : UnicodeData) (filters : Filters)

/-- `MemInventory.get_host`, the name of the host unless it is filtered. -/
def getHost (inv : MemInventory) (name : Str) : Except String (Option Str × MemInventory) := do
  let port ← hostPort u name
  let host := hostName u name
  if ¬ filters.keepsHost host then return (none, inv)
  else if host ∈ inv.allHosts.keys then return (some host, inv)
  else if host = [] then .error "no name"
  else return (some host, { inv with allHosts := inv.allHosts.set host (portVars port) })

/-- `MemInventory.get_group` -/
def getGroup (child : Bool) (inv : MemInventory) (name : Str) :
    Except String (Option Str × MemInventory) := do
  if name = allName ∨ name = ungrouped then return (some allName, inv)
  else if ¬ filters.keepsGroup name then return (none, inv)
  else if name ∈ inv.allGroups.keys then return (some name, inv)
  else if name = [] then .error "no name"
  else
    let inv := inv.setGroup name .empty
    if child then return (some name, inv)
    else
      let inv ← inv.addChildGroup allName name
      return (some name, inv)

def loadHost (group : Str) (inv : MemInventory) (entry : Str × Option Vars) :
    Except String MemInventory := do
  match ← getHost u filters inv entry.1 with
  | (none, inv) => return inv
  | (some host, inv) => return (inv.updateHost host (entry.2.getD .empty)).addHost group host

def loadChild (group : Str) (inv : MemInventory) (name : Str) : Except String MemInventory := do
  match ← getGroup filters true inv name with
  | (none, inv) => return inv
  | (some child, inv) => if name = ungrouped then return inv else inv.addChildGroup group child

def loadGroup (inv : MemInventory) (entry : Str × Entry) : Except String MemInventory := do
  match ← getGroup filters false inv entry.1 with
  | (none, inv) => return inv
  | (some group, inv) =>
    let inv ← entry.2.hosts.foldlM (loadHost u filters group) inv
    let inv := inv.updateGroup group entry.2.vars
    let inv ← entry.2.children.foldlM (loadChild filters group) inv
    if entry.1 = allName ∨ entry.1 = ungrouped then return inv
    else inv.addChildGroup allName group

/-- `_meta['hostvars']` is read for each host. -/
def loadMeta (hostMeta : Entry) (inv : MemInventory) : Except String MemInventory :=
  if hostMeta.truth then
    match hostMeta.hostvars with
    | none => if inv.allHosts.keys = [] then .ok inv else .error "no hostvars"
    | some hostvars => .ok { inv with
        allHosts := inv.allHosts.mapValues fun host vars =>
          vars.update (((hostvars.get? host).getD none).getD .empty).entries }
  else .ok inv

/-- `dict_to_mem_data` -/
def dictToMemData (data : Data) : Except String MemInventory := do
  let inv ← data.groups.entries.foldlM (loadGroup u filters) .empty
  loadMeta data.hostMeta inv

end Loading

/-- How the members of a set are listed. -/
structure SetOrder where
  toList : List Str → List Str
  mem_toList : ∀ names name, name ∈ toList names ↔ name ∈ names

def groupData (g : MemGroup) : Fields where
  hosts := if g.hosts = [] then none else some (.list g.hosts)
  vars := if g.vars.entries = [] then none else some (some g.vars)
  children := if g.children = [] then none else some (some g.children)
  hostvars := none
  others := false

def metaData (inv : MemInventory) : Fields :=
  { Fields.empty with hostvars := some (some (inv.allHosts.mapValues fun _ vars => some vars)) }

def allData (inv : MemInventory) : Fields :=
  { Fields.empty with
    vars := if inv.allGroup.vars.entries = [] then none else some (some inv.allGroup.vars)
    children := some (some (inv.allGroup.children ++ [ungrouped])) }

/-- Hosts that are in no group below `all`. -/
def ungroupedHosts (order : SetOrder) (inv : MemInventory) : List Str :=
  order.toList (inv.allHosts.keys.filter fun host => ∀ e ∈ inv.allGroups.entries, host ∉ e.2.hosts)

def ungroupedData (order : SetOrder) (inv : MemInventory) : Fields :=
  { Fields.empty with
    hosts := if ungroupedHosts order inv = [] then none
      else some (.list (ungroupedHosts order inv)) }

/-- `mem_data_to_dict` -/
def memDataToDict (order : SetOrder) (inv : MemInventory) : Data :=
  let data := (Dict.empty.set metaName (.dict (metaData inv))).set allName (.dict (allData inv))
  let data := data.update (inv.allGroups.mapValues fun _ g => .dict (groupData g)).entries
  data.set ungrouped (.dict (ungroupedData order inv))

end Forail.InventoryData
