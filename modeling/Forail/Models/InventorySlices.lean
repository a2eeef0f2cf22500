import Forail.Base.Stride
import Mathlib.Data.Finset.Dedup
import Mathlib.Data.List.Sort

/-! Sliced jobs. A job template that slices makes a workflow job with a node for every
slice. The generated inventory of a slice job is cut from the enabled hosts in the order of
their names and so partitions them; the hosts whose facts it loads and saves are cut by the
same stride from all hosts. The two cuts agree only where the hosts that the one list has
before a host and the other has not come in multiples of the slice count. -/

namespace Forail.Slices

open Stride

/-- A row of a host; `instanceId` is set for the hosts of constructed inventories that have
an original in an input inventory. -/
structure Host (ν : Type*) where
  id : ℕ
  name : ν
  enabled : Bool
  instanceId : Option ℕ

inductive InventoryKind
  | standard | smart | constructed
  deriving DecidableEq

/-- `vars` is empty where `variables_dict` is. -/
structure Group where
  id : ℕ
  name : String
  vars : List String

structure GroupHost (ν : Type*) where
  groupId : ℕ
  hostName : ν

structure GroupParent where
  fromName : String
  toId : ℕ

/-- The hosts of a smart inventory are those that match its filter, in any inventory; only
they may have equal names. -/
structure Inventory (ν : Type*) where
  kind : InventoryKind
  hosts : List (Host ν)
  groups : List Group
  groupHosts : List (GroupHost ν)
  groupParents : List GroupParent
  nodup : kind ≠ .smart → (hosts.map Host.name).Nodup

structure GroupInfo (ν : Type*) where
  hosts : List ν
  children : List String
  vars : List String

/-- The generated inventory, without the variables of hosts. -/
structure ScriptData (ν : Type*) where
  allHosts : List ν
  allChildren : List String
  groups : List (String × GroupInfo ν)
  hostvars : List ν

/-- `jobSlice` is that key of `ancestor_artifacts`. -/
structure WorkflowJobNode where
  jobSlice : Option ℕ
  parents : List ℕ

structure JobTemplate (ν : Type*) where
  inventory : Option (Inventory ν)
  jobSliceCount : ℕ
  allowSimultaneous : Bool
  askInventoryOnLaunch : Bool
  askJobSliceCountOnLaunch : Bool

/-- The arguments of `create_unified_job`; the last three are `_eager_fields`. -/
structure Kwargs (ν : Type*) where
  preventSlicing : Bool
  inventory : Option (Inventory ν)
  jobSliceCount : Option ℕ
  eagerAllowSimultaneous : Option Bool
  eagerJobSliceNumber : Option ℕ
  eagerJobSliceCount : Option ℕ

structure Job (ν : Type*) where
  inventory : Option (Inventory ν)
  allowSimultaneous : Bool
  jobSliceNumber : ℕ
  jobSliceCount : ℕ

structure WorkflowJob (ν : Type*) where
  inventory : Option (Inventory ν)
  allowSimultaneous : Bool
  nodes : List WorkflowJobNode

inductive Created (ν : Type*)
  | job (job : Job ν)
  | workflowJob (job : WorkflowJob ν)

variable {ν : Type*} [LinearOrder ν]

section Hosts

def orderByName (hosts : List (Host ν)) : List (Host ν) :=
  hosts.insertionSort fun a b => a.name ≤ b.name

/-- The first row of each name. -/
def distinctNames : List (Host ν) → List (Host ν)
  | [] => []
  | h :: hosts => h :: (distinctNames hosts).filter fun h' => h'.name ≠ h.name

/-- Rows of `inventory.hosts`: the manager makes those of a smart inventory distinct. -/
def Inventory.query (inv : Inventory ν) (hosts : List (Host ν)) : List (Host ν) :=
  match inv.kind with
  | .smart => distinctNames (orderByName hosts)
  | .standard | .constructed => orderByName hosts

def getSlicedHosts {α : Type*} (hosts : List α) (sliceNumber sliceCount : ℕ) : List α :=
  if 1 < sliceCount ∧ 0 < sliceNumber then stride sliceCount (sliceNumber - 1) hosts else hosts

/-- The hosts that `get_script_data` cuts its slice from. -/
def Inventory.scriptHosts (inv : Inventory ν) (showAll : Bool) : List (Host ν) :=
  inv.query (inv.hosts.filter fun h => showAll || h.enabled)

def getScriptData (inv : Inventory ν) (hostvars showAll : Bool) (sliceNumber sliceCount : ℕ) :
    ScriptData ν :=
  let hosts := getSlicedHosts (inv.scriptHosts showAll) sliceNumber sliceCount
  let allHostnames := hosts.map Host.name
  let vars := if hostvars then allHostnames else []
  match inv.kind with
  | .smart => ⟨allHostnames, [], [], vars⟩
  | .standard | .constructed =>
    -- a member of a group might not be in the current slice
    let groupHosts := inv.groupHosts.filter fun m => m.hostName ∈ allHostnames
    let groupedHosts := groupHosts.map GroupHost.hostName
    let info (g : Group) : GroupInfo ν :=
      ⟨(groupHosts.filter fun m => m.groupId = g.id).map GroupHost.hostName,
        (inv.groupParents.filter fun m => m.toId = g.id).map GroupParent.fromName, g.vars⟩
    let groups := inv.groups.filter fun g =>
      (info g).hosts ≠ [] || (info g).children ≠ [] || (info g).vars ≠ []
    ⟨allHostnames.filter (· ∉ groupedHosts), inv.groups.map Group.name,
      groups.map fun g => (g.name, info g), vars⟩

/-- Every host that the generated inventory names. -/
def ScriptData.hostNames (data : ScriptData ν) : List ν :=
  data.allHosts ++ data.groups.flatMap (fun g => g.2.hosts) ++ data.hostvars

/-- The hosts that `get_hosts_for_fact_cache` cuts its slice from; `objects` are all rows. -/
def Inventory.factHosts (inv : Inventory ν) (objects : List (Host ν)) : List (Host ν) :=
  match inv.kind with
  | .constructed =>
    orderByName (objects.filter fun h => inv.hosts.any fun c => c.instanceId = some h.id)
  | .standard | .smart => inv.query inv.hosts

def getHostsForFactCache (objects : List (Host ν)) (job : Job ν) : List (Host ν) :=
  match job.inventory with
  | none => []
  | some inv => getSlicedHosts (inv.factHosts objects) job.jobSliceNumber job.jobSliceCount

/-- `build_inventory` of a job that has an inventory. -/
def buildInventory (job : Job ν) : Option (ScriptData ν) :=
  job.inventory.map fun inv => getScriptData inv true false job.jobSliceNumber job.jobSliceCount

end Hosts

section Templates
variable (jt : JobTemplate ν) (kwargs : Kwargs ν)

def actualInventory : Option (Inventory ν) :=
  if jt.askInventoryOnLaunch then kwargs.inventory.or jt.inventory else jt.inventory

def getEffectiveSliceCt : ℕ :=
  let actualSliceCount :=
    if jt.askJobSliceCountOnLaunch then kwargs.jobSliceCount.getD jt.jobSliceCount
    else jt.jobSliceCount
  match actualInventory jt kwargs with
  | some inv => min actualSliceCount (inv.query inv.hosts).length
  | none => actualSliceCount

def createUnifiedJob : Created ν :=
  let sliceCt := getEffectiveSliceCt jt kwargs
  if 1 < sliceCt ∧ kwargs.preventSlicing = false then
    .workflowJob ⟨kwargs.inventory.or jt.inventory, jt.allowSimultaneous,
      (List.range sliceCt).map fun idx => ⟨some (idx + 1), []⟩⟩
  else
    let eagerJobSliceCount : Option ℕ :=
      -- the template is set to slice but there are too few hosts
      if 1 < jt.jobSliceCount ∧ kwargs.preventSlicing = false then some 1
      else if kwargs.preventSlicing then kwargs.eagerJobSliceCount.or (some 1)
      else kwargs.eagerJobSliceCount
    .job ⟨kwargs.inventory.or jt.inventory,
      kwargs.eagerAllowSimultaneous.getD jt.allowSimultaneous,
      kwargs.eagerJobSliceNumber.getD 0,
      eagerJobSliceCount.getD (kwargs.jobSliceCount.getD jt.jobSliceCount)⟩

/-- The part of `get_job_kwargs` that concerns the inventory and the slices. -/
def getJobKwargs (w : WorkflowJob ν) (node : WorkflowJobNode) : Kwargs ν :=
  let inventory := if jt.askInventoryOnLaunch then w.inventory else none
  match node.jobSlice, node.parents with
  | some jobSlice, [] =>
    ⟨true, inventory, none, some true, some jobSlice, some w.nodes.length⟩
  | _, _ => ⟨false, inventory, none, none, none, none⟩

/-- The jobs that the workflow manager spawns for the nodes. -/
def sliceJobs (w : WorkflowJob ν) : List (Created ν) :=
  w.nodes.map fun node => createUnifiedJob jt (getJobKwargs jt w node)

end Templates

end Forail.Slices
