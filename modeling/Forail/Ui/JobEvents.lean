import Forail.Base.Dict
import Mathlib.Data.Int.Init

/-! The reducer of job events (`useJobEvents.js`). Events are put under their parents into a tree whose
siblings are ordered by counters; those that arrive before their parents wait for them. Rows are looked up
with the numbers of children that the server gives. -/

namespace Forail.JobEvents

/-- An event; of an empty `parent_uuid` there is none. -/
structure Event (υ : Type) where
  counter : ℕ
  uuid : υ
  parentUuid : Option υ
  rowNumber : ℤ
deriving DecidableEq

inductive Node
  | mk (eventIndex : ℕ) (isCollapsed : Bool) (children : List Node)

namespace Node

def eventIndex : Node → ℕ
  | mk i _ _ => i

def isCollapsed : Node → Bool
  | mk _ c _ => c

def children : Node → List Node
  | mk _ _ children => children

end Node

/-- `childrenSummary` has the `numChildren` of the parent nodes. -/
structure State (υ : Type) where
  tree : List Node
  events : Dict ℕ (Event υ)
  uuidMap : Dict υ ℕ
  eventsWithoutParents : Dict υ (List (Event υ))
  childrenSummary : Dict ℕ ℕ
  metaEventParentUuid : Dict ℕ υ
  isAllCollapsed : Bool

variable {υ : Type}

/-! ### Nodes by their indices -/

/-- The nodes behind start with one of a greater index, if there are any. -/
def isLastBefore (index : ℕ) (rest : List Node) : Bool := rest.head?.all fun next => index < next.eventIndex

mutual

/-- `_getNodeByIndex` -/
def getNodeByIndex (index : ℕ) : List Node → Option Node
  | [] => none
  | node :: rest =>
    if node.eventIndex = index then some node
    else if index < node.eventIndex then none
    else if isLastBefore index rest then getNodeBelow index node
    else getNodeByIndex index rest

def getNodeBelow (index : ℕ) : Node → Option Node
  | .mk _ _ children => getNodeByIndex index children

end

mutual

/-- `_updateNodeByIndex`, none where it throws. -/
def updateNodeByIndex (target : ℕ) (update : Node → Node) : List Node → Option (List Node)
  | [] => none
  | node :: rest =>
    if target < node.eventIndex then none
    else if isLastBefore target rest then (updateNode target update node).map (· :: rest)
    else (updateNodeByIndex target update rest).map (node :: ·)

def updateNode (target : ℕ) (update : Node → Node) : Node → Option Node
  | .mk i c children =>
    if i = target then some (update (.mk i c children))
    else (updateNodeByIndex target update children).map (.mk i c ·)

end

/-- `push`, or `splice` at an index. -/
def splice (index : Option ℕ) (newNode : Node) (nodes : List Node) : List Node :=
  match index with
  | none => nodes ++ [newNode]
  | some i => nodes.take i ++ newNode :: nodes.drop i

namespace State

/-- The state before the first action. -/
def initialState : State υ := ⟨[], .empty, .empty, .empty, .empty, .empty, false⟩

def setChildrenSummary (state : State υ) (childrenSummary : Dict ℕ ℕ) (metaEventParentUuid : Dict ℕ υ) : State υ :=
  { state with childrenSummary := childrenSummary, metaEventParentUuid := metaEventParentUuid }

variable [DecidableEq υ]

/-- The counter of a uuid, where 0 counts as none. -/
def indexOf (state : State υ) (uuid : υ) : Option ℕ :=
  (state.uuidMap.get? uuid).filter (· ≠ 0)

def getNodeByUuid (state : State υ) (uuid : υ) : Option Node := do
  let index ← state.indexOf uuid
  getNodeByIndex index state.tree

def updateNodeByUuid (state : State υ) (uuid : υ) (update : Node → Node) : Option (State υ) := do
  let index ← state.indexOf uuid
  let tree ← updateNodeByIndex index update state.tree
  some { state with tree := tree }

/-! ### Adding events -/

/-- What both ways to add an event store. -/
def store (state : State υ) (event : Event υ) : State υ :=
  { state with
    events := state.events.set event.counter event
    uuidMap := state.uuidMap.set event.uuid event.counter }

/-- `_addRootLevelEvent` up to the events that wait for the new one. -/
def addRootLevelEvent (state : State υ) (event : Event υ) : State υ :=
  let newNode := Node.mk event.counter state.isAllCollapsed []
  let index := state.tree.findIdx? fun node => event.counter < node.eventIndex
  { state with tree := splice index newNode state.tree }.store event

/-- `_addNestedLevelEvent` up to the events that wait for the new one, with whether its parent is found. -/
def addNestedLevelEvent (state : State υ) (event : Event υ) (parentUuid : υ) : Option (State υ × Bool) :=
  match state.getNodeByUuid parentUuid with
  | none => some (state, false)
  | some parent => do
    let newNode := Node.mk event.counter state.isAllCollapsed []
    let index := parent.children.findIdx? fun node => event.counter ≤ node.eventIndex
    let state ← state.updateNodeByUuid parentUuid fun node =>
      .mk node.eventIndex node.isCollapsed (splice index newNode node.children)
    some (state.store event, true)

def addEventWithoutParent (state : State υ) (event : Event υ) (parentUuid : υ) : State υ :=
  { state with
    eventsWithoutParents := state.eventsWithoutParents.set parentUuid
      (state.eventsWithoutParents.getD parentUuid [] ++ [event]) }

/-- The event with the parent that is assigned to it, if it has no other. -/
def withParent (state : State υ) (event : Event υ) : Event υ :=
  match event.parentUuid with
  | some _ => event
  | none => { event with parentUuid := state.metaEventParentUuid.get? event.counter }

/-- One event of `addEvents`; `gather` is `_gatherEventsForNewParent`. -/
def addEvent (isFlatMode : Bool) (gather : State υ → υ → Option (State υ)) (state : State υ) (event : Event υ) :
    Option (State υ) :=
  let event := state.withParent event
  if (state.events.get? event.counter).isSome then
    gather { state with events := state.events.set event.counter event } event.uuid
  else
    match event.parentUuid, isFlatMode with
    | some parentUuid, false => do
      let (state, isParentFound) ← state.addNestedLevelEvent event parentUuid
      if isParentFound then gather state event.uuid
      else some (state.addEventWithoutParent event parentUuid)
    | _, _ => gather (state.addRootLevelEvent event) event.uuid

/-- `_gatherEventsForNewParent` to a depth, none beyond it. -/
def gatherEventsForNewParent (isFlatMode : Bool) : ℕ → State υ → υ → Option (State υ)
  | 0, _, _ => none
  | fuel + 1, state, parentUuid =>
    match state.eventsWithoutParents.get? parentUuid with
    | none => some state
    | some newEvents =>
      newEvents.foldlM (addEvent isFlatMode (gatherEventsForNewParent isFlatMode fuel))
        { state with eventsWithoutParents := state.eventsWithoutParents.erase parentUuid }

def addEvents (isFlatMode : Bool) (fuel : ℕ) (state : State υ) (newEvents : List (Event υ)) :
    Option (State υ) :=
  newEvents.foldlM (addEvent isFlatMode (gatherEventsForNewParent isFlatMode fuel)) state

end State

/-! ### Rows -/

mutual

def getTotalNumChildren (childrenSummary : Dict ℕ ℕ) : Node → ℕ
  | .mk eventIndex _ children =>
    match childrenSummary.get? eventIndex with
    | some numChildren => numChildren
    | none => children.length + totalOf childrenSummary children

def totalOf (childrenSummary : Dict ℕ ℕ) : List Node → ℕ
  | [] => 0
  | child :: rest => getTotalNumChildren childrenSummary child + totalOf childrenSummary rest

end

mutual

def getNumCollapsedChildren (childrenSummary : Dict ℕ ℕ) : Node → ℕ
  | .mk eventIndex isCollapsed children =>
    if isCollapsed then getTotalNumChildren childrenSummary (.mk eventIndex isCollapsed children)
    else collapsedOf childrenSummary children

def collapsedOf (childrenSummary : Dict ℕ ℕ) : List Node → ℕ
  | [] => 0
  | child :: rest => getNumCollapsedChildren childrenSummary child + collapsedOf childrenSummary rest

end

mutual

/-- `_getLastDescendantNode` -/
def getLastDescendantNode : List Node → Option Node
  | [] => none
  | node :: rest =>
    match getLastDescendantNode rest with
    | some last => some last
    | none => some (lastDescendant node)

def lastDescendant : Node → Node
  | .mk eventIndex isCollapsed children =>
    match getLastDescendantNode children with
    | some last => last
    | none => .mk eventIndex isCollapsed children

end

/-- The node of a row, or a guess at its counter. -/
structure RowResult where
  node : Option Node
  expectedCounter : Option ℤ

namespace State

variable (state : State υ)

def eventOf (node : Node) : Option (Event υ) := state.events.get? node.eventIndex

/-- The guess behind a last descendant, none where it throws. -/
def guessBehind (last : Node) (rowToFind : ℤ) : Option RowResult := do
  let lastEvent ← state.eventOf last
  some ⟨none, some (last.eventIndex + (rowToFind - lastEvent.rowNumber))⟩

mutual

/-- `_getNodeForRow`, none where it throws. -/
def findRow : List Node → ℤ → Option RowResult
  | [], rowToFind => some ⟨none, some rowToFind⟩
  | node :: rest, rowToFind => do
    let event ← state.eventOf node
    if event.rowNumber = rowToFind then some ⟨some node, none⟩
    else
      let totalNodeDescendants := getTotalNumChildren state.childrenSummary node
      let numCollapsedChildren := getNumCollapsedChildren state.childrenSummary node
      let nodeChildren : ℤ := totalNodeDescendants - numCollapsedChildren
      if event.rowNumber + nodeChildren ≥ rowToFind then findRowInChildren node rowToFind
      else
        let rowToFind := rowToFind + numCollapsedChildren
        match rest.head? with
        | none => state.guessBehind (lastDescendant node) rowToFind
        | some nextNode => do
          let nextEvent ← state.eventOf nextNode
          if nextEvent.rowNumber > rowToFind then state.guessBehind (lastDescendant node) rowToFind
          else findRow rest rowToFind

/-- `_getNodeInChildren` -/
def findRowInChildren : Node → ℤ → Option RowResult
  | .mk eventIndex _ children, rowToFind => do
    let event ← state.events.get? eventIndex
    match children.head?.bind state.eventOf with
    | none => some ⟨none, some (event.counter + (rowToFind - event.rowNumber))⟩
    | some firstChild =>
      if rowToFind < firstChild.rowNumber then
        some ⟨none, some (event.counter + (rowToFind - event.rowNumber))⟩
      else findRow children rowToFind

end

/-- `getEventForRow`: no row, or the node and the event. -/
def getEventForRow (rowIndex : ℤ) : Option (Option (Node × Option (Event υ))) := do
  let result ← state.findRow state.tree rowIndex
  some (result.node.map fun node => (node, state.eventOf node))

end State

end Forail.JobEvents
