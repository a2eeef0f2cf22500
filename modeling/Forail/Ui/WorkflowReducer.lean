import Mathlib.Data.List.Basic

/-! The reducer of the workflow visualizer, with the fields of its state that the drawn graph
depends on. A node of the chart has an id of its own; the artificial start node has id 1. -/

namespace Forail.Visualizer

inductive LinkType
  | success | failure | always
  deriving DecidableEq

/-- `isConvergenceLink` is set when the deletion of the link is started. -/
structure Link where
  source : ℕ
  target : ℕ
  linkType : LinkType
  isConvergenceLink : Bool := false
  deriving DecidableEq

/-- A node as the server answers with it: the ids of its children by type, and whether its
template is an approval template. -/
structure WorkflowNode where
  id : ℕ
  successNodes : List ℕ
  failureNodes : List ℕ
  alwaysNodes : List ℕ
  isApproval : Bool
  deriving DecidableEq

def WorkflowNode.children (node : WorkflowNode) : List ℕ :=
  node.successNodes ++ node.failureNodes ++ node.alwaysNodes

/-- `isApprovalTemplate`: the type of `fullUnifiedJobTemplate` is `workflow_approval_template`. -/
structure Node where
  id : ℕ
  originalNodeObject : Option WorkflowNode
  isApprovalTemplate : Bool
  isInvalidLinkTarget : Bool := false
  isDeleted : Bool := false
  isEdited : Bool := false
  deriving DecidableEq

/-- What the modal for a new node returns. -/
structure NewNode where
  isApprovalTemplate : Bool
  linkType : LinkType

structure State where
  addLinkSourceNode : Option ℕ
  addLinkTargetNode : Option ℕ
  addNodeSource : Option ℕ
  addNodeTarget : Option ℕ
  addingLink : Bool
  linkToDelete : Option Link
  linkToEdit : Option Link
  links : List Link
  nextNodeId : ℕ
  nodeToDelete : Option ℕ
  nodes : List Node
  showDeleteAllNodesModal : Bool
  unsavedChanges : Bool

inductive Action
  | cancelLink
  | cancelNodeModal
  | createLink (linkType : LinkType)
  | createNode (node : NewNode)
  | deleteAllNodes
  | deleteLink
  | deleteNode
  | selectSourceForLinking (node : ℕ)
  | setAddLinkTargetNode (node : ℕ)
  | setLinkToDelete (link : Option Link)
  | setLinkToEdit (link : Option Link)
  | setNodeToDelete (node : Option ℕ)
  | setShowDeleteAllNodesModal (value : Bool)
  | startAddNode (sourceNodeId : ℕ) (targetNodeId : Option ℕ)
  | startDeleteLink (link : Link)
  | toggleDeleteAllNodesModal
  | updateLink (linkType : LinkType)

def initReducer : State where
  addLinkSourceNode := none
  addLinkTargetNode := none
  addNodeSource := none
  addNodeTarget := none
  addingLink := false
  linkToDelete := none
  linkToEdit := none
  links := []
  nextNodeId := 0
  nodeToDelete := none
  nodes := []
  showDeleteAllNodesModal := false
  unsavedChanges := false

/-! ### `generateNodesAndLinks` -/

/-- The chart id of a node of the server, by its place in the list. -/
def chartId (workflowNodes : List WorkflowNode) (id : ℕ) : ℕ :=
  (workflowNodes.map WorkflowNode.id).idxOf id + 2

def generateNodes (workflowNodes : List WorkflowNode) : List Node :=
  ⟨1, none, false, false, false, false⟩ :: workflowNodes.map fun node =>
    ⟨chartId workflowNodes node.id, some node, node.isApproval, false, false, false⟩

def generateLinks (workflowNodes : List WorkflowNode) : List Link :=
  workflowNodes.flatMap fun node =>
    let link := fun linkType nodeId =>
      (⟨chartId workflowNodes node.id, chartId workflowNodes nodeId, linkType, false⟩ : Link)
    node.successNodes.map (link .success) ++ node.failureNodes.map (link .failure) ++
      node.alwaysNodes.map (link .always)

def nonRootNodeIds (workflowNodes : List WorkflowNode) : List ℕ :=
  workflowNodes.flatMap WorkflowNode.children

def generateNodesAndLinks (s : State) (workflowNodes : List WorkflowNode) : State :=
  let rootNodes := (workflowNodes.map WorkflowNode.id).filter fun id =>
    id ∉ nonRootNodeIds workflowNodes
  { s with
    links := generateLinks workflowNodes ++
      rootNodes.map fun id => ⟨1, chartId workflowNodes id, .always, false⟩
    nodes := generateNodes workflowNodes
    nextNodeId := workflowNodes.length + 2 }

/-! ### Links -/

def clearInvalidLinkTargets (nodes : List Node) : List Node :=
  nodes.map fun node => { node with isInvalidLinkTarget := false }

/-- `forEach` over an array that the body splices at the current index: the element that takes
the place of a removed one is not visited. -/
def spliceEach (p : Link → Bool) : List Link → List Link
  | [] => []
  | link :: links =>
    if p link then
      match links with
      | [] => []
      | next :: links => next :: spliceEach p links
    else link :: spliceEach p links

/-- Without both nodes there is no modal to dispatch it, and the reducer raises. -/
def createLink (s : State) (linkType : LinkType) : Option State :=
  match s.addLinkSourceNode, s.addLinkTargetNode with
  | some source, some target => some { s with
      addLinkSourceNode := none
      addLinkTargetNode := none
      addingLink := false
      linkToEdit := none
      links := spliceEach (fun link => link.source = 1 ∧ link.target = target)
        (s.links ++ [⟨source, target, linkType, false⟩])
      nodes := clearInvalidLinkTargets s.nodes
      unsavedChanges := true }
  | _, _ => none

def cancelLink (s : State) : State :=
  { s with
    addLinkSourceNode := none
    addLinkTargetNode := none
    addingLink := false
    linkToEdit := none
    nodes := clearInvalidLinkTargets s.nodes }

/-- The parents of a node over all links. -/
def parentsOf (links : List Link) (id : ℕ) : List ℕ :=
  (links.filter fun link => link.target = id).map Link.source

def startDeleteLink (s : State) (link : Link) : State :=
  { s with linkToDelete := some { link with
      isConvergenceLink := (parentsOf s.links link.target).length > 1 } }

def deleteLink (s : State) : Option State :=
  s.linkToDelete.map fun linkToDelete =>
    let newLinks := s.links.filter fun link =>
      ¬(link.source = linkToDelete.source ∧ link.target = linkToDelete.target)
    { s with
      links := if linkToDelete.isConvergenceLink then newLinks
        else newLinks ++ [⟨1, linkToDelete.target, .always, false⟩]
      linkToDelete := none
      unsavedChanges := true }

def updateLink (s : State) (linkType : LinkType) : Option State :=
  s.linkToEdit.map fun linkToEdit =>
    { s with
      linkToEdit := none
      links := s.links.map fun link =>
        if link.source = linkToEdit.source ∧ link.target = linkToEdit.target then
          { link with linkType := linkType }
        else link
      unsavedChanges := true }

/-- The ids whose parents have been traversed, and the ancestors found so far. -/
structure Search where
  traversed : List ℕ
  found : List ℕ

/-- `getAncestors`: out of fuel, the recursion has no result. -/
def getAncestors (parents : ℕ → List ℕ) : ℕ → ℕ → Search → Option Search
  | 0, _, _ => none
  | fuel + 1, id, st =>
    if (parents id).isEmpty || id ∈ st.traversed then some st
    else do
      let st ← (parents id).foldlM (fun st parentId =>
        getAncestors parents fuel parentId { st with found := st.found ++ [parentId] }) st
      some { st with traversed := st.traversed ++ [id] }

/-- The artificial start node is no parent in this map. -/
def realParents (links : List Link) : ℕ → List ℕ :=
  parentsOf (links.filter fun link => link.source ≠ 1)

/-- The direct children and then the ancestors of the source become invalid targets. -/
def selectSourceForLinking (s : State) (sourceNode : ℕ) : Option State := do
  let children := (s.links.filter fun link => link.source ≠ 1 ∧ link.source = sourceNode).map
    Link.target
  let search ← getAncestors (realParents s.links) (s.links.length + 1) sourceNode ⟨[], children⟩
  some { s with
    addLinkSourceNode := some sourceNode
    addingLink := true
    nodes := s.nodes.map fun node =>
      if node.id ∈ search.found then { node with isInvalidLinkTarget := true } else node }

/-! ### Nodes -/

def createNode (s : State) (node : NewNode) : Option State :=
  s.addNodeSource.map fun addNodeSource =>
    let linkType := if addNodeSource = 1 then .always else node.linkType
    let newLinks := s.links ++ [⟨addNodeSource, s.nextNodeId, linkType, false⟩]
    { s with
      addNodeSource := none
      addNodeTarget := none
      links := match s.addNodeTarget with
        | none => newLinks
        | some addNodeTarget => newLinks.map fun link =>
          if link.source = addNodeSource ∧ link.target = addNodeTarget then
            { link with source := s.nextNodeId }
          else link
      nextNodeId := s.nextNodeId + 1
      nodes := s.nodes ++ [⟨s.nextNodeId, none, node.isApprovalTemplate, false, false, false⟩]
      unsavedChanges := true }

def deleteAllNodes (s : State) : State :=
  { s with
    addLinkSourceNode := none
    addLinkTargetNode := none
    addingLink := false
    links := []
    nodes := s.nodes.map fun node => if node.id ≠ 1 then { node with isDeleted := true } else node
    showDeleteAllNodesModal := false
    unsavedChanges := true }

/-- A child of the deleted node, with the type of the link that led to it. -/
structure Child where
  id : ℕ
  linkType : LinkType

/-- What the loop over the links collects, from the last link to the first. -/
structure Removal where
  newLinks : List Link
  linkParentMapping : ℕ → List ℕ
  children : List Child
  parents : List ℕ

def removeLinksFromDeletedNode (nodeId : ℕ) (links : List Link) : Removal :=
  let reversed := links.reverse
  { newLinks := links.filter fun link => ¬(link.source = nodeId ∨ link.target = nodeId)
    linkParentMapping := parentsOf reversed
    children := (reversed.filter fun link => link.source = nodeId).map fun link =>
      ⟨link.target, link.linkType⟩
    parents := (reversed.filter fun link => link.source ≠ nodeId ∧ link.target = nodeId).map
      Link.source }

/-- From the start node only to a child without another parent. -/
def linkToChild (linkParentMapping : ℕ → List ℕ) (parentId : ℕ) (child : Child) : Option Link :=
  if parentId = 1 then
    if (linkParentMapping child.id).length = 1 then some ⟨parentId, child.id, .always, false⟩
    else none
  else if parentId ∉ linkParentMapping child.id then
    some ⟨parentId, child.id, child.linkType, false⟩
  else none

def addLinksFromParentsToChildren (r : Removal) : List Link :=
  r.newLinks ++ r.parents.flatMap fun parentId =>
    r.children.filterMap (linkToChild r.linkParentMapping parentId)

/-- The first node with an id is marked as deleted; where there is none, `find` has no result. -/
def markDeleted (nodeId : ℕ) : List Node → List Node
  | [] => []
  | node :: nodes =>
    if node.id = nodeId then { node with isDeleted := true } :: nodes
    else node :: markDeleted nodeId nodes

def deleteNode (s : State) : Option State :=
  s.nodeToDelete.bind fun nodeId =>
    if nodeId ∈ s.nodes.map Node.id then some { s with
      links := addLinksFromParentsToChildren (removeLinksFromDeletedNode nodeId s.links)
      nodeToDelete := none
      nodes := markDeleted nodeId s.nodes
      unsavedChanges := true }
    else none

def visualizerReducer (s : State) : Action → Option State
  | .cancelLink => some (cancelLink s)
  | .cancelNodeModal => some { s with addNodeSource := none, addNodeTarget := none }
  | .createLink linkType => createLink s linkType
  | .createNode node => createNode s node
  | .deleteAllNodes => some (deleteAllNodes s)
  | .deleteLink => deleteLink s
  | .deleteNode => deleteNode s
  | .selectSourceForLinking node => selectSourceForLinking s node
  | .setAddLinkTargetNode node => some { s with addLinkTargetNode := some node }
  | .setLinkToDelete link => some { s with linkToDelete := link }
  | .setLinkToEdit link => some { s with linkToEdit := link }
  | .setNodeToDelete node => some { s with nodeToDelete := node }
  | .setShowDeleteAllNodesModal value => some { s with showDeleteAllNodesModal := value }
  | .startAddNode sourceNodeId targetNodeId =>
    some { s with addNodeSource := some sourceNodeId, addNodeTarget := targetNodeId }
  | .startDeleteLink link => some (startDeleteLink s link)
  | .toggleDeleteAllNodesModal =>
    some { s with showDeleteAllNodesModal := !s.showDeleteAllNodesModal }
  | .updateLink linkType => updateLink s linkType

end Forail.Visualizer
