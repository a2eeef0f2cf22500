import Forail.Api.WorkflowServer
import Forail.Base.Runs
import Forail.Ui.WorkflowReducer

/-! How the visualizer is saved: batches of requests, each of which is sent at once and awaited as a
whole. The server may serve the requests of a batch in any order. The batches for credentials,
labels and instance groups follow; they touch neither nodes nor rows. -/

namespace Forail.Visualizer

open Api Scheduler

def LinkType.relationship : LinkType → EdgeLabel
  | .success => .successNodes
  | .failure => .failureNodes
  | .always => .alwaysNodes

/-- The node that the server answers with. -/
def readNode (server : Server) (id : ℕ) : WorkflowNode where
  id := id
  successNodes := server.template.children .successNodes id
  failureNodes := server.template.children .failureNodes id
  alwaysNodes := server.template.children .alwaysNodes id
  isApproval := server.isApproval id

def fetchWorkflowNodes (server : Server) : List WorkflowNode :=
  server.template.nodes.map (readNode server)

/-- An entry of `originalLinkMap`. -/
structure OriginalLinks where
  id : ℕ
  successNodes : List ℕ
  failureNodes : List ℕ
  alwaysNodes : List ℕ

def OriginalLinks.nodes (original : OriginalLinks) : LinkType → List ℕ
  | .success => original.successNodes
  | .failure => original.failureNodes
  | .always => original.alwaysNodes

def WorkflowNode.originalLinks (node : WorkflowNode) : OriginalLinks :=
  ⟨node.id, node.successNodes, node.failureNodes, node.alwaysNodes⟩

/-- By the id on the server, but for a new node, which is named by its id in the chart. For an
update: whether the node is drawn as an approval, and whether it was one when it was loaded. -/
inductive Request
  | destroy (id : ℕ)
  | createNode (node : ℕ) (isApprovalTemplate : Bool)
  | updateNode (node id : ℕ) (isApprovalTemplate wasApproval : Bool)
  | createApprovalTemplate (id : ℕ)
  | updateApprovalTemplate (id : ℕ)
  | disassociate (linkType : LinkType) (id childId : ℕ)
  | associate (linkType : LinkType) (id childId : ℕ)
  deriving DecidableEq

/-! ### The batches -/

/-- The request for one node. The last branch is meant for edited nodes of the server; it also takes
those that were created, edited and deleted since, and raises for want of `originalNodeObject`. -/
def nodeRequest (node : Node) : Option (List Request) :=
  if node.id = 1 then some []
  else match node.isDeleted, node.originalNodeObject with
    | true, some original => some [.destroy original.id]
    | false, none => some [.createNode node.id node.isApprovalTemplate]
    | false, some original =>
      if node.isEdited then
        some [.updateNode node.id original.id node.isApprovalTemplate original.isApproval]
      else some []
    | true, none => if node.isEdited then none else some []

/-- The requests that are sent, and whether the loop raised before it came to the last node. -/
def nodeRequests : List Node → List Request × Bool
  | [] => ([], false)
  | node :: nodes =>
    match nodeRequest node with
    | none => ([], true)
    | some requests => (requests ++ (nodeRequests nodes).1, (nodeRequests nodes).2)

/-- An entry for every node of the server that is not deleted. -/
def originalLinkMap (nodes : List Node) : List (ℕ × OriginalLinks) :=
  nodes.filterMap fun node =>
    if node.id = 1 ∨ node.isDeleted then none
    else node.originalNodeObject.map fun original => (node.id, original.originalLinks)

def deletedNodeIds (nodes : List Node) : List ℕ :=
  nodes.filterMap fun node =>
    if node.id ≠ 1 ∧ node.isDeleted then node.originalNodeObject.map WorkflowNode.id else none

def lookUp (linkMap : List (ℕ × OriginalLinks)) (node : ℕ) : Option OriginalLinks :=
  (linkMap.find? fun entry => entry.1 = node).map Prod.snd

/-- The entries of both ends of a link, without which the code raises. -/
def realEnds (originalLinkMap : List (ℕ × OriginalLinks)) (link : Link) :
    Option (OriginalLinks × OriginalLinks × Link) := do
  let source ← lookUp originalLinkMap link.source
  let target ← lookUp originalLinkMap link.target
  some (source, target, link)

/-- The drawn links by the ids of the server, and those that were not there when it was loaded. -/
def generateLinkMapAndNewLinks (originalLinkMap : List (ℕ × OriginalLinks)) (links : List Link) :
    Option (List (ℕ × ℕ × LinkType) × List Link) := do
  let real ← (links.filter fun link => link.source ≠ 1).mapM (realEnds originalLinkMap)
  some (real.map fun (source, target, link) => (source.id, target.id, link.linkType),
    (real.filter fun (source, target, link) => target.id ∉ source.nodes link.linkType).map
      fun (_, _, link) => link)

/-- `linkMap[source][target]`: the last link between the two. -/
def linked (linkMap : List (ℕ × ℕ × LinkType)) (source target : ℕ) : Option LinkType :=
  (linkMap.reverse.find? fun entry => entry.1 = source ∧ entry.2.1 = target).map fun entry =>
    entry.2.2

def disassociateNodes (originalLinkMap : List (ℕ × OriginalLinks)) (deletedNodeIds : List ℕ)
    (linkMap : List (ℕ × ℕ × LinkType)) : List Request :=
  originalLinkMap.flatMap fun (_, node) =>
    [LinkType.success, .failure, .always].flatMap fun linkType =>
      ((node.nodes linkType).filter fun childId =>
        childId ∉ deletedNodeIds ∧ linked linkMap node.id childId ≠ some linkType).map
        (.disassociate linkType node.id)

def associateNodes (newLinks : List Link) (originalLinkMap : List (ℕ × OriginalLinks)) :
    Option (List Request) :=
  newLinks.mapM fun link => do
    let (source, target, _) ← realEnds originalLinkMap link
    some (.associate link.linkType source.id target.id)

/-! ### One attempt -/

/-- The requests for nodes, and for approval templates as soon as the node has been answered; then
two batches for the rows, then the others. -/
inductive Phase
  | nodes | disassociating | associating | finishing | done | failed
  deriving DecidableEq

/-- `pending` are the requests of the batch that have not been served. -/
structure Attempt where
  server : Server
  nodes : List Node
  originalLinkMap : List (ℕ × OriginalLinks)
  deletedNodeIds : List ℕ
  newLinks : List Link
  pending : List Request
  phase : Phase

def saveVisualizer (server : Server) (nodes : List Node) : Attempt where
  server := server
  nodes := nodes
  originalLinkMap := originalLinkMap nodes
  deletedNodeIds := deletedNodeIds nodes
  newLinks := []
  pending := (nodeRequests nodes).1
  phase := if (nodeRequests nodes).2 then .failed else .nodes

def Attempt.fail (a : Attempt) : Attempt := { a with phase := .failed }

/-- `node.originalNodeObject = data`. -/
def setOriginal (nodes : List Node) (id : ℕ) (data : WorkflowNode) : List Node :=
  nodes.map fun node => if node.id = id then { node with originalNodeObject := some data } else node

/-- The server serves a request, and its answer is dealt with. -/
def Attempt.serve (a : Attempt) : Request → Attempt
  | .destroy id =>
    match a.server.destroy id with
    | some server => { a with server := server }
    | none => a.fail
  | .createNode node isApprovalTemplate =>
    let data := readNode a.server.createNode a.server.nextId
    { a with
      server := a.server.createNode
      nodes := setOriginal a.nodes node data
      originalLinkMap := a.originalLinkMap ++ [(node, ⟨data.id, [], [], []⟩)]
      pending := if isApprovalTemplate then a.pending ++ [.createApprovalTemplate data.id]
        else a.pending }
  | .updateNode node id isApprovalTemplate wasApproval =>
    match a.server.update id !isApprovalTemplate with
    | some server =>
      if isApprovalTemplate then { a with
        server := server
        nodes := setOriginal a.nodes node (readNode server id)
        pending := a.pending ++
          [if wasApproval then .updateApprovalTemplate id else .createApprovalTemplate id] }
      else { a with server := server }
    | none => a.fail
  | .createApprovalTemplate id =>
    match a.server.createApprovalTemplate id with
    | some server => { a with server := server }
    | none => a.fail
  | .updateApprovalTemplate id =>
    match a.server.updateApprovalTemplate id with
    | some server => { a with server := server }
    | none => a.fail
  | .disassociate linkType id childId =>
    match a.server.disassociate linkType.relationship id childId with
    | some server => { a with server := server }
    | none => a.fail
  | .associate linkType id childId =>
    match a.server.associate linkType.relationship id childId with
    | (true, server) => { a with server := server }
    | (false, server) => { a with server := server }.fail

/-- What follows when every request of the batch has been served. -/
def Attempt.proceed (a : Attempt) (links : List Link) : Attempt :=
  match a.phase with
  | .nodes =>
    match generateLinkMapAndNewLinks a.originalLinkMap links with
    | some (linkMap, newLinks) => { a with
        newLinks := newLinks
        pending := disassociateNodes a.originalLinkMap a.deletedNodeIds linkMap
        phase := .disassociating }
    | none => a.fail
  | .disassociating =>
    match associateNodes a.newLinks a.originalLinkMap with
    | some requests => { a with pending := requests, phase := .associating }
    | none => a.fail
  | .associating => { a with phase := .finishing }
  | .finishing => { a with phase := .done }
  | .done => a
  | .failed => a

/-- `lose` is a request that fails on its way, `loseOther` one of the last batches. -/
inductive Event
  | serve (request : Request)
  | proceed
  | lose (request : Request)
  | loseOther

def Attempt.take (a : Attempt) (request : Request) : Attempt :=
  { a with pending := a.pending.erase request }

/-- After a failure nothing is sent any more, but what is on its way may still be served. -/
inductive Attempt.Step (links : List Link) : Attempt → Event → Attempt → Prop
  | serve {a : Attempt} {request : Request} (h : request ∈ a.pending) :
    Step links a (.serve request) ((a.take request).serve request)
  | proceed {a : Attempt} (h : a.pending = []) (hdone : a.phase ≠ .done)
    (hfailed : a.phase ≠ .failed) : Step links a .proceed (a.proceed links)
  | lose {a : Attempt} {request : Request} (h : request ∈ a.pending) :
    Step links a (.lose request) (a.take request).fail
  | loseOther {a : Attempt} (h : a.phase = .finishing) : Step links a .loseOther a.fail

/-- An attempt to save the nodes and links of the visualizer. -/
def saving (server : Server) (nodes : List Node) (links : List Link) : System Attempt Event where
  init a := a = saveVisualizer server nodes
  step := Attempt.Step links

/-- Only the server refuses requests. -/
def Delivered (_ : Attempt) : Event → Prop
  | .lose _ => False
  | .loseOther => False
  | _ => True

end Forail.Visualizer
