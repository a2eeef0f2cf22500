import Forail.Base.Runs
import Forail.Base.Value
import Mathlib.Data.List.Infix
import Mathlib.Logic.Function.Basic

/-! The webhook receivers of GitHub, GitLab and Bitbucket. A request is answered after a
template was found, the signature checked, and ignored events sorted out; what is left starts
a job unless a job of the same event exists. That test and the creation are separate steps. -/

namespace Forail.Webhooks

inductive Service
  | github | gitlab | bitbucketDc
  deriving DecidableEq

inductive HashAlg
  | sha1 | sha256
  deriving DecidableEq

/-- The functions of the standard library, of which only the types are used: digests as
hexadecimal digits, the scheme and network location of an address, and quoted text. -/
structure Library where
  hmac : HashAlg → String → List UInt8 → List (Fin 16)
  sha1 : List UInt8 → List (Fin 16)
  urlparse : String → Option (String × String)
  quote : String → String

def hexChar (d : Fin 16) : Char :=
  if d.val < 10 then Char.ofNat (48 + d.val) else Char.ofNat (87 + d.val)

def hexdigest (ds : List (Fin 16)) : String := String.ofList (ds.map hexChar)

/-- A request at a receiver: the model and key of the route, `request.META`, the raw body and
the parsed one. -/
structure Request where
  service : Service
  modelKwarg : String
  pk : ℕ
  META : String → Option String
  body : List UInt8
  data : Value

inductive TemplateModel
  | jobTemplate | workflowJobTemplate
  deriving DecidableEq

/-- The webhook fields of a template; no service is the empty text of the source. -/
structure Template where
  model : TemplateModel
  webhookService : Option Service
  webhookKey : String
  webhookCredential : Option ℕ

/-- An exception: `PermissionDenied`, or another one, which no handler expects. -/
inductive Failure
  | permissionDenied | other
  deriving DecidableEq

/-! ### Signatures -/

section Receiver
variable (r : Request)

def getEventType : Option String :=
  match r.service with
  | .github => r.META "HTTP_X_GITHUB_EVENT"
  | .gitlab => r.META "HTTP_X_GITLAB_EVENT"
  | .bitbucketDc => r.META "HTTP_X_EVENT_KEY"

/-- Bitbucket does not sign ping requests. -/
def mustCheckSignature : Bool :=
  match r.service with
  | .github | .gitlab => true
  | .bitbucketDc => getEventType r ≠ some "diagnostics:ping"

def isIgnoredRequest : Bool :=
  match r.service with
  | .github | .gitlab => false
  | .bitbucketDc => getEventType r ∉ ["repo:refs_changed", "mirror:repo_synchronized",
      "pr:opened", "pr:from_ref_updated", "pr:modified"].map some

/-- `hash_alg, signature = header_sig.split('=')`. -/
def splitSignature (headerSig : String) : Except Failure (String × String) :=
  match headerSig.toList.splitOn '=' with
  | [hashAlg, signature] => .ok (String.ofList hashAlg, String.ofList signature)
  | _ => .error .other

/-- Of the receivers for GitHub and Bitbucket; only GitHub's looks at the algorithm here. -/
def getSignature : Except Failure (String × String) :=
  match r.META "HTTP_X_HUB_SIGNATURE" with
  | none | some "" => .error .permissionDenied
  | some headerSig => do
    let (hashAlg, signature) ← splitSignature headerSig
    if r.service = .github ∧ hashAlg ≠ "sha1" then .error .permissionDenied
    else .ok (hashAlg, signature)

/-- `check_signature` of the base class. -/
def checkHubSignature (lib : Library) (webhookKey : String) : Except Failure Unit :=
  if webhookKey = "" then .error .permissionDenied
  else if !mustCheckSignature r then .ok ()
  else do
    let (hashAlg, expectedDigest) ← getSignature r
    let mac ← match hashAlg with
      | "sha1" => .ok (lib.hmac .sha1 webhookKey r.body)
      | "sha256" => .ok (lib.hmac .sha256 webhookKey r.body)
      | _ => .error .permissionDenied
    if hexdigest mac ≠ expectedDigest then .error .permissionDenied else .ok ()

/-- GitLab sends the secret itself. -/
def checkToken (webhookKey : String) : Except Failure Unit :=
  if webhookKey = "" then .error .permissionDenied
  else if webhookKey ≠ (r.META "HTTP_X_GITLAB_TOKEN").getD "" then .error .permissionDenied
  else .ok ()

def checkSignature (lib : Library) (webhookKey : String) : Except Failure Unit :=
  match r.service with
  | .github | .bitbucketDc => checkHubSignature r lib webhookKey
  | .gitlab => checkToken r webhookKey

/-! ### The fields of an event -/

def getEventGuid (lib : Library) : Option String :=
  match r.service with
  | .github => r.META "HTTP_X_GITHUB_DELIVERY"
  | .gitlab => some (hexdigest (lib.sha1 r.body))
  | .bitbucketDc => r.META "HTTP_X_REQUEST_ID"

def refKeys : Service → List (String × String)
  | .github => [("pull_request", "pull_request.head.sha"),
      ("pull_request_review", "pull_request.head.sha"),
      ("pull_request_review_comment", "pull_request.head.sha"),
      ("push", "after"), ("release", "release.tag_name"),
      ("commit_comment", "comment.commit_id"), ("create", "ref"), ("page_build", "build.commit")]
  | .gitlab => [("Push Hook", "checkout_sha"), ("Tag Push Hook", "checkout_sha"),
      ("Merge Request Hook", "object_attributes.last_commit.id")]
  | .bitbucketDc => [("repo:refs_changed", "changes.0.toHash"),
      ("mirror:repo_synchronized", "changes.0.toHash"),
      ("pr:opened", "pullRequest.toRef.latestCommit"),
      ("pr:from_ref_updated", "pullRequest.toRef.latestCommit"),
      ("pr:modified", "pullRequest.toRef.latestCommit")]

/-- One element of a reference path; every exception gives `None`. -/
def refElement (value : Value) (element : String) : Value :=
  match element.toNat? with
  | some i =>
    match value with
    | .list vs => vs[i]?.getD .null
    | .str s => (s.toList[i]?).elim .null fun c => .str (String.ofList [c])
    | _ => .null
  | none =>
    match value with
    | .dict es => (es.lookup element).getD .null
    | _ => .null

def getEventRef : Value :=
  let key := ((getEventType r).bind fun t => (refKeys r.service).lookup t).getD ""
  match (key.splitOn ".").foldl refElement r.data with
  -- a deleted ref
  | .str "0000000000000000000000000000000000000000" => .null
  | value => value

/-- `value.get(key, default)`; only a dictionary has the method. -/
def dictGet (value : Value) (key : String) (default : Value) : Except Failure Value :=
  match value with
  | .dict es => .ok ((es.lookup key).getD default)
  | _ => .error .other

/-- Of what is no text, an empty value parses to empty bytes and others have no `decode`. -/
def parseUrl (lib : Library) (url : Value) : Except Failure (String × String) :=
  match url with
  | .str s => (lib.urlparse s).elim (.error .other) .ok
  | url => if url.truth then .error .other else .ok ("b''", "b''")

/-- `key in data` and `data[key].get('links', {}).get('self')`. -/
def selfLink (key : String) : Except Failure Value :=
  match r.data with
  | .dict es =>
    match es.lookup key with
    | some v => do dictGet (← dictGet v "links" (.dict [])) "self" .null
    | none => .ok .null
  | .list vs => if vs.any (Value.eq · (.str key)) then .error .other else .ok .null
  | .str s => if key.toList <:+: s.toList then .error .other else .ok .null
  | _ => .error .other

def hasRefKey : Bool := (getEventType r).any fun t => t ∈ (refKeys r.service).map Prod.fst

def bitbucketStatusApi (lib : Library) : Except Failure Value := do
  let anyUrl ← selfLink r "actor"
  let anyUrl ← match anyUrl with
    | .null => selfLink r "repository"
    | url => .ok url
  match anyUrl with
  | .null => .ok .null
  | .list (v :: _) =>
    match ← dictGet v "href" .null with
    | .null => .ok .null
    | url => do
      let (scheme, netloc) ← parseUrl lib url
      .ok (.str (scheme ++ "://" ++ netloc ++ "/rest/build-status/1.0/commits/" ++
        (getEventRef r).smartStr lib.quote))
  | _ => .error .other

def gitlabStatusApi (lib : Library) : Except Failure Value := do
  let project ← dictGet r.data "project" (.dict [])
  let repoUrl ← dictGet project "web_url" .null
  if !repoUrl.truth then .ok .null
  else
    let (scheme, netloc) ← parseUrl lib repoUrl
    match project with
    | .dict es =>
      match es.lookup "id" with
      | some id => .ok (.str (scheme ++ "://" ++ netloc ++ "/api/v4/projects/" ++
          id.smartStr lib.quote ++ "/statuses/" ++ (getEventRef r).smartStr lib.quote))
      | none => .error .other
    | _ => .error .other

def getEventStatusApi (lib : Library) : Except Failure Value :=
  match r.service with
  | .github =>
    if getEventType r ≠ some "pull_request" then .ok .null
    else do dictGet (← dictGet r.data "pull_request" (.dict [])) "statuses_url" .null
  | .gitlab => if !hasRefKey r then .ok .null else gitlabStatusApi r lib
  | .bitbucketDc =>
    if !hasRefKey r then .ok .null
    else match getEventRef r with
      | .null => .ok .null
      | _ => bitbucketStatusApi r lib

def jobVariablePrefixes : List String := ["forail", "awx", "tower"]

def optionValue (s : Option String) : Value := s.elim .null .str

/-- The extra variables of the new job. -/
def extraVars (lib : Library) (statusApi : Value) : List (String × Value) :=
  jobVariablePrefixes.flatMap fun name =>
    [(name ++ "_webhook_event_type", optionValue (getEventType r)),
      (name ++ "_webhook_event_guid", optionValue (getEventGuid r lib)),
      (name ++ "_webhook_event_ref", getEventRef r),
      (name ++ "_webhook_status_api", statusApi),
      (name ++ "_webhook_payload", r.data)]

/-- `qs_models.get(self.kwargs['model_kwarg'])`. -/
def qsModels : Option TemplateModel :=
  match r.modelKwarg with
  | "job_templates" => some .jobTemplate
  | "workflow_job_templates" => some .workflowJobTemplate
  | _ => none

/-- A template of the service with a key. -/
def getObject (templates : ℕ → Option Template) : Except Failure Template :=
  match qsModels r, templates r.pk with
  | some model, some obj =>
    if obj.model = model ∧ obj.webhookService = some r.service ∧ obj.webhookKey ≠ "" then .ok obj
    else .error .permissionDenied
  | _, _ => .error .permissionDenied

end Receiver

/-! ### Deliveries -/

inductive Response
  | permissionDenied | serverError | ignored | previouslyReceived | queued
  deriving DecidableEq

def Failure.response : Failure → Response
  | .permissionDenied => .permissionDenied
  | .other => .serverError

/-- How far a delivery is; before an answer it holds the template and the extra variables. -/
inductive Phase
  | answered (response : Response)
  | verified (obj : Template) (vars : List (String × Value))
  | unseen (obj : Template) (vars : List (String × Value))

/-- A delivery with the key of the template that was read for it. -/
structure Delivery where
  request : Request
  webhookKey : Option String
  phase : Phase

/-- A `Job` or a `WorkflowJob` started by a delivery. -/
structure WebhookJob where
  unifiedJobTemplate : ℕ
  webhookService : Service
  webhookGuid : String
  webhookCredential : Option ℕ
  extraVars : List (String × Value)
  delivery : ℕ

structure State where
  templates : ℕ → Option Template
  jobs : List WebhookJob
  deliveries : Dict ℕ Delivery

inductive Event
  | receive (d : ℕ) (r : Request)
  | check (d : ℕ)
  | create (d : ℕ)
  | fail (d : ℕ)
  | setKey (pk : ℕ) (key : String)

/-- The part of `post` before the test for an earlier job. -/
def beforeCheck (lib : Library) (r : Request) (obj : Template) : Phase :=
  match checkSignature r lib obj.webhookKey with
  | .error e => .answered e.response
  | .ok _ =>
    if isIgnoredRequest r then .answered .ignored
    else match getEventStatusApi r lib with
      | .error e => .answered e.response
      | .ok statusApi => .verified obj (extraVars r lib statusApi)

def receive (lib : Library) (templates : ℕ → Option Template) (r : Request) : Delivery :=
  match getObject r templates with
  | .error e => ⟨r, none, .answered e.response⟩
  | .ok obj => ⟨r, some obj.webhookKey, beforeCheck lib r obj⟩

/-- The filter of the test: a missing guid is compared with no text. -/
def WebhookJob.isOf (j : WebhookJob) (pk : ℕ) (service : Service) (guid : Option String) : Bool :=
  j.unifiedJobTemplate = pk && j.webhookService = service && some j.webhookGuid = guid

def State.seen (s : State) (r : Request) (guid : Option String) : Bool :=
  s.jobs.any fun j => j.isOf r.pk r.service guid

def State.setPhase (s : State) (d : ℕ) (dl : Delivery) (p : Phase) : State :=
  { s with deliveries := s.deliveries.set d { dl with phase := p } }

/-- `create_unified_job`; the guid's column is not null and holds 128 characters. -/
def State.createJob (lib : Library) (s : State) (d : ℕ) (dl : Delivery) (obj : Template)
    (vars : List (String × Value)) : State :=
  match getEventGuid dl.request lib with
  | none => s.setPhase d dl (.answered .serverError)
  | some guid =>
    if 128 < guid.length then s.setPhase d dl (.answered .serverError)
    else { s.setPhase d dl (.answered .queued) with
      jobs := ⟨dl.request.pk, dl.request.service, guid, obj.webhookCredential, vars, d⟩ :: s.jobs }

def exec (lib : Library) (s : State) (e : Event) : Option State :=
  match e with
  | .receive d r =>
    if (s.deliveries.get? d).isSome then none
    else some { s with deliveries := s.deliveries.set d (receive lib s.templates r) }
  | .check d => do
    let dl ← s.deliveries.get? d
    match dl.phase with
    | .verified obj vars =>
      if s.seen dl.request (getEventGuid dl.request lib) then
        some (s.setPhase d dl (.answered .previouslyReceived))
      else some (s.setPhase d dl (.unseen obj vars))
    | _ => none
  | .create d => do
    let dl ← s.deliveries.get? d
    match dl.phase with
    | .unseen obj vars => some (s.createJob lib d dl obj vars)
    | _ => none
  | .fail d => do
    let dl ← s.deliveries.get? d
    match dl.phase with
    | .verified _ _ | .unseen _ _ => some (s.setPhase d dl (.answered .serverError))
    | .answered _ => none
  | .setKey pk key => do
    let obj ← s.templates pk
    some { s with
      templates := Function.update s.templates pk (some { obj with webhookKey := key }) }

/-- Runs from any templates, with no job and no delivery yet. -/
def runs (lib : Library) : System State Event where
  init s := s.jobs = [] ∧ s.deliveries = .empty
  step s e s' := exec lib s e = some s'

end Forail.Webhooks
