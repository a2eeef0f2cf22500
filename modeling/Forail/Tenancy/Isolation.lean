import Mathlib.Data.List.Basic

/-! Strict isolation of tenants. The middleware stores the tenant of the user on the request
where row-level security is on, and asks before the view whether the row that the URL names
belongs to another tenant. It looks for the row in the table of the view's model, which need
not be the table of the target, and sees only what row-level security leaves visible. -/

namespace Forail.Isolation

structure Settings where
  tenancyEnabled : Bool
  tenancyRlsEnabled : Bool
  tenancyStrictIsolationEnabled : Bool

structure Organization where
  pk : ℕ
  pos : 0 < pk
  isTenantRoot : Bool
  tenantIsolationStrict : Bool

structure User where
  pk : ℕ
  isAuthenticated : Bool
  isSuperuser : Bool
  organizations : List Organization

structure Request where
  user : Option User
  path : String

/-- Models with a column `organization_id` in some table, with another attribute
`organization`, and without one; hosts and organizations are of the last kind. -/
inductive Model
  | organization
  | host
  | owned (table : String)
  | related (table : String)
  | other (table : String)
  deriving DecidableEq

/-- A view with the `model` of its class, and the model of the row that it loads by the `pk`
of the URL; for the list of what belongs to a row this is the parent model. -/
structure View where
  viewCls : Option (Option Model)
  target : Option Model

/-- `organization` is that argument where it is there and an integer. -/
structure ViewKwargs where
  organization : Option ℕ
  pk : Option ℕ

/-- The organizations of rows and the inventories of hosts, none also for absent rows, and
whether the role of the connection bypasses row-level security. Keys are positive. -/
structure Database where
  organizationId : String → ℕ → Option ℕ
  organizationId_ne : ∀ table pk, organizationId table pk ≠ some 0
  hostInventory : ℕ → Option ℕ
  hostInventory_ne : ∀ pk, hostInventory pk ≠ some 0
  organizations : ℕ → Bool
  bypassRls : Bool

/-- The database, which of its uses raise, and the key of the event if it is created. -/
structure Environment where
  db : Database
  organizationsFail : Bool
  setTenantIdFails : Bool
  targetFails : Bool
  event : Option ℕ

structure IsolationEvent where
  user : ℕ
  userOrganization : ℕ
  accessedOrganization : ℕ
  requestPath : List Char
  blocked : Bool

inductive Response
  | proceed
  | forbidden (isolationEventId : Option ℕ)
  deriving DecidableEq

structure Outcome where
  response : Response
  recorded : Option IsolationEvent

section RowLevelSecurity

/-- The tables with policies; that of hosts asks the table of inventories. -/
def rlsTables : List String :=
  ["main_inventory", "main_credential", "main_label", "main_executionenvironment", "main_team",
    "main_notificationtemplate", "main_oauth2application", "main_unifiedjobtemplate",
    "main_unifiedjob", "main_eventrule", "main_outboundwebhook", "main_hostfactsnapshot",
    "main_driftdetection", "main_driftalertrule", "main_driftalert", "main_policy",
    "main_policydecision", "main_scanner", "main_scanresult", "main_servicecatalogitem",
    "main_auditevent", "main_host"]

/-- The policy of a table for a row of an organization, with `forail.current_tenant_id`. -/
def Database.visible (db : Database) (tenantId : Option ℕ) (table : String)
    (organization : Option ℕ) : Bool :=
  db.bypassRls || table ∉ rlsTables || organization = tenantId || organization = none ||
    tenantId = none

/-- The organization of a visible row. -/
def Database.lookup (db : Database) (tenantId : Option ℕ) (table : String) (pk : ℕ) : Option ℕ :=
  (db.organizationId table pk).filter fun org => db.visible tenantId table (some org)

end RowLevelSecurity

section Middleware

def isolationExemptPaths : List String :=
  ["/api/v2/config/", "/api/v2/ping/", "/api/v2/me/", "/api/v2/auth/", "/api/v2/tokens/",
    "/api/v2/branding/", "/api/v2/tenants/", "/api/v2/tenant_quota_events/",
    "/api/v2/tenant_isolation_events/", "/api/login/", "/sso/"]

def shouldExemptIsolation (path : String) : Bool :=
  path.toList.isEmpty || isolationExemptPaths.any fun p => p.toList.isPrefixOf path.toList

/-- Whether to block and whether to audit. -/
def makeIsolationDecision (userOrgStrict globalStrictEnabled isCrossTenant : Bool) : Bool × Bool :=
  if !isCrossTenant then (false, false) else (userOrgStrict && globalStrictEnabled, true)

/-- The first of the user's organizations that is the root of a tenant. -/
def User.tenantOrg (user : User) : Option Organization :=
  (user.organizations.filter Organization.isTenantRoot).head?

def resolveTenantOrg (settings : Settings) (env : Environment) (request : Request) :
    Option Organization :=
  if !settings.tenancyEnabled || !settings.tenancyRlsEnabled then none
  else
    match request.user with
    | none => none
    | some user =>
      if !user.isAuthenticated || user.isSuperuser || env.organizationsFail then none
      else user.tenantOrg

/-- What `__call__` leaves in `_tenant_org`; then the session has its key as tenant. -/
def call (settings : Settings) (env : Environment) (request : Request) : Option Organization :=
  (resolveTenantOrg settings env request).filter fun _ => !env.setTenantIdFails

/-- The organization of the row in the table of a model. -/
def resolveFromModel (db : Database) (tenantId : Option ℕ) (pk : ℕ) : Model → Option ℕ
  | .owned table => (db.lookup tenantId table pk).filter fun org => org ≠ 0
  -- the attribute is there, the column is not, and the query raises
  | .related _ => none
  | .host => do
    let inventory ← (db.hostInventory pk).filter fun inv =>
      db.visible tenantId "main_host" (db.organizationId "main_inventory" inv) && inv ≠ 0
    (db.lookup tenantId "main_inventory" inventory).filter fun org => org ≠ 0
  | .organization | .other _ => none

def resolveTargetOrgId (env : Environment) (tenantId : Option ℕ) (view : View)
    (kwargs : ViewKwargs) : Option ℕ :=
  match kwargs.organization with
  | some org => some org
  | none => do
    let pk ← kwargs.pk
    let cls ← view.viewCls
    let model ← cls
    if env.targetFails then none else resolveFromModel env.db tenantId pk model

def emitIsolationEvent (env : Environment) (user : User) (request : Request)
    (userOrg : Organization) (targetOrgId : ℕ) (blocked : Bool) : Option IsolationEvent :=
  env.event.map fun _ =>
    ⟨user.pk, userOrg.pk, targetOrgId, request.path.toList.take 1024, blocked⟩

def processView (settings : Settings) (env : Environment) (request : Request)
    (tenantOrg : Option Organization) (view : View) (kwargs : ViewKwargs) : Outcome :=
  if !settings.tenancyEnabled then ⟨.proceed, none⟩
  else
    match request.user with
    | none => ⟨.proceed, none⟩
    | some user =>
      if !user.isAuthenticated || user.isSuperuser || shouldExemptIsolation request.path then
        ⟨.proceed, none⟩
      else
        match tenantOrg with
        | none => ⟨.proceed, none⟩
        | some org =>
          match resolveTargetOrgId env (some org.pk) view kwargs with
          | none => ⟨.proceed, none⟩
          | some target =>
            let (shouldBlock, shouldAudit) := makeIsolationDecision org.tenantIsolationStrict
              settings.tenancyStrictIsolationEnabled (target ≠ org.pk)
            let event :=
              if shouldAudit then emitIsolationEvent env user request org target shouldBlock
              else none
            if shouldBlock then ⟨.forbidden (if shouldAudit then env.event else none), event⟩
            else ⟨.proceed, event⟩

/-- `__call__` followed by `process_view`. -/
def handle (settings : Settings) (env : Environment) (request : Request) (view : View)
    (kwargs : ViewKwargs) : Outcome :=
  processView settings env request (call settings env request) view kwargs

end Middleware

end Forail.Isolation
