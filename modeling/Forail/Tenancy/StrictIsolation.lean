import Forail.Tenancy.Isolation

/-! When strict isolation holds: exactly which requests for rows of other tenants are
blocked and recorded, and which requests for rows of the own tenant go on. -/

namespace Forail.Isolation

section Purpose
variable (settings : Settings) (env : Environment) (request : Request) (org : Organization)
  (view : View) (kwargs : ViewKwargs)

/-- The organization of a row: itself, that of the inventory of a host, or its own column. -/
def owner (db : Database) (pk : ℕ) : Model → Option ℕ
  | .organization => if db.organizations pk then some pk else none
  | .host => (db.hostInventory pk).bind (db.organizationId "main_inventory")
  | .owned table => db.organizationId table pk
  | .related _ | .other _ => none

/-- The organization of the row that the view loads. -/
def targetOwner : Option ℕ := do
  let pk ← kwargs.pk
  let model ← view.target
  owner env.db pk model

/-- Another organization. -/
def foreign (o : Option ℕ) : Bool := o.any fun pk => pk ≠ org.pk

/-- The user of a tenant with strict isolation makes a request that is not exempt. -/
structure StrictRequest (user : User) : Prop where
  tenancyEnabled : settings.tenancyEnabled = true
  strictEnabled : settings.tenancyStrictIsolationEnabled = true
  sender : request.user = some user
  isAuthenticated : user.isAuthenticated = true
  isSuperuser : user.isSuperuser = false
  tenantOrg : user.tenantOrg = some org
  strict : org.tenantIsolationStrict = true
  path : shouldExemptIsolation request.path = false

/-- A foreign target is answered with 403 and a blocked event, and any other goes on. -/
def Isolated : Prop :=
  let outcome := handle settings env request view kwargs
  if foreign org (targetOwner env view kwargs) then
    (∃ eventId, outcome.response = .forbidden eventId) ∧
      ∃ event, outcome.recorded = some event ∧ event.blocked = true
  else outcome.response = .proceed

/-- The tenant comes with the request to the strict gate. -/
def gated : Bool :=
  settings.tenancyRlsEnabled && !env.organizationsFail && !env.setTenantIdFails

def Model.table : Model → String
  | .organization => "main_organization"
  | .host => "main_host"
  | .owned table | .related table | .other table => table

/-- The request shows a foreign organization: by its argument, or else by the row with the
`pk` of the target in the table of the view's model, if row-level security does not hide it
and the model is not that of organizations. -/
def ShowsForeign : Prop :=
  match kwargs.organization with
  | some pk => pk ≠ org.pk
  | none => ∃ pk model, kwargs.pk = some pk ∧ view.viewCls = some (some model) ∧
    env.targetFails = false ∧ model ≠ .organization ∧ foreign org (owner env.db pk model) = true ∧
    (env.db.bypassRls = true ∨ model.table ∉ rlsTables)

end Purpose

section Isolation
variable {settings : Settings} {env : Environment} {request : Request} {org : Organization}
  {view : View} {kwargs : ViewKwargs} {user : User}

theorem lookup_ne (db : Database) (tenantId : Option ℕ) (table : String) (pk : ℕ) :
    (db.lookup tenantId table pk).filter (fun org => org ≠ 0) = db.lookup tenantId table pk := by
  unfold Database.lookup
  cases horg : db.organizationId table pk with
  | none => rfl
  | some o =>
    have hne : o ≠ 0 := by
      rintro rfl
      exact db.organizationId_ne table pk horg
    cases hv : db.visible tenantId table (some o) <;> simp [Option.filter, hv, hne]

/-- The lookup finds the owner of a visible row, but never an organization itself. -/
theorem resolveFromModel_eq (db : Database) (tenantId : Option ℕ) (pk : ℕ) (model : Model) :
    resolveFromModel db tenantId pk model =
      if model = .organization then none
      else (owner db pk model).filter fun o => db.visible tenantId model.table (some o) := by
  cases model with
  | organization => rfl
  | owned table => exact lookup_ne db tenantId table pk
  | related table | other table => rfl
  | host =>
    have hsame (o : Option ℕ) : db.visible tenantId "main_inventory" o =
        db.visible tenantId "main_host" o := by
      simp [Database.visible, rlsTables]
    simp only [resolveFromModel, lookup_ne]
    unfold owner Database.lookup Model.table
    cases hinv : db.hostInventory pk with
    | none => rfl
    | some inv =>
      have hne : inv ≠ 0 := by
        rintro rfl
        exact db.hostInventory_ne pk hinv
      cases ho : db.organizationId "main_inventory" inv with
      | none => simp [ho, Option.filter]
      | some o => cases hv : db.visible tenantId "main_host" (some o) <;>
        simp [ho, hsame, hv, hne, Option.filter]

/-- Of another tenant only rows without policy are visible. -/
theorem visible_foreign {db : Database} {table : String} {pk : ℕ} (h : pk ≠ org.pk) :
    db.visible (some org.pk) table (some pk) = true ↔ db.bypassRls = true ∨ table ∉ rlsTables := by
  simp [Database.visible, h]

theorem foreign_filter {db : Database} {table : String} {o : Option ℕ} :
    foreign org (o.filter fun pk => db.visible (some org.pk) table (some pk)) = true ↔
      foreign org o = true ∧ (db.bypassRls = true ∨ table ∉ rlsTables) := by
  cases o with
  | none => simp [foreign]
  | some pk =>
    by_cases hpk : pk = org.pk
    · simp [foreign, Option.filter, hpk]
      split_ifs <;> simp
    · rw [← visible_foreign hpk]
      cases hv : db.visible (some org.pk) table (some pk) <;> simp [foreign, hpk, hv]

/-- The gate finds a foreign organization exactly where the request shows one. -/
theorem foreign_resolve :
    foreign org (resolveTargetOrgId env (some org.pk) view kwargs) = true ↔
      ShowsForeign env org view kwargs := by
  unfold resolveTargetOrgId ShowsForeign
  cases kwargs.organization with
  | some pk => simp [foreign]
  | none =>
    cases kwargs.pk with
    | none => simp [foreign]
    | some pk =>
      cases view.viewCls with
      | none => simp [foreign]
      | some cls =>
        cases cls with
        | none => simp [foreign]
        | some model =>
          cases htarget : env.targetFails with
          | true => simp [foreign]
          | false =>
            by_cases hmodel : model = .organization
            · simp [foreign, resolveFromModel_eq, hmodel]
            · simp [resolveFromModel_eq, hmodel, foreign_filter]

theorem call_eq (h : StrictRequest settings request org user) :
    call settings env request = if gated settings env then some org else none := by
  unfold call resolveTenantOrg gated
  simp only [h.tenancyEnabled, h.sender, h.isAuthenticated, h.isSuperuser, h.tenantOrg]
  cases settings.tenancyRlsEnabled <;> cases env.organizationsFail <;>
    cases env.setTenantIdFails <;> rfl

/-- What the strict gate does with the organization that it finds. -/
theorem handle_eq (h : StrictRequest settings request org user) :
    handle settings env request view kwargs =
      if gated settings env ∧
        foreign org (resolveTargetOrgId env (some org.pk) view kwargs) = true then
        ⟨.forbidden env.event, (resolveTargetOrgId env (some org.pk) view kwargs).bind fun target =>
          emitIsolationEvent env user request org target true⟩
      else ⟨.proceed, none⟩ := by
  unfold handle processView
  rw [call_eq h]
  simp only [h.tenancyEnabled, h.sender, h.isAuthenticated, h.isSuperuser, h.path,
    h.strictEnabled]
  cases gated settings env with
  | false => rfl
  | true =>
    cases hr : resolveTargetOrgId env (some org.pk) view kwargs with
    | none => simp [hr, foreign]
    | some target =>
      by_cases ht : target = org.pk <;>
        simp [hr, foreign, ht, makeIsolationDecision, h.strict]

/-- A request of a tenant with strict isolation is treated as it should be exactly if a
foreign target is shown to the gate and its event is recorded, and any other target does
not make the gate see a foreign organization. -/
theorem isolated_iff (h : StrictRequest settings request org user) :
    Isolated settings env request org view kwargs ↔
      if foreign org (targetOwner env view kwargs) then
        gated settings env = true ∧ ShowsForeign env org view kwargs ∧ env.event.isSome = true
      else ¬(gated settings env = true ∧ ShowsForeign env org view kwargs) := by
  unfold Isolated
  rw [← foreign_resolve, handle_eq h]
  cases hr : resolveTargetOrgId env (some org.pk) view kwargs with
  | none => cases foreign org (targetOwner env view kwargs) <;> simp [foreign]
  | some target =>
    cases gated settings env <;> cases foreign org (some target) <;>
      cases foreign org (targetOwner env view kwargs) <;> cases hev : env.event <;>
      simp [emitIsolationEvent, hev]

end Isolation

section Inventories

/-- A strict tenant. -/
def tenantOne : Organization := ⟨1, Nat.one_pos, true, true⟩

def member : User := ⟨7, true, false, [tenantOne]⟩

/-- Every inventory and every log of an event rule belongs to another organization. -/
def foreignRows (bypassRls : Bool) : Environment where
  db :=
    { organizationId := fun table _ =>
        if table = "main_inventory" ∨ table = "main_eventlog" then some 2 else none
      organizationId_ne := by
        intro table pk
        split_ifs <;> decide
      hostInventory := fun _ => none
      hostInventory_ne := nofun
      organizations := fun pk => pk = 1 ∨ pk = 2
      bypassRls := bypassRls }
  organizationsFail := false
  setTenantIdFails := false
  targetFails := false
  event := some 30

def detail (model : Model) : View := ⟨some (some model), some model⟩

theorem member_strictRequest (rls : Bool) {path : String}
    (h : shouldExemptIsolation path = false) :
    StrictRequest ⟨true, rls, true⟩ ⟨some member, path⟩ tenantOne member :=
  ⟨rfl, rfl, rfl, rfl, rfl, rfl, rfl, h⟩

variable {settings : Settings} {env : Environment} {request : Request} {org : Organization}
  {view : View} {kwargs : ViewKwargs}

theorem not_isolated_foreign (hf : foreign org (targetOwner env view kwargs) = true)
    (hp : (handle settings env request view kwargs).response = .proceed) :
    ¬Isolated settings env request org view kwargs := by
  unfold Isolated
  rw [if_pos hf, hp]
  rintro ⟨⟨eventId, he⟩, -⟩
  cases he

theorem not_isolated_own (hf : foreign org (targetOwner env view kwargs) = false)
    (hp : (handle settings env request view kwargs).response ≠ .proceed) :
    ¬Isolated settings env request org view kwargs := by
  unfold Isolated
  rw [if_neg (by rw [hf]; nofun)]
  exact hp

/-- A foreign inventory is shown without row-level security, and with it, as the gate does not
see it either; and a foreign organization is shown. Where the gate sees foreign rows it takes
the list of the own organization's inventories for the inventory with its key. -/
theorem isolated_inventories :
    (∀ rls, StrictRequest ⟨true, rls, true⟩ ⟨some member, "/api/v2/inventories/5/"⟩
      tenantOne member) ∧
    (∀ rls, ¬Isolated ⟨true, rls, true⟩ (foreignRows false)
      ⟨some member, "/api/v2/inventories/5/"⟩ tenantOne (detail (.owned "main_inventory"))
      ⟨none, some 5⟩) ∧
    (∀ rls, ¬Isolated ⟨true, rls, true⟩ (foreignRows true)
      ⟨some member, "/api/v2/organizations/2/"⟩ tenantOne (detail .organization)
      ⟨none, some 2⟩) ∧
    ¬Isolated ⟨true, true, true⟩ (foreignRows true)
      ⟨some member, "/api/v2/organizations/1/inventories/"⟩ tenantOne
      ⟨some (some (.owned "main_inventory")), some .organization⟩ ⟨none, some 1⟩ := by
  refine ⟨fun rls => member_strictRequest rls (by decide +kernel), fun rls => ?_, fun rls => ?_, ?_⟩
  · apply not_isolated_foreign
    · decide +kernel
    · cases rls <;> decide +kernel
  · apply not_isolated_foreign
    · decide +kernel
    · cases rls <;> decide +kernel
  · apply not_isolated_own
    · decide +kernel
    · decide +kernel

theorem isolated_iff_eventLog :
    Isolated ⟨true, true, true⟩ (foreignRows false) ⟨some member, "/api/v2/event_logs/9/"⟩
      tenantOne (detail (.owned "main_eventlog")) ⟨none, some 9⟩ := by
  apply (isolated_iff (member_strictRequest true (by decide +kernel))).mpr
  rw [if_pos (by decide +kernel)]
  refine ⟨rfl, ⟨9, .owned "main_eventlog", rfl, rfl, rfl, nofun, by decide +kernel, ?_⟩, rfl⟩
  exact Or.inr (by decide +kernel)

end Inventories

end Forail.Isolation
