import Mathlib.Algebra.Order.Ring.Int
import Mathlib.Data.List.Basic

/-! The launch gate of a tenant. The gate reads the usage row of the organization under a
row lock, rolls the daily window over, compares four counters with their limits and
either counts the launch or saves only the window. -/

namespace Forail.Tenancy

/-! ### Helpers -/

/-- Microseconds since the epoch, in UTC. -/
abbrev Time := ℤ

def dayLength : ℤ := 86400000000

/-- The UTC calendar day. -/
def date (t : Time) : ℤ := t / dayLength

inductive QuotaKind
  | concurrentJobs | dailyLaunches | hosts | storageMb
  deriving DecidableEq

def QuotaKind.label : QuotaKind → String
  | .concurrentJobs => "Concurrent jobs"
  | .dailyLaunches => "Daily launches"
  | .hosts => "Hosts"
  | .storageMb => "Storage (MB)"

inductive Decision
  | allowed | blocked
  deriving DecidableEq

/-- A limit that is missing or zero means unlimited. -/
def checkQuotaValue (current : ℕ) : Option ℕ → Bool
  | none => true
  | some limit => limit = 0 || current < limit

def isWindowExpired (windowStart : Option Time) (now : Time) : Bool :=
  match windowStart with
  | none => true
  | some ws => date ws ≠ date now

def resetDailyWindow (now : Time) : Time × ℕ := (date now * dayLength, 0)

def formatQuotaMessage (kind : QuotaKind) (current : ℕ) (limit : Option ℕ) : String :=
  let lim := match limit with
    | none => "unlimited"
    | some l => if l = 0 then "unlimited" else toString l
  kind.label ++ " quota exceeded (" ++ toString current ++ "/" ++ lim ++ ")"

/-! ### The usage row -/

structure TenantUsage where
  concurrentJobsCount : ℕ
  launchesTodayCount : ℕ
  launchesTodayWindowStart : Option Time
  hostsCount : ℕ
  storageMbUsed : ℕ
  lastRecalculatedAt : Option Time
  deriving DecidableEq

namespace TenantUsage

/-- The field defaults of the model. -/
def new : TenantUsage := ⟨0, 0, none, 0, 0, none⟩

/-- The row that `save` stores; a missing window is filled in. -/
def save (usage : TenantUsage) (now : Time) : TenantUsage :=
  if usage.launchesTodayWindowStart.isNone then
    { usage with launchesTodayWindowStart := some (resetDailyWindow now).1 }
  else usage

/-- `get_or_create`: a new row has been saved once. -/
def getOrCreate (stored : Option TenantUsage) (now : Time) : TenantUsage :=
  stored.getD (new.save now)

/-- The daily window rollover. -/
def rollover (usage : TenantUsage) (now : Time) : TenantUsage :=
  if isWindowExpired usage.launchesTodayWindowStart now then
    { usage with
      launchesTodayWindowStart := some (resetDailyWindow now).1
      launchesTodayCount := (resetDailyWindow now).2 }
  else usage

end TenantUsage

/-! ### The gate -/

structure Organization where
  name : String
  isTenantRoot : Bool
  tenantMaxConcurrentJobs : Option ℕ
  tenantMaxDailyLaunches : Option ℕ
  tenantMaxHosts : Option ℕ
  tenantMaxStorageMb : Option ℕ

structure TenantQuotaEvent where
  organizationName : String
  quotaKind : QuotaKind
  decision : Decision
  currentValue : ℕ
  limitValue : Option ℕ
  triggeredBy : Option ℕ
  unifiedJobTemplate : Option ℕ
  message : String

structure QuotaResult where
  allowed : Bool
  reasons : List String
  events : List TenantQuotaEvent

/-- Who launches what. -/
structure Launch where
  user : Option ℕ
  unifiedJobTemplate : Option ℕ

structure Check where
  kind : QuotaKind
  current : ℕ
  limit : Option ℕ

def checks (usage : TenantUsage) (org : Organization) : List Check :=
  [⟨.concurrentJobs, usage.concurrentJobsCount, org.tenantMaxConcurrentJobs⟩,
   ⟨.dailyLaunches, usage.launchesTodayCount, org.tenantMaxDailyLaunches⟩,
   ⟨.hosts, usage.hostsCount, org.tenantMaxHosts⟩,
   ⟨.storageMb, usage.storageMbUsed, org.tenantMaxStorageMb⟩]

def Check.event (c : Check) (org : Organization) (launch : Launch) (decision : Decision)
    (message : String) : TenantQuotaEvent :=
  ⟨org.name, c.kind, decision, c.current, c.limit.filter (· ≠ 0), launch.user,
    launch.unifiedJobTemplate, message⟩

/-- The result and the row after the transaction. A missing row is created at `created`,
the window is compared with `now`. The first check that fails blocks the launch. -/
def checkTenantQuota (enabled : Bool) (org : Option Organization) (launch : Launch)
    (stored : Option TenantUsage) (created now : Time) : QuotaResult × Option TenantUsage :=
  match enabled, org with
  | true, some org =>
    if org.isTenantRoot then
      let row := TenantUsage.getOrCreate stored created
      let usage := row.rollover now
      match (checks usage org).find? fun c => !checkQuotaValue c.current c.limit with
      | some c =>
        let msg := formatQuotaMessage c.kind c.current c.limit
        (⟨false, [msg], [c.event org launch .blocked msg]⟩,
         some { row with
           launchesTodayWindowStart := usage.launchesTodayWindowStart
           launchesTodayCount := usage.launchesTodayCount })
      | none =>
        (⟨true, [], (checks usage org).map fun c => c.event org launch .allowed ""⟩,
         some ({ usage with
           concurrentJobsCount := usage.concurrentJobsCount + 1
           launchesTodayCount := usage.launchesTodayCount + 1 }.save now))
    else (⟨true, [], []⟩, stored)
  | _, _ => (⟨true, [], []⟩, stored)

/-- `on_job_finished` on the row, if there is one. -/
def onJobFinished (stored : Option TenantUsage) : Option TenantUsage :=
  stored.map fun usage => { usage with concurrentJobsCount := usage.concurrentJobsCount - 1 }

/-! ### What the gate does to the row -/

theorem save_of_window {usage : TenantUsage} (ws : Time)
    (h : usage.launchesTodayWindowStart = some ws) (now : Time) : usage.save now = usage := by
  simp [TenantUsage.save, h]

theorem date_top (now : Time) : date (resetDailyWindow now).1 = date now := by
  simp [resetDailyWindow, date, dayLength]

/-- After the rollover the window is that of the current day. -/
theorem rollover_window (usage : TenantUsage) (now : Time) :
    ∃ ws, (usage.rollover now).launchesTodayWindowStart = some ws ∧ date ws = date now := by
  unfold TenantUsage.rollover
  cases hw : usage.launchesTodayWindowStart with
  | none => exact ⟨_, by simp [isWindowExpired], date_top now⟩
  | some ws =>
    by_cases h : date ws = date now
    · exact ⟨ws, by simp [isWindowExpired, h, hw], h⟩
    · exact ⟨_, by simp [isWindowExpired, h], date_top now⟩

theorem rollover_concurrent (usage : TenantUsage) (now : Time) :
    (usage.rollover now).concurrentJobsCount = usage.concurrentJobsCount := by
  unfold TenantUsage.rollover
  split_ifs <;> rfl

theorem getOrCreate_concurrent (stored : Option TenantUsage) (now : Time) :
    (TenantUsage.getOrCreate stored now).concurrentJobsCount =
      (stored.map TenantUsage.concurrentJobsCount).getD 0 := by
  cases stored with
  | none =>
    unfold TenantUsage.getOrCreate TenantUsage.save
    split_ifs <;> rfl
  | some usage => rfl

/-- What a tenant's gate does: it blocks and saves the rolled-over window, or it admits and
counts the launch, and then the daily limit was not reached. -/
inductive GateCases (org : Organization) (row : TenantUsage) (now : Time) :
    QuotaResult × Option TenantUsage → Prop
  | blocked {r : QuotaResult} : r.allowed = false → GateCases org row now (r, some { row with
      launchesTodayWindowStart := (row.rollover now).launchesTodayWindowStart
      launchesTodayCount := (row.rollover now).launchesTodayCount })
  | admitted {r : QuotaResult} : r.allowed = true →
      checkQuotaValue (row.rollover now).launchesTodayCount org.tenantMaxDailyLaunches = true →
      GateCases org row now (r, some { row.rollover now with
        concurrentJobsCount := row.concurrentJobsCount + 1
        launchesTodayCount := (row.rollover now).launchesTodayCount + 1 })

theorem checkTenantQuota_cases {org : Organization} (h : org.isTenantRoot = true) (launch : Launch)
    (stored : Option TenantUsage) (created now : Time) :
    GateCases org (TenantUsage.getOrCreate stored created) now
      (checkTenantQuota true (some org) launch stored created now) := by
  simp only [checkTenantQuota, h, if_true]
  generalize hrow : TenantUsage.getOrCreate stored created = row
  cases hf : (checks (row.rollover now) org).find? fun c => !checkQuotaValue c.current c.limit with
  | some c => exact .blocked rfl
  | none =>
    obtain ⟨ws, hws, -⟩ := rollover_window row now
    have hdaily := List.find?_eq_none.mp hf
      ⟨.dailyLaunches, (row.rollover now).launchesTodayCount, org.tenantMaxDailyLaunches⟩
      (by simp [checks])
    dsimp only
    rw [save_of_window ws (by exact hws), rollover_concurrent]
    exact .admitted rfl (by simpa using hdaily)

/-- The gate counts a job exactly when it admits it. -/
theorem checkTenantQuota_concurrent {org : Organization} (h : org.isTenantRoot = true)
    (launch : Launch) (stored : Option TenantUsage) (created now : Time) :
    ((checkTenantQuota true (some org) launch stored created now).2.map
        TenantUsage.concurrentJobsCount).getD 0 =
      (stored.map TenantUsage.concurrentJobsCount).getD 0 +
        if (checkTenantQuota true (some org) launch stored created now).1.allowed then 1 else 0 := by
  have hc := checkTenantQuota_cases h launch stored created now
  have hrow := getOrCreate_concurrent stored created
  generalize checkTenantQuota true (some org) launch stored created now = r at hc ⊢
  cases hc with
  | blocked ha => simpa [ha] using hrow
  | admitted ha _ => simpa [ha] using hrow

end Forail.Tenancy
