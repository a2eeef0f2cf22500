import Forail.Base.Runs
import Forail.Tenancy.Quota

/-! The daily launch limit under concurrent recalculations. The gate reads and writes the
usage row under its lock. A recalculation reads the row without the lock and later saves
all columns of its copy, so it can put back an older launch count or an older window. The
limit holds along runs in which no save does that. -/

namespace Forail.Tenancy

/-- `recalculate_tenant_usage` on the copy that was read; a failed count keeps the value. -/
def recalculated (usage : TenantUsage) (hostsCount running : Option ℕ) (now : Time) : TenantUsage :=
  { usage with
    hostsCount := hostsCount.getD usage.hostsCount
    concurrentJobsCount := running.getD usage.concurrentJobsCount
    lastRecalculatedAt := some now }.save now

/-- The row of one tenant, the copies that recalculations hold, and the times of the
admitted launches. -/
structure RowState where
  clock : Time
  stored : Option TenantUsage
  held : ℕ → Option TenantUsage
  admitted : List Time

inductive RowEvent
  | gate (org : Organization) (launch : Launch) (created now : Time)
  | jobFinished
  | recalculateRead (worker : ℕ) (now : Time)
  | recalculateSave (worker : ℕ) (hostsCount running : Option ℕ) (now : Time)

/-- The runs of gates and recalculations on one row. The clock does not go back, and
`daily` gives the daily limit of each day; the other limits may change at any time. -/
def rowRuns (daily : ℤ → Option ℕ) : System RowState RowEvent where
  init s := s.stored = none ∧ s.held = (fun _ => none) ∧ s.admitted = []
  step s e s' := match e with
    | .gate org launch created now =>
      org.isTenantRoot = true ∧ org.tenantMaxDailyLaunches = daily (date now) ∧
      s.clock ≤ created ∧ created ≤ now ∧
      s' = { s with
        clock := now
        stored := (checkTenantQuota true (some org) launch s.stored created now).2
        admitted := if (checkTenantQuota true (some org) launch s.stored created now).1.allowed
          then now :: s.admitted else s.admitted }
    | .jobFinished => s' = { s with stored := onJobFinished s.stored }
    | .recalculateRead worker now =>
      s.clock ≤ now ∧
      s' = { s with
        clock := now
        stored := some (TenantUsage.getOrCreate s.stored now)
        held := Function.update s.held worker (some (TenantUsage.getOrCreate s.stored now)) }
    | .recalculateSave worker hostsCount running now =>
      s.clock ≤ now ∧ ∃ usage, s.held worker = some usage ∧
      s' = { s with
        clock := now
        stored := some (recalculated usage hostsCount running now)
        held := Function.update s.held worker none }

/-- The launches admitted on a day. -/
def admittedOn (s : RowState) (d : ℤ) : ℕ := s.admitted.countP fun t => date t = d

/-- The copy has the window of the stored row, and at least its launch count. -/
def Current (copy stored : TenantUsage) : Prop :=
  copy.launchesTodayWindowStart.map date = stored.launchesTodayWindowStart.map date ∧
    stored.launchesTodayCount ≤ copy.launchesTodayCount

/-- A save of a recalculation does not lower the launch count or move the window. -/
def SaveGuard (s : RowState) : RowEvent → Prop
  | .recalculateSave worker _ _ _ => ∀ copy stored, s.held worker = some copy →
      s.stored = some stored → Current copy stored
  | _ => True

/-! ### The invariant -/

/-- The row counts all launches of its window, and there are none after it. -/
structure RowCounts (usage : TenantUsage) (clock : Time) (admitted : List Time) : Prop where
  window : ∃ ws, usage.launchesTodayWindowStart = some ws ∧ date ws ≤ date clock ∧
    (∀ t ∈ admitted, date t ≤ date ws) ∧
    admitted.countP (fun t => date t = date ws) ≤ usage.launchesTodayCount

structure RowInv (daily : ℤ → Option ℕ) (s : RowState) : Prop where
  stored : ∀ usage, s.stored = some usage → RowCounts usage s.clock s.admitted
  fresh : s.stored = none → s.admitted = []
  held : ∀ worker copy, s.held worker = some copy → s.stored ≠ none
  cap : ∀ d L, daily d = some L → 0 < L → admittedOn s d ≤ L

theorem date_mono {t u : Time} (h : t ≤ u) : date t ≤ date u :=
  Int.ediv_le_ediv (by decide) h

section Steps
variable {daily : ℤ → Option ℕ} {s : RowState}

theorem RowCounts.later {usage : TenantUsage} {clock now : Time} {admitted : List Time}
    (h : RowCounts usage clock admitted) (hn : clock ≤ now) : RowCounts usage now admitted := by
  obtain ⟨ws, hw, hd, hall, hc⟩ := h.window
  exact ⟨ws, hw, hd.trans (date_mono hn), hall, hc⟩

/-- Only the window and the launch count matter. -/
theorem RowCounts.congr {usage usage' : TenantUsage} {clock : Time} {admitted : List Time}
    (h : RowCounts usage clock admitted)
    (hw : usage'.launchesTodayWindowStart = usage.launchesTodayWindowStart)
    (hc : usage'.launchesTodayCount = usage.launchesTodayCount) :
    RowCounts usage' clock admitted := by
  obtain ⟨ws, hws, hd, hall, hcount⟩ := h.window
  exact ⟨ws, hw.trans hws, hd, hall, hc ▸ hcount⟩

theorem RowInv.getOrCreate (h : RowInv daily s) {created : Time} (hc : s.clock ≤ created) :
    RowCounts (TenantUsage.getOrCreate s.stored created) created s.admitted := by
  cases hs : s.stored with
  | some usage => exact (h.stored usage hs).later hc
  | none =>
    refine ⟨_, rfl, ?_, ?_, ?_⟩
    · exact (date_top created).le
    · simp [h.fresh hs]
    · simp [h.fresh hs]

/-- After the rollover the row counts the launches of the current day. -/
theorem RowCounts.rollover {usage : TenantUsage} {clock now : Time} {admitted : List Time}
    (h : RowCounts usage clock admitted) (hn : clock ≤ now) :
    admitted.countP (fun t => date t = date now) ≤ (usage.rollover now).launchesTodayCount ∧
      (∀ t ∈ admitted, date t ≤ date now) := by
  obtain ⟨ws, hw, hd, hall, hc⟩ := h.window
  have hle : date ws ≤ date now := hd.trans (date_mono hn)
  refine ⟨?_, fun t ht => (hall t ht).trans hle⟩
  by_cases he : date ws = date now
  · have hexp : isWindowExpired usage.launchesTodayWindowStart now = false := by
      simp [isWindowExpired, hw, he]
    rw [TenantUsage.rollover, hexp, ← he]
    exact hc
  · -- the window is over, so nothing was admitted today
    have hzero : admitted.countP (fun t => date t = date now) = 0 := by
      rw [List.countP_eq_zero]
      intro t ht
      have := hall t ht
      simp only [decide_eq_true_eq]
      omega
    rw [hzero]
    exact Nat.zero_le _

theorem RowCounts.of_today {usage : TenantUsage} {ws now : Time} {admitted : List Time}
    (hw : usage.launchesTodayWindowStart = some ws) (hd : date ws = date now)
    (hall : ∀ t ∈ admitted, date t ≤ date now)
    (hc : admitted.countP (fun t => date t = date now) ≤ usage.launchesTodayCount) :
    RowCounts usage now admitted :=
  ⟨ws, hw, hd.le, fun t ht => hd ▸ hall t ht, by rw [hd]; exact hc⟩

/-- The gate admits at most as many launches a day as the limit says. -/
theorem RowInv.gate (h : RowInv daily s) {org : Organization} (hroot : org.isTenantRoot = true)
    (launch : Launch) {created now : Time}
    (hdaily : org.tenantMaxDailyLaunches = daily (date now)) (hc : s.clock ≤ created)
    (hn : created ≤ now) {r : QuotaResult × Option TenantUsage}
    (hr : checkTenantQuota true (some org) launch s.stored created now = r) :
    RowInv daily { s with
      clock := now, stored := r.2,
      admitted := if r.1.allowed then now :: s.admitted else s.admitted } := by
  have hrow := h.getOrCreate hc
  obtain ⟨htoday, hall⟩ := hrow.rollover hn
  obtain ⟨ws, hws, hwd⟩ := rollover_window (TenantUsage.getOrCreate s.stored created) now
  have hcases := checkTenantQuota_cases hroot launch s.stored created now
  rw [hr] at hcases
  cases hcases with
  | blocked ha =>
    simp only [ha, Bool.false_eq_true, if_false]
    refine ⟨fun usage hu => ?_, fun hnone => (by cases hnone),
      fun _ _ _ hnone => (by cases hnone), h.cap⟩
    rw [← Option.some.inj hu]
    exact .of_today hws hwd hall htoday
  | admitted ha hcheck =>
    simp only [ha, if_true]
    refine ⟨fun usage hu => ?_, fun hnone => (by cases hnone),
      fun _ _ _ hnone => (by cases hnone), fun d L hL hpos => ?_⟩
    · rw [← Option.some.inj hu]
      refine .of_today hws hwd (List.forall_mem_cons.mpr ⟨le_rfl, hall⟩) ?_
      rw [List.countP_cons_of_pos (by simp)]
      exact Nat.add_le_add_right htoday 1
    · have hold := h.cap d L hL hpos
      unfold admittedOn at hold ⊢
      by_cases hd : date now = d
      · subst hd
        rw [hdaily, hL] at hcheck
        have hlt : (TenantUsage.rollover (TenantUsage.getOrCreate s.stored created)
            now).launchesTodayCount < L := by
          simpa [checkQuotaValue, Nat.pos_iff_ne_zero.mp hpos] using hcheck
        rw [List.countP_cons_of_pos (by simp)]
        omega
      · rw [List.countP_cons_of_neg (by simpa using hd)]
        exact hold

theorem recalculated_window (usage : TenantUsage) {ws : Time}
    (h : usage.launchesTodayWindowStart = some ws) (hostsCount running : Option ℕ) (now : Time) :
    (recalculated usage hostsCount running now).launchesTodayWindowStart = some ws ∧
      (recalculated usage hostsCount running now).launchesTodayCount = usage.launchesTodayCount := by
  unfold recalculated
  rw [save_of_window ws (by exact h)]
  exact ⟨h, rfl⟩

theorem RowInv.step (h : RowInv daily s) {e : RowEvent} {s' : RowState}
    (hs : (rowRuns daily).step s e s') (hg : SaveGuard s e) : RowInv daily s' := by
  cases e with
  | gate org launch created now =>
    obtain ⟨hroot, hdaily, hc, hn, rfl⟩ := hs
    exact h.gate hroot launch hdaily hc hn rfl
  | jobFinished =>
    rw [show s' = _ from hs]
    refine ⟨fun usage hu => ?_, fun hnone => ?_, fun w copy hw => ?_, h.cap⟩
    · obtain ⟨old, hold, rfl⟩ := Option.map_eq_some_iff.mp hu
      exact (h.stored old hold).congr rfl rfl
    · exact h.fresh (Option.map_eq_none_iff.mp hnone)
    · exact fun hnone => h.held w copy hw (Option.map_eq_none_iff.mp hnone)
  | recalculateRead worker now =>
    obtain ⟨hn, rfl⟩ := hs
    refine ⟨fun usage hu => ?_, fun hnone => (by cases hnone),
      fun _ _ _ hnone => (by cases hnone), h.cap⟩
    rw [← Option.some.inj hu]
    exact h.getOrCreate hn
  | recalculateSave worker hostsCount running now =>
    obtain ⟨hn, copy, hheld, rfl⟩ := hs
    obtain ⟨stored, hstored⟩ := Option.ne_none_iff_exists'.mp (h.held worker copy hheld)
    refine ⟨fun usage hu => ?_, fun hnone => (by cases hnone),
      fun _ _ _ hnone => (by cases hnone), h.cap⟩
    rw [← Option.some.inj hu]
    obtain ⟨ws, hw, hd, hall, hc⟩ := ((h.stored stored hstored).later hn).window
    obtain ⟨hwindow, hcount⟩ := hg copy stored hheld hstored
    rw [hw, Option.map_some] at hwindow
    obtain ⟨ws', hw', hwd⟩ := Option.map_eq_some_iff.mp hwindow
    obtain ⟨hrw, hrc⟩ := recalculated_window copy hw' hostsCount running now
    exact ⟨ws', hrw, hwd ▸ hd, hwd ▸ hall, by rw [hwd, hrc]; exact hc.trans hcount⟩

end Steps

def onePerDay : Organization := ⟨"tenant", true, none, some 1, none, none⟩

end Forail.Tenancy
