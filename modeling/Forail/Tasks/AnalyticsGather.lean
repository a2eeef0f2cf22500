import Forail.Base.Dict
import Mathlib.Algebra.Order.Group.Int
import Mathlib.Algebra.Order.Ring.Int
import Mathlib.Data.Int.Order.Basic
import Mathlib.Tactic.SplitIfs

/-! Gathering of analytics. A table is collected in slices of time, each shipped by itself, and how far a table has come
is kept in a setting from one gathering to the next, to the millisecond. Moments are in microseconds. -/

namespace Forail.Analytics

def hours (n : ℤ) : ℤ := n * 3600000000

def days (n : ℤ) : ℤ := hours (24 * n)

def weeks (n : ℤ) : ℤ := days (7 * n)

/-- What is left of a moment in JSON. -/
def floor (t : ℤ) : ℤ := t - t % 1000

/-- An entry of `AUTOMATION_ANALYTICS_LAST_ENTRIES`, with those left out that count as none; one that is no date is
stale. -/
inductive Entry
  | time (t : ℤ)
  | stale
  deriving DecidableEq

def Entry.stored : Entry → Entry
  | .time t => .time (floor t)
  | .stale => .stale

/-- The entry when the data up to a moment has been shipped. -/
def Entry.upTo (entry : Option Entry) (stop : ℤ) : Entry :=
  match entry with
  | some (.time t) => .time (max t stop)
  | some .stale | none => .time stop

structure Slice where
  start : ℤ
  stop : ℤ
  deriving DecidableEq

/-! ### The interval -/

/-- `since`, `until` and the last gathering, unless the interval is empty. -/
def calculateCollectionInterval (now : ℤ) (since «until» lastGather : Option ℤ) :
    Option (Option ℤ × ℤ × ℤ) :=
  let stop := «until».map (min · now)
  let since := since.map (min · now)
  let stop := match since, stop with
    | some since, some stop => min stop (since + weeks 4)
    | some since, none => min (since + weeks 4) now
    | none, some stop => stop
    | none, none => now
  if since.any (stop ≤ ·) then none
  else
    let horizon := stop - weeks 4
    some (since.map (max · horizon), stop, max (lastGather.getD horizon) horizon)

/-! ### Slices -/

/-- Slices of one length, and a last one of what is left. -/
def slicesBy (length : ℤ) (stop : ℤ) : ℕ → ℤ → List Slice
  | 0, _ => []
  | fuel + 1, start =>
    if start < stop then
      ⟨start, min (start + length) stop⟩ :: slicesBy length stop fuel (min (start + length) stop)
    else []

def slicesFrom (length : ℤ) (start stop : ℤ) : List Slice := slicesBy length stop (stop - start).toNat start

inductive Slicing
  | trivial | fourHour | hostMetric
  deriving DecidableEq

/-- The slices of a table, where they can be computed. `host_metric_slicing` is a generator, so that with a `since` the
list it returns is lost. -/
def Slicing.slices (slicing : Slicing) (minDates : Option ℤ × Option ℤ) (since : Option ℤ)
    (stop lastGather : ℤ) (entry : Option Entry) (fullSyncEnabled : Bool) : Option (List Slice) :=
  let horizon := stop - weeks 4
  match slicing with
  | .trivial =>
    match since, entry with
    | some since, _ => some [⟨since, stop⟩]
    | none, none => some [⟨max lastGather horizon, stop⟩]
    | none, some (.time t) => some [⟨max t horizon, stop⟩]
    | none, some .stale => none
  | .fourHour =>
    match since, entry with
    | some since, _ => some (slicesFrom (hours 4) since stop)
    | none, none | none, some .stale => some (slicesFrom (hours 4) (max lastGather horizon) stop)
    | none, some (.time t) => some (slicesFrom (hours 4) (max t horizon) stop)
  | .hostMetric =>
    let lowest := match minDates with
      | (some automation, some deleted) => some (min automation deleted)
      | (automation, deleted) => automation.or deleted
    let fullSync := some ((lowest.map fun start => slicesFrom (days 30) start stop).getD [])
    match since, fullSyncEnabled, entry with
    | some _, _, _ => some []
    | none, true, _ | none, false, none => fullSync
    | none, false, some (.time t) => some (slicesFrom (days 30) t stop)
    | none, false, some .stale => none

/-! ### One gathering -/

/-- A collector of a table; there may be several for one key. The interval of the full syncs is in days, zero for none. -/
structure Collector where
  name : String
  key : String
  slicing : Slicing
  fullSyncInterval : ℤ
  deriving DecidableEq

/-- What becomes of an archive. -/
inductive FileResult
  | notPackaged | shipped | refused
  deriving DecidableEq

inductive Collected
  | raised
  | files (results : List FileResult)

/-- What a gathering finds, with the collectors that generate their data and what becomes of it. -/
structure World where
  ready : Bool
  now : ℤ
  later : ℤ
  generated : String → Bool
  archive : FileResult
  collect : String → Slice → Collected
  minDates : Option ℤ × Option ℤ

structure Args where
  since : Option ℤ
  «until» : Option ℤ
  dryRun : Bool

structure Settings where
  lastGather : Option ℤ
  lastEntries : Dict String Entry

/-- A slice of a table that was collected, and whether the entry of the table went past it, for a record of all. -/
structure Processed where
  key : String
  slice : Slice
  advanced : Bool
  deriving DecidableEq

/-- A gathering under way, with its own entries beside those of the setting. -/
structure Progress where
  lastEntries : Dict String Entry
  stored : Dict String Entry
  succeeded : Bool
  log : List Processed

namespace Progress

def setEntry (p : Progress) (key : String) (entry : Entry) : Progress :=
  { p with
    lastEntries := p.lastEntries.set key entry
    stored := (p.lastEntries.set key entry).mapValues fun _ => Entry.stored }

def advance (p : Progress) (key : String) (stop : ℤ) : Progress :=
  p.setEntry key (Entry.upTo (p.lastEntries.get? key) stop)

def fail (p : Progress) : Progress := { p with succeeded := false }

def record (p : Progress) (processed : Processed) : Progress := { p with log := p.log ++ [processed] }

/-- A slice that was collected; a refused file fails it, but the next slices are collected all the same. -/
def process (p : Progress) (dryRun : Bool) (key : String) (slice : Slice) (results : List FileResult) : Progress :=
  if dryRun then p
  else if .refused ∈ results then p.fail.record ⟨key, slice, false⟩
  else (p.advance key slice.stop).record ⟨key, slice, true⟩

end Progress

section Gathering
variable (w : World) (dryRun hasConfig : Bool)

/-- The slices of one collector, until it raises; whether the whole gathering is given up, for want of a configuration to
ship with. -/
def collectSlices (c : Collector) : List Slice → Progress → Progress × Bool
  | [], p => (p, false)
  | slice :: slices, p =>
    match w.collect c.name slice with
    | .raised => (p.fail, false)
    | .files results =>
      if results ≠ [] ∧ !hasConfig then (p, true)
      else collectSlices c slices (p.process dryRun c.key slice results)

/-- Whether it is time for a full sync, where that can be told. -/
def fullSyncEnabled (c : Collector) (entries : Dict String Entry) : Option Bool :=
  if c.fullSyncInterval = 0 then some false
  else
    match entries.get? (c.key ++ "_full") with
    | none => some true
    | some (.time t) => some (t < w.later - days c.fullSyncInterval)
    | some .stale => none

def collect (c : Collector) (since : Option ℤ) (stop lastGather : ℤ) (p : Progress) : Progress × Bool :=
  match fullSyncEnabled w c p.lastEntries with
  | none => (p.fail, false)
  | some fullSync =>
    match c.slicing.slices w.minDates since stop lastGather (p.stored.get? c.key) fullSync with
    | none => (p.fail, false)
    | some slices =>
      let result := collectSlices w dryRun hasConfig c slices p
      if result.2 then result
      else if fullSync ∧ !dryRun ∧ result.1.succeeded then
        (result.1.setEntry (c.key ++ "_full") (.time w.later), false)
      else (result.1, false)

def collectAll (since : Option ℤ) (stop lastGather : ℤ) : List Collector → Progress → Progress × Bool
  | [], p => (p, false)
  | c :: cs, p =>
    let result := collect w dryRun hasConfig c since stop lastGather p
    if result.2 then result else collectAll since stop lastGather cs result.1

end Gathering

/-- The archive of the data that is no table. -/
def shipData (w : World) (dryRun : Bool) (stop : ℤ) (data : List String) (p : Progress) : Progress :=
  if data = [] ∨ dryRun then p
  else
    match w.archive with
    | .shipped => data.foldl (fun p key => p.advance key stop) p
    | .refused => p.fail
    | .notPackaged => p

/-- `gather`, with the keys of the JSON collectors and the collectors of tables. -/
def gather (jsonKeys : List String) (csv : List Collector) (s : Settings) (log : List Processed) (args : Args) (w : World) :
    Settings × List Processed :=
  if !w.ready then (s, log)
  else
    match calculateCollectionInterval w.now args.since args.until s.lastGather with
    | none => (s, log)
    | some (since, stop, lastGather) =>
      let data := jsonKeys.filter fun key => w.generated key ∧ s.lastEntries.get? key ≠ some .stale
      if data ≠ [] ∧ "config" ∉ data then (s, log)
      else
        let p := shipData w args.dryRun stop data ⟨s.lastEntries, s.lastEntries, true, log⟩
        let result := collectAll w args.dryRun ("config" ∈ data) since stop lastGather csv p
        if result.2 ∨ args.dryRun then ({ s with lastEntries := result.1.stored }, result.1.log)
        else (⟨some (s.lastGather.elim stop (max · stop)), result.1.stored⟩, result.1.log)

/-- One gathering after the other, with all slices that were collected. -/
def gathers (jsonKeys : List String) (csv : List Collector) (s : Settings) (runs : List (Args × World)) :
    Settings × List Processed :=
  runs.foldl (fun st run => gather jsonKeys csv st.1 st.2 run.1 run.2) (s, [])

/-! ### The registered collectors -/

def jsonCollectors : List String :=
  ["config", "counts", "cred_type_counts", "instance_info", "inventory_counts", "org_counts", "projects_by_scm_type",
    "query_info"]

/-- In the order of their names; both halves of the events are one table. -/
def csvCollectors : List Collector :=
  [⟨"events_table_partitioned_modified", "events_table", .fourHour, 0⟩,
    ⟨"events_table_unpartitioned", "events_table", .fourHour, 0⟩,
    ⟨"host_metric_summary_monthly_table", "host_metric_summary_monthly_table", .trivial, 0⟩,
    ⟨"host_metric_table", "host_metric_table", .hostMetric, 30⟩,
    ⟨"unified_job_template_table", "unified_job_template_table", .trivial, 0⟩,
    ⟨"unified_jobs_table", "unified_jobs_table", .fourHour, 0⟩,
    ⟨"workflow_job_node_table", "workflow_job_node_table", .fourHour, 0⟩,
    ⟨"workflow_job_template_node_table", "workflow_job_template_node_table", .trivial, 0⟩]

/-! ### Moments to the millisecond -/

theorem floor_le (t : ℤ) : floor t ≤ t := by
  unfold floor
  omega

theorem lt_floor (t : ℤ) : t < floor t + 1000 := by
  unfold floor
  omega

theorem floor_floor (t : ℤ) : floor (floor t) = floor t := by
  unfold floor
  omega

theorem floor_mono {t t' : ℤ} (h : t ≤ t') : floor t ≤ floor t' := by
  unfold floor
  omega

theorem stored_stored (entry : Entry) : entry.stored.stored = entry.stored := by
  cases entry with
  | time t => exact congrArg Entry.time (floor_floor t)
  | stale => rfl

/-! ### Slices one after the other -/

/-- Slices that follow one another up to a moment, none of them short but the last. -/
def Chain (stop : ℤ) : ℤ → List Slice → Prop
  | _, [] => True
  | start, s :: slices =>
    s.start = start ∧ s.stop ≤ stop ∧ (start < s.stop → start + 1000 ≤ s.stop ∨ s.stop = stop) ∧
      (slices = [] ∨ start < s.stop) ∧ Chain stop s.stop slices

theorem chain_slicesBy {length : ℤ} (hlength : 1000 ≤ length) (stop : ℤ) (fuel : ℕ) (start : ℤ) :
    Chain stop start (slicesBy length stop fuel start) := by
  induction fuel generalizing start with
  | zero => exact trivial
  | succ fuel ih =>
    rw [slicesBy]
    split_ifs with hlt
    · refine ⟨rfl, min_le_right _ _, fun _ => ?_, .inr (lt_min (by omega) hlt), ih _⟩
      change start + 1000 ≤ min (start + length) stop ∨ min (start + length) stop = stop
      omega
    · exact trivial

theorem chain_single (start stop : ℤ) : Chain stop start [⟨start, stop⟩] :=
  ⟨rfl, le_refl _, fun _ => .inr rfl, .inl rfl, trivial⟩

/-! ### What is kept -/

/-- A moment is in a slice that was collected, or was too old. -/
def Covered (key : String) (old : ℤ → Prop) (log : List Processed) (t : ℤ) : Prop :=
  (∃ e ∈ log, e.key = key ∧ e.slice.start < t ∧ t ≤ e.slice.stop) ∨ old t

/-- No slice begins before one that the entry had gone past, but for less than a millisecond. -/
def Ordered (key : String) (log : List Processed) : Prop :=
  (log.filter fun e => e.key = key).Pairwise fun a b => a.advanced = true → floor a.slice.stop ≤ b.slice.start

/-- What holds of a table with its entry, its entry in the setting and the slices so far: the entry is not behind a slice
it went past; the slices are ordered; and from any that the entry went past on all is covered up to the entry. -/
structure Kept (key : String) (old : ℤ → Prop) (stop : ℤ) (entry stored : Option Entry) (log : List Processed) : Prop where
  stored : stored = entry.map Entry.stored
  bounded : ∀ e, entry = some (.time e) → e ≤ stop ∨ floor e = e
  entered : ∀ b ∈ log, b.key = key → b.advanced = true → ∃ e, entry = some (.time e) ∧ floor b.slice.stop ≤ e
  ordered : Ordered key log
  covered : ∀ b ∈ log, b.key = key → b.advanced = true → b.slice.start < b.slice.stop →
    ∀ e, entry = some (.time e) → ∀ t, b.slice.start < t → t ≤ e → Covered key old log t

/-- All is covered up to a moment that the entry is not past, but for less than a millisecond. -/
structure Ready (key : String) (old : ℤ → Prop) (x : ℤ) (entry : Option Entry) (log : List Processed) : Prop where
  entry : ∀ e, entry = some (.time e) → floor e ≤ x
  covered : ∀ b ∈ log, b.key = key → b.advanced = true → b.slice.start < b.slice.stop →
    ∀ t, b.slice.start < t → t ≤ x → Covered key old log t

section Kept
variable {key : String} {old : ℤ → Prop} {stop : ℤ} {entry stored : Option Entry} {log : List Processed} {s : Slice}

theorem Covered.append {t : ℤ} (h : Covered key old log t) (log' : List Processed) : Covered key old (log ++ log') t := by
  rcases h with ⟨e, he, hkey, hin⟩ | hold
  · exact .inl ⟨e, List.mem_append_left _ he, hkey, hin⟩
  · exact .inr hold

theorem covered_last {adv : Bool} {t : ℤ} (hstart : s.start < t) (hstop : t ≤ s.stop) :
    Covered key old (log ++ [⟨key, s, adv⟩]) t :=
  .inl ⟨_, List.mem_append_right _ List.mem_cons_self, rfl, hstart, hstop⟩

/-- One more slice begins where the entry is. -/
theorem Kept.ordered_concat (h : Kept key old stop entry stored log) (hready : Ready key old s.start entry log)
    (adv : Bool) : Ordered key (log ++ [⟨key, s, adv⟩]) := by
  rw [Ordered, List.filter_append, List.pairwise_append]
  refine ⟨h.ordered, (List.pairwise_singleton _ _).sublist List.filter_sublist, ?_⟩
  intro a ha b hb hadv
  obtain ⟨ha, hkey⟩ := List.mem_filter.mp ha
  rw [List.mem_singleton.mp (List.mem_filter.mp hb).1]
  obtain ⟨e, hentry, hle⟩ := h.entered a ha (of_decide_eq_true hkey) hadv
  calc floor a.slice.stop = floor (floor a.slice.stop) := (floor_floor _).symm
    _ ≤ floor e := floor_mono hle
    _ ≤ s.start := hready.entry e hentry

/-- A slice that failed leaves the entry as it is. -/
theorem Kept.refuse (h : Kept key old stop entry stored log) (hready : Ready key old s.start entry log) :
    Kept key old stop entry stored (log ++ [⟨key, s, false⟩]) ∧
      (s.start < s.stop → Ready key old s.stop entry (log ++ [⟨key, s, false⟩])) := by
  have hmem : ∀ b ∈ log ++ [⟨key, s, false⟩], b.advanced = true → b ∈ log := by
    intro b hb hadv
    rcases List.mem_append.mp hb with hb | hb
    · exact hb
    · rw [List.mem_singleton.mp hb] at hadv
      cases hadv
  refine ⟨⟨h.stored, h.bounded, fun b hb hkey hadv => h.entered b (hmem b hb hadv) hkey hadv, h.ordered_concat hready false,
    fun b hb hkey hadv hlt e he t hstart hle => (h.covered b (hmem b hb hadv) hkey hadv hlt e he t hstart hle).append _⟩,
    fun hlt => ⟨fun e he => ?_, fun b hb hkey hadv hb' t hstart hle => ?_⟩⟩
  · have hfloor := hready.entry e he
    omega
  · by_cases hx : t ≤ s.start
    · exact (hready.covered b (hmem b hb hadv) hkey hadv hb' t hstart hx).append _
    · exact covered_last (lt_of_not_ge hx) hle

/-- A slice that was shipped moves the entry. -/
theorem Kept.advance (h : Kept key old stop entry stored log) (hready : Ready key old s.start entry log)
    (hstop : s.stop ≤ stop) (hlong : s.start < s.stop → s.start + 1000 ≤ s.stop ∨ s.stop = stop) :
    Kept key old stop (some (Entry.upTo entry s.stop)) (some (Entry.upTo entry s.stop).stored) (log ++ [⟨key, s, true⟩]) ∧
      (s.start < s.stop → Ready key old s.stop (some (Entry.upTo entry s.stop)) (log ++ [⟨key, s, true⟩])) := by
  obtain ⟨e', hupTo, hle', hcases⟩ : ∃ e', Entry.upTo entry s.stop = .time e' ∧ s.stop ≤ e' ∧
      (e' = s.stop ∨ entry = some (.time e')) := by
    rcases entry with _ | (t | _)
    · exact ⟨s.stop, rfl, le_refl _, .inl rfl⟩
    · refine ⟨max t s.stop, rfl, le_max_right _ _, ?_⟩
      rcases le_total t s.stop with hle | hle
      · exact .inl (max_eq_right hle)
      · rw [max_eq_left hle]
        exact .inr rfl
    · exact ⟨s.stop, rfl, le_refl _, .inl rfl⟩
  -- A slice that is not empty ends at the entry it leaves behind.
  have hmoved : s.start < s.stop → e' = s.stop := by
    intro hlt
    rcases hcases with heq | hentry
    · exact heq
    · have hfloor := hready.entry e' hentry
      have hnear := lt_floor e'
      rcases h.bounded e' hentry with hbound | haligned
      · rcases hlong hlt with hlong | hlast <;> omega
      · omega
  have hcovered : ∀ b ∈ log, b.key = key → b.advanced = true → b.slice.start < b.slice.stop → ∀ t, b.slice.start < t →
      t ≤ e' → Covered key old (log ++ [⟨key, s, true⟩]) t := by
    intro b hb hkey hadv hlt t hstart hle
    rcases hcases with heq | hentry
    · by_cases hx : t ≤ s.start
      · exact (hready.covered b hb hkey hadv hlt t hstart hx).append _
      · exact covered_last (lt_of_not_ge hx) (heq ▸ hle)
    · exact (h.covered b hb hkey hadv hlt e' hentry t hstart hle).append _
  rw [hupTo]
  refine ⟨⟨rfl, fun e he => ?_, fun b hb hkey hadv => ⟨e', rfl, ?_⟩, h.ordered_concat hready true,
    fun b hb hkey hadv hlt e he t hstart hle => ?_⟩, fun hlt => ⟨fun e he => ?_, fun b hb hkey hadv hb' t hstart hle => ?_⟩⟩
  · cases he
    rcases hcases with heq | hentry
    · exact .inl (heq ▸ hstop)
    · exact h.bounded e' hentry
  · rcases List.mem_append.mp hb with hb | hb
    · obtain ⟨e, hentry, hfloor⟩ := h.entered b hb hkey hadv
      rw [hentry] at hupTo
      cases hupTo
      exact hfloor.trans (le_max_left _ _)
    · rw [List.mem_singleton.mp hb]
      exact (floor_le _).trans hle'
  · cases he
    rcases List.mem_append.mp hb with hb | hb
    · exact hcovered b hb hkey hadv hlt t hstart hle
    · rw [List.mem_singleton.mp hb] at hstart hlt
      exact covered_last hstart (hmoved hlt ▸ hle)
  · cases he
    rw [hmoved hlt]
    exact floor_le _
  · rcases List.mem_append.mp hb with hb | hb
    · exact hcovered b hb hkey hadv hb' t hstart (hle.trans hle')
    · rw [List.mem_singleton.mp hb] at hstart
      exact covered_last hstart hle

/-- What is collected of other tables does not matter. -/
theorem Kept.other (h : Kept key old stop entry stored log) {other : Processed} (hne : other.key ≠ key) :
    Kept key old stop entry stored (log ++ [other]) := by
  have hmem : ∀ b ∈ log ++ [other], b.key = key → b ∈ log := by
    intro b hb hkey
    rcases List.mem_append.mp hb with hb | hb
    · exact hb
    · rw [List.mem_singleton.mp hb] at hkey
      exact absurd hkey hne
  have hfilter : (log ++ [other]).filter (fun e => e.key = key) = log.filter fun e => e.key = key := by
    rw [List.filter_append, List.filter_cons_of_neg (by simpa using hne)]
    exact List.append_nil _
  refine ⟨h.stored, h.bounded, fun b hb hkey => h.entered b (hmem b hb hkey) hkey, by rw [Ordered, hfilter]; exact h.ordered,
    fun b hb hkey hadv hlt e he t hstart hle => (h.covered b (hmem b hb hkey) hkey hadv hlt e he t hstart hle).append _⟩

/-- In the setting the entries are kept as they can be read again. -/
theorem Kept.settle (h : Kept key old stop entry stored log) (stop' : ℤ) : Kept key old stop' stored stored log := by
  have htime : ∀ e, stored = some (.time e) → ∃ e', entry = some (.time e') ∧ e = floor e' := by
    intro e he
    rw [h.stored] at he
    obtain ⟨entry', hentry, hstored⟩ := Option.map_eq_some_iff.mp he
    cases entry' with
    | time e' =>
      cases hstored
      exact ⟨e', hentry, rfl⟩
    | stale => cases hstored
  refine ⟨?_, fun e he => .inr ?_, fun b hb hkey hadv => ?_, h.ordered, fun b hb hkey hadv hlt e he t hstart hle => ?_⟩
  · rw [h.stored, Option.map_map]
    exact congrArg (Option.map · entry) (funext fun entry => (stored_stored entry).symm)
  · obtain ⟨e', -, rfl⟩ := htime e he
    exact floor_floor e'
  · obtain ⟨e, hentry, hfloor⟩ := h.entered b hb hkey hadv
    refine ⟨floor e, by rw [h.stored, hentry]; rfl, ?_⟩
    rw [← floor_floor b.slice.stop]
    exact floor_mono hfloor
  · obtain ⟨e', hentry, rfl⟩ := htime e he
    exact h.covered b hb hkey hadv hlt e' hentry t hstart (hle.trans (floor_le e'))

/-- A collection begins where the setting says, or four weeks ago. -/
theorem Kept.ready (h : Kept key old stop entry stored log) {horizon : ℤ} (hold : ∀ t, t ≤ horizon → old t) (x : ℤ)
    (hx : ∀ e, stored = some (.time e) → x = max e horizon) : Ready key old x entry log := by
  have htime : ∀ e, entry = some (.time e) → x = max (floor e) horizon :=
    fun e he => hx _ (by rw [h.stored, he]; rfl)
  refine ⟨fun e he => htime e he ▸ le_max_left _ _, fun b hb hkey hadv hlt t hstart hle => ?_⟩
  obtain ⟨e, he, -⟩ := h.entered b hb hkey hadv
  rw [htime e he] at hle
  rcases le_max_iff.mp hle with hle | hle
  · exact h.covered b hb hkey hadv hlt e he t hstart (hle.trans (floor_le e))
  · exact .inr (hold t hle)

end Kept

/-! ### A gathering -/

/-- The table is kept by a gathering under way. -/
def Progress.Keeps (key : String) (old : ℤ → Prop) (stop : ℤ) (p : Progress) : Prop :=
  Kept key old stop (p.lastEntries.get? key) (p.stored.get? key) p.log

section Gather
variable {key : String} {old : ℤ → Prop} {stop : ℤ} {p : Progress} {w : World} {hasConfig : Bool} {c : Collector}

theorem Progress.Keeps.setEntry (h : p.Keeps key old stop) {key' : String} (hne : key' ≠ key) (entry : Entry) :
    (p.setEntry key' entry).Keeps key old stop := by
  have hentry : (p.setEntry key' entry).lastEntries.get? key = p.lastEntries.get? key := by
    rw [Progress.setEntry, Dict.get?_set, if_neg hne.symm]
  have hstored : (p.setEntry key' entry).stored.get? key = p.stored.get? key := by
    rw [Progress.setEntry, Dict.get?_mapValues, Dict.get?_set, if_neg hne.symm, h.stored]
  rw [Progress.Keeps, hentry, hstored]
  exact h

theorem Progress.Keeps.process_other (h : p.Keeps key old stop) {key' : String} (hne : key' ≠ key) (slice : Slice)
    (results : List FileResult) : (p.process false key' slice results).Keeps key old stop := by
  rw [Progress.process, if_neg Bool.false_ne_true]
  split_ifs
  · exact Kept.other h hne
  · exact Kept.other (h.setEntry hne _) hne

/-- One slice of the table. -/
theorem Progress.Keeps.process (h : p.Keeps key old stop) {s : Slice}
    (hready : Ready key old s.start (p.lastEntries.get? key) p.log) (hstop : s.stop ≤ stop)
    (hlong : s.start < s.stop → s.start + 1000 ≤ s.stop ∨ s.stop = stop) (results : List FileResult) :
    (p.process false key s results).Keeps key old stop ∧ (s.start < s.stop →
      Ready key old s.stop ((p.process false key s results).lastEntries.get? key) (p.process false key s results).log) := by
  rw [Progress.process, if_neg Bool.false_ne_true]
  split_ifs
  · exact Kept.refuse h hready
  · have hentry : (p.advance key s.stop).lastEntries.get? key = some (Entry.upTo (p.lastEntries.get? key) s.stop) := by
      rw [Progress.advance, Progress.setEntry, Dict.get?_set, if_pos rfl]
    have hstored : (p.advance key s.stop).stored.get? key =
        some (Entry.upTo (p.lastEntries.get? key) s.stop).stored := by
      rw [Progress.advance, Progress.setEntry, Dict.get?_mapValues, Dict.get?_set, if_pos rfl]
      rfl
    rw [Progress.Keeps]
    change Kept key old stop ((p.advance key s.stop).lastEntries.get? key) ((p.advance key s.stop).stored.get? key) _ ∧
      (_ → Ready key old s.stop ((p.advance key s.stop).lastEntries.get? key) _)
    rw [hentry, hstored]
    exact Kept.advance h hready hstop hlong

theorem keeps_collectSlices (h : p.Keeps key old stop) {slices : List Slice} {x : ℤ}
    (hready : c.key = key → Ready key old x (p.lastEntries.get? key) p.log) (hchain : c.key = key → Chain stop x slices) :
    (collectSlices w false hasConfig c slices p).1.Keeps key old stop := by
  induction slices generalizing p x with
  | nil => exact h
  | cons s slices ih =>
    rw [collectSlices]
    cases w.collect c.name s with
    | raised => exact h
    | files results =>
      dsimp only
      split_ifs
      · exact h
      by_cases hkey : c.key = key
      · obtain ⟨hstart, hstop, hlong, hlast, hrest⟩ := hchain hkey
        subst hstart
        obtain ⟨hprocess, hnext⟩ := h.process (hready hkey) hstop hlong results
        rw [hkey]
        rcases hlast with rfl | hlt
        · exact hprocess
        · exact ih hprocess (fun _ => hnext hlt) fun _ => hrest
      · exact ih (h.process_other hkey s results) (x := x) (fun heq => absurd heq hkey) fun heq => absurd heq hkey

/-- The slices of a table that is not synced as a whole. -/
theorem chain_slices {slicing : Slicing} (hslicing : slicing ≠ .hostMetric) {minDates : Option ℤ × Option ℤ} {lastGather : ℤ}
    {entry : Option Entry} {full : Bool} {slices : List Slice}
    (h : slicing.slices minDates none stop lastGather entry full = some slices) :
    ∃ x, (∀ e, entry = some (.time e) → x = max e (stop - weeks 4)) ∧ Chain stop x slices := by
  have hlength : (1000 : ℤ) ≤ hours 4 := by decide
  cases slicing with
  | trivial =>
    rcases entry with _ | (t | _)
    · cases h
      exact ⟨_, fun e he => (by cases he), chain_single _ _⟩
    · cases h
      exact ⟨_, fun e he => (by cases he; rfl), chain_single _ _⟩
    · cases h
  | fourHour =>
    rcases entry with _ | (t | _)
    · cases h
      exact ⟨_, fun e he => (by cases he), chain_slicesBy hlength _ _ _⟩
    · cases h
      exact ⟨_, fun e he => (by cases he; rfl), chain_slicesBy hlength _ _ _⟩
    · cases h
      exact ⟨_, fun e he => (by cases he), chain_slicesBy hlength _ _ _⟩
  | hostMetric => exact absurd rfl hslicing

theorem keeps_collect (h : p.Keeps key old stop) (hold : ∀ t, t ≤ stop - weeks 4 → old t)
    (hslicing : c.key = key → c.slicing ≠ .hostMetric) (hfull : c.fullSyncInterval ≠ 0 → c.key ++ "_full" ≠ key)
    (lastGather : ℤ) : (collect w false hasConfig c none stop lastGather p).1.Keeps key old stop := by
  rw [collect]
  cases hsync : fullSyncEnabled w c p.lastEntries with
  | none => exact h
  | some fullSync =>
    dsimp only
    cases hslices : c.slicing.slices w.minDates none stop lastGather (p.stored.get? c.key) fullSync with
    | none => exact h
    | some slices =>
      dsimp only
      have hresult : (collectSlices w false hasConfig c slices p).1.Keeps key old stop := by
        by_cases hkey : c.key = key
        · obtain ⟨x, hx, hchain⟩ := chain_slices (hslicing hkey) hslices
          rw [hkey] at hx
          exact keeps_collectSlices h (fun _ => Kept.ready h hold x hx) fun _ => hchain
        · exact keeps_collectSlices h (x := 0) (fun heq => absurd heq hkey) fun heq => absurd heq hkey
      split_ifs with hgiven hsynced
      · exact hresult
      · refine hresult.setEntry (hfull fun hzero => ?_) _
        rw [fullSyncEnabled, if_pos hzero] at hsync
        cases hsync
        exact Bool.false_ne_true hsynced.1
      · exact hresult

theorem keeps_collectAll {csv : List Collector} (h : p.Keeps key old stop) (hold : ∀ t, t ≤ stop - weeks 4 → old t)
    (hslicing : ∀ c ∈ csv, c.key = key → c.slicing ≠ .hostMetric)
    (hfull : ∀ c ∈ csv, c.fullSyncInterval ≠ 0 → c.key ++ "_full" ≠ key) (lastGather : ℤ) :
    (collectAll w false hasConfig none stop lastGather csv p).1.Keeps key old stop := by
  induction csv generalizing p with
  | nil => exact h
  | cons c csv ih =>
    have hcollect : (collect w false hasConfig c none stop lastGather p).1.Keeps key old stop :=
      keeps_collect h hold (hslicing c List.mem_cons_self) (hfull c List.mem_cons_self) lastGather
    rw [collectAll]
    split_ifs
    · exact hcollect
    · exact ih hcollect (fun c hc => hslicing c (List.mem_cons_of_mem _ hc)) fun c hc => hfull c (List.mem_cons_of_mem _ hc)

theorem keeps_advanceAll {data : List String} (hdata : key ∉ data) (h : p.Keeps key old stop) (stop' : ℤ) :
    (data.foldl (fun p key => p.advance key stop') p).Keeps key old stop := by
  induction data generalizing p with
  | nil => exact h
  | cons key' data ih =>
    exact ih (List.not_mem_of_not_mem_cons hdata) (h.setEntry (List.ne_of_not_mem_cons hdata).symm _)

theorem keeps_shipData {data : List String} (hdata : key ∉ data) (h : p.Keeps key old stop) (stop' : ℤ) :
    (shipData w false stop' data p).Keeps key old stop := by
  rw [shipData]
  by_cases hnil : data = [] ∨ false = true
  · rw [if_pos hnil]
    exact h
  · rw [if_neg hnil]
    cases w.archive with
    | notPackaged => exact h
    | shipped => exact keeps_advanceAll hdata h stop'
    | refused => exact h

end Gather

/-! ### A dry run -/

section DryRun
variable (w : World) (hasConfig : Bool)

theorem collectSlices_dryRun (c : Collector) (slices : List Slice) (p : Progress) :
    (collectSlices w true hasConfig c slices p).1.stored = p.stored ∧
      (collectSlices w true hasConfig c slices p).1.log = p.log := by
  induction slices generalizing p with
  | nil => exact ⟨rfl, rfl⟩
  | cons slice slices ih =>
    rw [collectSlices]
    cases w.collect c.name slice with
    | raised => exact ⟨rfl, rfl⟩
    | files results =>
      dsimp only
      split_ifs
      · exact ⟨rfl, rfl⟩
      · exact ih p

theorem collect_dryRun (c : Collector) (since : Option ℤ) (stop lastGather : ℤ) (p : Progress) :
    (collect w true hasConfig c since stop lastGather p).1.stored = p.stored ∧
      (collect w true hasConfig c since stop lastGather p).1.log = p.log := by
  rw [collect]
  cases fullSyncEnabled w c p.lastEntries with
  | none => exact ⟨rfl, rfl⟩
  | some fullSync =>
    dsimp only
    cases c.slicing.slices w.minDates since stop lastGather (p.stored.get? c.key) fullSync with
    | none => exact ⟨rfl, rfl⟩
    | some slices =>
      dsimp only
      split_ifs with hgiven hsynced
      · exact collectSlices_dryRun w hasConfig c slices p
      · exact absurd hsynced.2.1 Bool.false_ne_true
      · exact collectSlices_dryRun w hasConfig c slices p

theorem collectAll_dryRun (since : Option ℤ) (stop lastGather : ℤ) (csv : List Collector) (p : Progress) :
    (collectAll w true hasConfig since stop lastGather csv p).1.stored = p.stored ∧
      (collectAll w true hasConfig since stop lastGather csv p).1.log = p.log := by
  induction csv generalizing p with
  | nil => exact ⟨rfl, rfl⟩
  | cons c csv ih =>
    obtain ⟨hstored, hlog⟩ := collect_dryRun w hasConfig c since stop lastGather p
    rw [collectAll]
    split_ifs
    · exact ⟨hstored, hlog⟩
    · obtain ⟨hstored', hlog'⟩ := ih (collect w true hasConfig c since stop lastGather p).1
      exact ⟨hstored'.trans hstored, hlog'.trans hlog⟩

end DryRun

/-! ### Gatherings -/

theorem calculateCollectionInterval_none {now : ℤ} {«until» lastGather since : Option ℤ} {stop last : ℤ}
    (h : calculateCollectionInterval now none «until» lastGather = some (since, stop, last)) : since = none ∧ stop ≤ now := by
  cases «until» with
  | none =>
    cases h
    exact ⟨rfl, le_refl _⟩
  | some «until» =>
    cases h
    exact ⟨rfl, min_le_right _ _⟩

/-- The table is kept between gatherings. -/
def Stands (key : String) (old : ℤ → Prop) (st : Settings × List Processed) : Prop :=
  ∀ stop, Kept key old stop (st.1.lastEntries.get? key) (st.1.lastEntries.get? key) st.2

/-- A table that is never synced as a whole, and whose entry is its own. -/
structure Incremental (key : String) (jsonKeys : List String) (csv : List Collector) : Prop where
  table : key ∉ jsonKeys
  sliced : ∀ c ∈ csv, c.key = key → c.slicing ≠ .hostMetric
  full : ∀ c ∈ csv, c.fullSyncInterval ≠ 0 → c.key ++ "_full" ≠ key

theorem incremental_csvCollectors {c : Collector} (hc : c ∈ csvCollectors) (hslicing : c.slicing ≠ .hostMetric) :
    Incremental c.key jsonCollectors csvCollectors := by
  have hall : ∀ c ∈ csvCollectors, c.slicing ≠ .hostMetric → c.key ∉ jsonCollectors ∧
      (∀ c' ∈ csvCollectors, c'.key = c.key → c'.slicing ≠ .hostMetric) ∧
      ∀ c' ∈ csvCollectors, c'.fullSyncInterval ≠ 0 → c'.key ++ "_full" ≠ c.key := by decide
  obtain ⟨htable, hsliced, hfull⟩ := hall c hc hslicing
  exact ⟨htable, hsliced, hfull⟩

theorem incremental_events : Incremental "events_table" jsonCollectors csvCollectors :=
  incremental_csvCollectors (c := ⟨"events_table_unpartitioned", "events_table", .fourHour, 0⟩) (by decide) (by decide)

section Gathers
variable {key : String} {old : ℤ → Prop} {jsonKeys : List String} {csv : List Collector} {s : Settings}

theorem stands_nil (hentry : (s.lastEntries.get? key).map Entry.stored = s.lastEntries.get? key) : Stands key old (s, []) := by
  intro stop
  refine ⟨hentry.symm, fun e he => .inr ?_, fun b hb => absurd hb List.not_mem_nil, List.Pairwise.nil,
    fun b hb => absurd hb List.not_mem_nil⟩
  have he : s.lastEntries.get? key = some (.time e) := he
  rw [he] at hentry
  exact Entry.time.inj (Option.some.inj hentry)

/-- What a gathering leaves in the setting is what its collectors leave there; a dry run leaves nothing. -/
theorem stands_collectAll {data : List String} {stop lastGather : ℤ} {log : List Processed} {w : World}
    (hkey : Incremental key jsonKeys csv) (hdata : key ∉ data) (hold : ∀ t, t ≤ stop - weeks 4 → old t)
    (h : Stands key old (s, log)) (dryRun : Bool) {result : Progress × Bool}
    (hresult : collectAll w dryRun ("config" ∈ data) none stop lastGather csv
      (shipData w dryRun stop data ⟨s.lastEntries, s.lastEntries, true, log⟩) = result) (stop' : ℤ) :
    Kept key old stop' (result.1.stored.get? key) (result.1.stored.get? key) result.1.log := by
  rw [← hresult]
  cases dryRun with
  | true =>
    rw [shipData, if_pos (.inr rfl)]
    obtain ⟨hstored, hlog⟩ := collectAll_dryRun w ("config" ∈ data) none stop lastGather csv
      ⟨s.lastEntries, s.lastEntries, true, log⟩
    rw [hstored, hlog]
    exact h stop'
  | false =>
    have hinit : Progress.Keeps key old stop ⟨s.lastEntries, s.lastEntries, true, log⟩ := h stop
    exact Kept.settle (keeps_collectAll (keeps_shipData hdata hinit stop) hold hkey.sliced hkey.full lastGather) stop'

theorem stands_gather (hkey : Incremental key jsonKeys csv) {log : List Processed} {args : Args} {w : World}
    (hsince : args.since = none) (hold : ∀ t, t ≤ w.now - weeks 4 → old t) (h : Stands key old (s, log)) :
    Stands key old (gather jsonKeys csv s log args w) := by
  rw [gather, hsince]
  split_ifs
  · exact h
  cases hinterval : calculateCollectionInterval w.now none args.until s.lastGather with
  | none => exact h
  | some interval =>
    obtain ⟨since, stop, lastGather⟩ := interval
    obtain ⟨rfl, hstop⟩ := calculateCollectionInterval_none hinterval
    have hdata : key ∉ jsonKeys.filter fun key => w.generated key ∧ s.lastEntries.get? key ≠ some .stale :=
      fun hmem => hkey.table (List.mem_of_mem_filter hmem)
    dsimp only
    split_ifs with hconfig hleft
    · exact h
    · exact stands_collectAll hkey hdata (fun t ht => hold t (by omega)) h args.dryRun rfl
    · exact stands_collectAll hkey hdata (fun t ht => hold t (by omega)) h args.dryRun rfl

theorem stands_gathers (hkey : Incremental key jsonKeys csv) {runs : List (Args × World)}
    (hentry : (s.lastEntries.get? key).map Entry.stored = s.lastEntries.get? key) (hsince : ∀ run ∈ runs, run.1.since = none) :
    Stands key (fun t => ∃ run ∈ runs, t ≤ run.2.now - weeks 4) (gathers jsonKeys csv s runs) :=
  List.foldlRecOn runs _ (stands_nil hentry) fun _ hst run hrun =>
    stands_gather hkey (hsince run hrun) (fun _ ht => ⟨run, hrun, ht⟩) hst

/-- Nothing of a table is shipped twice: whichever gatherings there are, with one collector or more, and whatever fails in
them, no slice begins before one that was shipped, but for what the setting does not keep of a moment. -/
theorem gathers_ordered (hkey : Incremental key jsonKeys csv) {runs : List (Args × World)}
    (hentry : (s.lastEntries.get? key).map Entry.stored = s.lastEntries.get? key) (hsince : ∀ run ∈ runs, run.1.since = none) :
    ((gathers jsonKeys csv s runs).2.filter fun e => e.key = key).Pairwise fun a b =>
      a.advanced = true → floor a.slice.stop ≤ b.slice.start :=
  (stands_gathers hkey hentry hsince 0).ordered

/-- A gathering that ships all it finds. -/
def World.shipping (now : ℤ) : World :=
  ⟨true, now, now, fun _ => true, .shipped, fun _ _ => .files [.shipped], (none, none)⟩

theorem gathers_ordered_events :
    ((gathers jsonCollectors csvCollectors ⟨some (hours 100), .empty⟩ [(⟨none, none, false⟩, .shipping (hours 106)),
        (⟨none, none, false⟩, .shipping (hours 109))]).2.filter fun e => e.key = "events_table").Pairwise fun a b =>
      a.advanced = true → floor a.slice.stop ≤ b.slice.start :=
  gathers_ordered incremental_events rfl (by decide)

/-- Nothing of a table is passed over: once a slice was shipped, each moment after its beginning up to where the setting
says the table has come was in a slice, if only in one that was refused, or was too old for a gathering. -/
theorem gathers_covered (hkey : Incremental key jsonKeys csv) {runs : List (Args × World)}
    (hentry : (s.lastEntries.get? key).map Entry.stored = s.lastEntries.get? key) (hsince : ∀ run ∈ runs, run.1.since = none)
    {b : Processed} (hb : b ∈ (gathers jsonKeys csv s runs).2) (hbkey : b.key = key) (hadv : b.advanced = true)
    (hlt : b.slice.start < b.slice.stop) :
    ∃ e, (gathers jsonKeys csv s runs).1.lastEntries.get? key = some (.time e) ∧ floor b.slice.stop ≤ e ∧
      ∀ t, b.slice.start < t → t ≤ e →
        (∃ c ∈ (gathers jsonKeys csv s runs).2, c.key = key ∧ c.slice.start < t ∧ t ≤ c.slice.stop) ∨
          ∃ run ∈ runs, t ≤ run.2.now - weeks 4 := by
  have hstands := stands_gathers hkey hentry hsince 0
  obtain ⟨e, he, hfloor⟩ := hstands.entered b hb hbkey hadv
  exact ⟨e, he, hfloor, hstands.covered b hb hbkey hadv hlt e he⟩

theorem gathers_covered_events :
    ∃ e, (gathers jsonCollectors csvCollectors ⟨some (hours 100), .empty⟩ [(⟨none, none, false⟩, .shipping (hours 106)),
        (⟨none, none, false⟩, .shipping (hours 109))]).1.lastEntries.get? "events_table" = some (.time e) ∧
      floor (hours 104) ≤ e ∧ ∀ t, hours 100 < t → t ≤ e →
        (∃ c ∈ (gathers jsonCollectors csvCollectors ⟨some (hours 100), .empty⟩ [(⟨none, none, false⟩, .shipping (hours 106)),
          (⟨none, none, false⟩, .shipping (hours 109))]).2, c.key = "events_table" ∧ c.slice.start < t ∧ t ≤ c.slice.stop) ∨
        ∃ run ∈ [((⟨none, none, false⟩ : Args), World.shipping (hours 106)), (⟨none, none, false⟩, .shipping (hours 109))],
          t ≤ run.2.now - weeks 4 :=
  gathers_covered incremental_events rfl (by decide) (b := ⟨"events_table", ⟨hours 100, hours 104⟩, true⟩)
    (by decide +kernel) rfl rfl (by decide)

end Gathers

end Forail.Analytics
