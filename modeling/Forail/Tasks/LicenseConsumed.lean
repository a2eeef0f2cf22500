import Forail.Base.Dict
import Mathlib.Algebra.BigOperators.Group.List.Basic
import Mathlib.Algebra.Order.Ring.Int
import Mathlib.Data.List.Dedup
import Mathlib.Data.List.Sort
import Mathlib.Data.List.TakeWhile
import Mathlib.Data.Prod.Lex
import Mathlib.Tactic.Ring

/-! `HostMetricSummaryMonthlyTask`. Hosts that were added and hosts that were deleted are counted by month
into one dictionary, whose months before the first one give the licences that are consumed; from there on
a summary is written for each month. -/

namespace Forail.HostMetrics

/-- A month, counted through the years, and a day in it. -/
abbrev Date := ℤ ×ₗ ℕ

def firstDay (month : ℤ) : Date := toLex (month, 1)

structure HostMetric where
  firstAutomation : ℤ
  lastDeleted : Option ℤ
  deleted : Bool

/-- `HostMetricSummaryMonthly` -/
@[ext]
structure Summary where
  date : Date
  licenseConsumed : ℤ
  licenseCapacity : ℤ
  hostsAdded : ℕ
  hostsDeleted : ℕ
  deriving DecidableEq

/-- What the dictionary holds for a month. -/
structure Metric where
  hostsAdded : Option ℕ
  hostsDeleted : Option ℕ

/-! ### Counting by month -/

/-- The months in order, each with how often it occurs. -/
def groupByMonth (months : List ℤ) : List (ℤ × ℕ) :=
  (months.dedup.mergeSort (· ≤ ·)).map fun month => (month, months.count month)

/-- The month of a time is that of `TruncMonth`, in the time zone of the server. -/
def monthsAdded (truncMonth : ℤ → ℤ) (metrics : List HostMetric) : List ℤ :=
  metrics.map fun metric => truncMonth metric.firstAutomation

/-- A host that was never deleted has no month. -/
def monthsDeleted (truncMonth : ℤ → ℤ) (metrics : List HostMetric) : List ℤ :=
  (metrics.filter HostMetric.deleted).filterMap fun metric => metric.lastDeleted.map truncMonth

def loadHostsAdded (truncMonth : ℤ → ℤ) (metrics : List HostMetric) (hostMetrics : Dict ℤ Metric) :
    Dict ℤ Metric :=
  (groupByMonth (monthsAdded truncMonth metrics)).foldl
    (fun d (month, n) => d.set month { d.getD month ⟨none, none⟩ with hostsAdded := some n }) hostMetrics

def loadHostsDeleted (truncMonth : ℤ → ℤ) (metrics : List HostMetric) (hostMetrics : Dict ℤ Metric) :
    Dict ℤ Metric :=
  (groupByMonth (monthsDeleted truncMonth metrics)).foldl
    (fun d (month, n) => d.set month { d.getD month ⟨none, none⟩ with hostsDeleted := some n }) hostMetrics

/-- The loop of `_get_license_consumed_before`, which ends at the first entry that is not before. -/
def consumedBefore (month : ℤ) : List (ℤ × Metric) → ℤ → ℤ
  | [], consumed => consumed
  | (metricMonth, metric) :: entries, consumed =>
    if metricMonth < month then
      consumedBefore month entries (consumed + metric.hostsAdded.getD 0 - metric.hostsDeleted.getD 0)
    else consumed

/-! ### Writing the summaries -/

/-- `_find_summary`, with the summaries that the index has not passed. -/
def findSummary (month : ℤ) : List Summary → Option Summary × List Summary
  | [] => (none, [])
  | tmp :: existing =>
    if tmp.date < firstDay month then findSummary month existing
    else if tmp.date = firstDay month then (some tmp, tmp :: existing)
    else (none, tmp :: existing)

structure Progress where
  consumed : ℤ
  existing : List Summary
  toCreate : List Summary
  toUpdate : List Summary

section Execute
variable (hostMetrics : Dict ℤ Metric) (instanceCount : ℤ) (current : ℤ)

/-- The capacity is that of the subscription, and is set for the current month only. -/
def updateSummary (summary : Summary) (month : ℤ) (consumed : ℤ) : Summary :=
  let metric := hostMetrics.getD month ⟨none, none⟩
  { date := summary.date
    licenseConsumed := consumed + metric.hostsAdded.getD 0 - metric.hostsDeleted.getD 0
    licenseCapacity := if month = current then instanceCount else summary.licenseCapacity
    hostsAdded := metric.hostsAdded.getD 0
    hostsDeleted := metric.hostsDeleted.getD 0 }

/-- The body of the loop of `execute`. -/
def fillMonth (p : Progress) (month : ℤ) : Progress :=
  match findSummary month p.existing with
  | (some found, existing) =>
    let summary := updateSummary hostMetrics instanceCount current found month p.consumed
    ⟨summary.licenseConsumed, existing, p.toCreate, p.toUpdate ++ [summary]⟩
  | (none, existing) =>
    let summary := updateSummary hostMetrics instanceCount current ⟨firstDay month, 0, 0, 0, 0⟩ month
      p.consumed
    ⟨summary.licenseConsumed, existing, p.toCreate ++ [summary], p.toUpdate⟩

def fillMonths (month : ℤ) (p : Progress) : Progress :=
  if month ≤ current then fillMonths (month + 1) (fillMonth hostMetrics instanceCount current p month) else p
termination_by (current + 1 - month).toNat
decreasing_by omega

end Execute

/-- `_get_first_month` -/
def firstMonth (current threshold : ℤ) : ℤ := current - (threshold - 1)

/-- `bulk_create`: the dates are unique. -/
def bulkCreate (rows created : List Summary) : Option (List Summary) :=
  if ((rows ++ created).map Summary.date).Nodup then some (rows ++ created) else none

/-- `bulk_update`, which writes three columns of the rows; a row is known by its date. -/
def bulkUpdate (rows updated : List Summary) : List Summary :=
  rows.map fun row =>
    match updated.find? fun summary => summary.date = row.date with
    | none => row
    | some summary =>
      { row with
        licenseConsumed := summary.licenseConsumed
        hostsAdded := summary.hostsAdded
        hostsDeleted := summary.hostsDeleted }

/-- `execute` in the current month: the table that it leaves. -/
def execute (truncMonth : ℤ → ℤ) (current threshold instanceCount : ℤ) (metrics : List HostMetric)
    (rows : List Summary) : Option (List Summary) :=
  let first := firstMonth current threshold
  let existing := (rows.filter fun row => firstDay first ≤ row.date).mergeSort (·.date ≤ ·.date)
  let hostMetrics := loadHostsDeleted truncMonth metrics (loadHostsAdded truncMonth metrics .empty)
  let filled := fillMonths hostMetrics instanceCount current first
    ⟨consumedBefore first hostMetrics.entries 0, existing, [], []⟩
  (bulkCreate rows filled.toCreate).map fun rows => bulkUpdate rows filled.toUpdate

end Forail.HostMetrics

/-! The monthly summaries against the rows that they count. The hosts added and deleted are right in every
month; the licences consumed are right exactly where the months before the first one are all counted. -/

namespace Forail.HostMetrics

/-! ### Counting -/

theorem count_add_countP {k : ℤ} {K : List ℤ} (hk : k ∉ K) (L : List ℤ) :
    L.count k + L.countP (fun x => x ∈ K) = L.countP fun x => x ∈ k :: K := by
  induction L with
  | nil => rfl
  | cons x L ih =>
    rw [List.count_cons, List.countP_cons, List.countP_cons, ← ih]
    by_cases hx : x = k
    · subst hx
      simp [hk]
      omega
    · simp [hx]
      omega

/-- The members of a list that are among distinct values, counted value by value. -/
theorem sum_count {K : List ℤ} (hK : K.Nodup) (L : List ℤ) :
    (K.map fun k => (L.count k : ℤ)).sum = L.countP fun x => x ∈ K := by
  induction K with
  | nil => simp
  | cons k K ih =>
    obtain ⟨hk, hK⟩ := List.nodup_cons.mp hK
    rw [List.map_cons, List.sum_cons, ih hK, ← count_add_countP hk, Nat.cast_add]

theorem countP_lt_succ (L : List ℤ) (m : ℤ) :
    L.countP (fun x => x ≤ m) = L.countP (fun x => x < m) + L.count m := by
  induction L with
  | nil => rfl
  | cons x L ih =>
    rw [List.countP_cons, List.countP_cons, List.count_cons, ih]
    rcases lt_trichotomy x m with hlt | rfl | hgt
    · simp [hlt, hlt.le, hlt.ne]
      omega
    · simp
      omega
    · simp [hgt.not_ge, hgt.not_gt, hgt.ne']

theorem countP_eq_countP_iff {L : List ℤ} {p q : ℤ → Bool} (h : ∀ x ∈ L, p x = true → q x = true) :
    L.countP p = L.countP q ↔ ∀ x ∈ L, q x = true → p x = true := by
  induction L with
  | nil => simp
  | cons x L ih =>
    have hrest := fun y hy => h y (List.mem_cons_of_mem x hy)
    have hle := List.countP_mono_left hrest
    have hx := h x List.mem_cons_self
    rw [List.countP_cons, List.countP_cons, List.forall_mem_cons, ← ih hrest]
    cases hp : p x <;> cases hq : q x <;> simp_all
    omega

theorem takeWhile_eq_filter {L : List ℤ} (hL : L.Pairwise (· ≤ ·)) (m : ℤ) :
    (L.takeWhile fun x => x < m) = L.filter fun x => x < m := by
  induction L with
  | nil => rfl
  | cons x L ih =>
    obtain ⟨hx, hL⟩ := List.pairwise_cons.mp hL
    rw [List.takeWhile_cons, List.filter_cons, ih hL]
    split_ifs with hlt
    · rfl
    · refine (List.filter_eq_nil_iff.mpr fun y hy => ?_).symm
      have hle := hx y hy
      simp only [decide_eq_true_eq] at hlt ⊢
      omega

/-! ### The dictionary -/

section Metrics
variable (truncMonth : ℤ → ℤ) (metrics : List HostMetric)

def hostMetrics : Dict ℤ Metric :=
  loadHostsDeleted truncMonth metrics (loadHostsAdded truncMonth metrics .empty)

variable {truncMonth metrics}

/-- The months of a list in order. -/
def sortedMonths (months : List ℤ) : List ℤ := months.dedup.mergeSort (· ≤ ·)

theorem mem_sortedMonths {months : List ℤ} {m : ℤ} : m ∈ sortedMonths months ↔ m ∈ months := by
  rw [sortedMonths, List.mem_mergeSort, List.mem_dedup]

theorem nodup_sortedMonths (months : List ℤ) : (sortedMonths months).Nodup :=
  (List.mergeSort_perm _ _).nodup_iff.mpr months.nodup_dedup

theorem sorted_sortedMonths (months : List ℤ) : (sortedMonths months).Pairwise (· ≤ ·) :=
  List.pairwise_mergeSort' (· ≤ ·) _

theorem foldl_groupByMonth {δ : Type} (step : δ → ℤ × ℕ → δ) (months : List ℤ) (d : δ) :
    (groupByMonth months).foldl step d =
      (sortedMonths months).foldl (fun d m => step d (m, months.count m)) d :=
  List.foldl_map

theorem keys_hostMetrics : (hostMetrics truncMonth metrics).keys =
    sortedMonths (monthsAdded truncMonth metrics) ++
      (sortedMonths (monthsDeleted truncMonth metrics)).filter
        fun m => m ∉ sortedMonths (monthsAdded truncMonth metrics) := by
  have hadded : (loadHostsAdded truncMonth metrics .empty).keys =
      sortedMonths (monthsAdded truncMonth metrics) := by
    rw [loadHostsAdded, foldl_groupByMonth,
      Dict.keys_foldl_own (fun d m => Dict.keys_set d m _) (nodup_sortedMonths _)]
    simp [Dict.keys, Dict.empty]
  rw [hostMetrics, loadHostsDeleted, foldl_groupByMonth,
    Dict.keys_foldl_own (fun d m => Dict.keys_set d m _) (nodup_sortedMonths _), hadded]

theorem get?_loadHostsAdded (d : Dict ℤ Metric) (m : ℤ) :
    (loadHostsAdded truncMonth metrics d).get? m =
      if m ∈ monthsAdded truncMonth metrics then
        some { d.getD m ⟨none, none⟩ with hostsAdded := some ((monthsAdded truncMonth metrics).count m) }
      else d.get? m := by
  have hrun := Dict.get?_foldl_own (fun k (v : Option Metric) => some { v.getD ⟨none, none⟩ with
      hostsAdded := some ((monthsAdded truncMonth metrics).count k) })
    (fun d k k' => Dict.get?_set d k k' _) (nodup_sortedMonths (monthsAdded truncMonth metrics)) d m
  simp only [mem_sortedMonths] at hrun
  rw [loadHostsAdded, foldl_groupByMonth]
  exact hrun

theorem get?_loadHostsDeleted (d : Dict ℤ Metric) (m : ℤ) :
    (loadHostsDeleted truncMonth metrics d).get? m =
      if m ∈ monthsDeleted truncMonth metrics then
        some { d.getD m ⟨none, none⟩ with
          hostsDeleted := some ((monthsDeleted truncMonth metrics).count m) }
      else d.get? m := by
  have hrun := Dict.get?_foldl_own (fun k (v : Option Metric) => some { v.getD ⟨none, none⟩ with
      hostsDeleted := some ((monthsDeleted truncMonth metrics).count k) })
    (fun d k k' => Dict.get?_set d k k' _) (nodup_sortedMonths (monthsDeleted truncMonth metrics)) d m
  simp only [mem_sortedMonths] at hrun
  rw [loadHostsDeleted, foldl_groupByMonth]
  exact hrun

theorem getD_loadHostsAdded (m : ℤ) : (loadHostsAdded truncMonth metrics .empty).getD m ⟨none, none⟩ =
    ⟨if m ∈ monthsAdded truncMonth metrics then some ((monthsAdded truncMonth metrics).count m) else none,
      none⟩ := by
  rw [Dict.getD, get?_loadHostsAdded]
  split_ifs
  · rfl
  · rfl

variable (truncMonth metrics) in
/-- Each month has both its numbers, a missing one being zero. -/
theorem getD_hostMetrics (m : ℤ) :
    ((hostMetrics truncMonth metrics).getD m ⟨none, none⟩).hostsAdded.getD 0 =
        (monthsAdded truncMonth metrics).count m ∧
      ((hostMetrics truncMonth metrics).getD m ⟨none, none⟩).hostsDeleted.getD 0 =
        (monthsDeleted truncMonth metrics).count m := by
  rw [hostMetrics, Dict.getD, get?_loadHostsDeleted]
  by_cases hdeleted : m ∈ monthsDeleted truncMonth metrics
  · rw [if_pos hdeleted, getD_loadHostsAdded]
    refine ⟨?_, rfl⟩
    by_cases hadded : m ∈ monthsAdded truncMonth metrics
    · simp [hadded]
    · simp [hadded, List.count_eq_zero_of_not_mem hadded]
  · rw [if_neg hdeleted, ← Dict.getD, getD_loadHostsAdded, List.count_eq_zero_of_not_mem hdeleted]
    refine ⟨?_, rfl⟩
    by_cases hadded : m ∈ monthsAdded truncMonth metrics
    · simp [hadded]
    · simp [hadded, List.count_eq_zero_of_not_mem hadded]

/-! ### The licences consumed before a month -/

/-- The months that the loop comes to. -/
def monthsCounted (truncMonth : ℤ → ℤ) (metrics : List HostMetric) (first : ℤ) : List ℤ :=
  (hostMetrics truncMonth metrics).keys.takeWhile fun m => m < first

variable (truncMonth metrics) in
theorem nodup_monthsCounted (first : ℤ) : (monthsCounted truncMonth metrics first).Nodup :=
  (List.takeWhile_sublist _).nodup (hostMetrics truncMonth metrics).nodup

theorem consumedBefore_entries (first : ℤ) {entries : List (ℤ × Metric)}
    (h : ∀ e ∈ entries, (hostMetrics truncMonth metrics).get? e.1 = some e.2) (c : ℤ) :
    consumedBefore first entries c = c +
      (((entries.map Prod.fst).takeWhile fun m => m < first).map fun m =>
        ((monthsAdded truncMonth metrics).count m : ℤ) - (monthsDeleted truncMonth metrics).count m).sum := by
  induction entries generalizing c with
  | nil => simp [consumedBefore]
  | cons e entries ih =>
    obtain ⟨m, metric⟩ := e
    have hmetric := h _ List.mem_cons_self
    obtain ⟨hadded, hdeleted⟩ := getD_hostMetrics truncMonth metrics m
    rw [Dict.getD, hmetric, Option.getD_some] at hadded hdeleted
    rw [consumedBefore, List.map_cons, List.takeWhile_cons]
    by_cases hm : m < first
    · rw [if_pos hm, if_pos (decide_eq_true hm), ih fun e he => h e (List.mem_cons_of_mem _ he), hadded,
        hdeleted, List.map_cons, List.sum_cons]
      ring
    · rw [if_neg hm, if_neg (by simpa using hm)]
      simp

theorem sum_map_sub (L : List ℤ) (f g : ℤ → ℤ) :
    (L.map fun m => f m - g m).sum = (L.map f).sum - (L.map g).sum := by
  induction L with
  | nil => rfl
  | cons m L ih =>
    simp only [List.map_cons, List.sum_cons, ih]
    ring

theorem consumedBefore_eq (first : ℤ) :
    consumedBefore first (hostMetrics truncMonth metrics).entries 0 =
      (monthsAdded truncMonth metrics).countP (fun m => m ∈ monthsCounted truncMonth metrics first) -
        (monthsDeleted truncMonth metrics).countP fun m => m ∈ monthsCounted truncMonth metrics first := by
  have hnodup := nodup_monthsCounted truncMonth metrics first
  rw [consumedBefore_entries first fun e he => Dict.get?_of_mem_entries he, zero_add, sum_map_sub,
    ← sum_count hnodup, ← sum_count hnodup]
  rfl

/-- The loop comes to the months of additions, and to those of deletions alone when it is not ended by an
addition. -/
theorem mem_monthsCounted_iff {first m : ℤ} (hm : m < first) :
    m ∈ monthsCounted truncMonth metrics first ↔ m ∈ monthsAdded truncMonth metrics ∨
      (m ∈ monthsDeleted truncMonth metrics ∧ ∀ k ∈ monthsAdded truncMonth metrics, k < first) := by
  have hadded := takeWhile_eq_filter (sorted_sortedMonths (monthsAdded truncMonth metrics)) first
  rw [monthsCounted, keys_hostMetrics]
  by_cases hall : ∀ k ∈ monthsAdded truncMonth metrics, k < first
  · have hdeleted := takeWhile_eq_filter ((sorted_sortedMonths (monthsDeleted truncMonth metrics)).filter
      fun m => m ∉ sortedMonths (monthsAdded truncMonth metrics)) first
    rw [List.takeWhile_append_of_pos (by simpa [mem_sortedMonths] using hall), hdeleted]
    simp only [List.mem_append, List.mem_filter, mem_sortedMonths, decide_eq_true_eq, hm, and_true]
    tauto
  · have hlength : ¬ ((sortedMonths (monthsAdded truncMonth metrics)).takeWhile fun m => m < first).length =
        (sortedMonths (monthsAdded truncMonth metrics)).length := by
      rw [hadded, List.length_filter_eq_length_iff]
      simpa [mem_sortedMonths] using hall
    rw [List.takeWhile_append, if_neg hlength, hadded]
    simp only [List.mem_filter, mem_sortedMonths, decide_eq_true_eq, hm, and_true]
    tauto

/-- No host was added in the first month or later, or some host was added in each earlier month in which
one was deleted. -/
def Clear (truncMonth : ℤ → ℤ) (metrics : List HostMetric) (first : ℤ) : Prop :=
  (∀ m ∈ monthsAdded truncMonth metrics, m < first) ∨
    ∀ m ∈ monthsDeleted truncMonth metrics, m < first → m ∈ monthsAdded truncMonth metrics

/-- The licences consumed up to a month: the hosts added less those that are deleted. -/
def licenseConsumed (truncMonth : ℤ → ℤ) (metrics : List HostMetric) (month : ℤ) : ℤ :=
  ((monthsAdded truncMonth metrics).countP fun m => m ≤ month) -
    (monthsDeleted truncMonth metrics).countP fun m => m ≤ month

variable (truncMonth metrics) in
theorem licenseConsumed_succ (month : ℤ) :
    licenseConsumed truncMonth metrics (month + 1) = licenseConsumed truncMonth metrics month +
      (monthsAdded truncMonth metrics).count (month + 1) -
        (monthsDeleted truncMonth metrics).count (month + 1) := by
  have hlt : ∀ L : List ℤ, L.countP (fun m => m < month + 1) = L.countP fun m => m ≤ month :=
    fun L => List.countP_congr fun m _ => by simp [Int.lt_add_one_iff]
  rw [licenseConsumed, licenseConsumed, countP_lt_succ, countP_lt_succ, hlt, hlt]
  push_cast
  ring

theorem consumedBefore_eq_iff (first : ℤ) :
    consumedBefore first (hostMetrics truncMonth metrics).entries 0 =
        licenseConsumed truncMonth metrics (first - 1) ↔
      Clear truncMonth metrics first := by
  have hbefore : ∀ m, m ∈ monthsCounted truncMonth metrics first → m < first := fun m hm =>
    of_decide_eq_true (List.mem_takeWhile_imp (p := fun m => decide (m < first)) hm)
  have hadded : (monthsAdded truncMonth metrics).countP
        (fun m => m ∈ monthsCounted truncMonth metrics first) =
      (monthsAdded truncMonth metrics).countP fun m => m ≤ first - 1 := by
    refine List.countP_congr fun m hm => ?_
    rw [decide_eq_true_eq, decide_eq_true_eq, Int.le_sub_one_iff]
    exact ⟨hbefore m, fun hlt => (mem_monthsCounted_iff hlt).mpr (.inl hm)⟩
  have hdeleted := countP_eq_countP_iff (L := monthsDeleted truncMonth metrics)
    (p := fun m => m ∈ monthsCounted truncMonth metrics first) (q := fun m => m ≤ first - 1)
    fun m _ hm => by
      rw [decide_eq_true_eq] at hm ⊢
      exact Int.le_sub_one_iff.mpr (hbefore m hm)
  simp only [decide_eq_true_eq, Int.le_sub_one_iff] at hdeleted
  rw [consumedBefore_eq, licenseConsumed, hadded]
  simp only [Int.le_sub_one_iff]
  rw [sub_right_inj, Nat.cast_inj, hdeleted]
  constructor
  · intro h
    by_cases hall : ∀ m ∈ monthsAdded truncMonth metrics, m < first
    · exact .inl hall
    · refine .inr fun m hm hlt => ?_
      rcases (mem_monthsCounted_iff hlt).mp (h m hm hlt) with hmem | ⟨-, hlater⟩
      · exact hmem
      · exact absurd hlater hall
  · rintro hclear m hm hlt
    refine (mem_monthsCounted_iff hlt).mpr ?_
    rcases hclear with hall | hsome
    · exact .inr ⟨hm, hall⟩
    · exact .inl (hsome m hm hlt)

end Metrics

/-! ### The summaries -/

theorem firstDay_lt {m k : ℤ} : firstDay m < firstDay k ↔ m < k := by
  rw [firstDay, firstDay, Prod.Lex.toLex_lt_toLex]
  simp

theorem firstDay_le {m k : ℤ} : firstDay m ≤ firstDay k ↔ m ≤ k := by
  rw [← not_lt, firstDay_lt, not_lt]

theorem firstDay_inj {m k : ℤ} : firstDay m = firstDay k ↔ m = k := by
  simp [firstDay]

/-- The cursor finds the summary of a month, and keeps those from this month on. -/
theorem findSummary_spec (month : ℤ) {existing : List Summary}
    (hsorted : existing.Pairwise fun a b => a.date < b.date) :
    (findSummary month existing).1 = existing.find? (fun s => s.date = firstDay month) ∧
    (findSummary month existing).2 <:+ existing ∧
    ∀ s ∈ existing, firstDay month ≤ s.date → s ∈ (findSummary month existing).2 := by
  induction existing with
  | nil => exact ⟨rfl, List.suffix_rfl, nofun⟩
  | cons tmp existing ih =>
    obtain ⟨hfirst, hsorted⟩ := List.pairwise_cons.mp hsorted
    rw [findSummary]
    split_ifs with hlt heq
    · obtain ⟨hfind, hsuffix, hkept⟩ := ih hsorted
      refine ⟨?_, hsuffix.trans (List.suffix_cons tmp existing), ?_⟩
      · rw [hfind, List.find?_cons_of_neg (by simpa using hlt.ne)]
      · intro s hs hle
        rcases List.mem_cons.mp hs with rfl | hs
        · exact absurd hlt (not_lt.mpr hle)
        · exact hkept s hs hle
    · refine ⟨?_, List.suffix_rfl, fun s hs _ => hs⟩
      rw [List.find?_cons_of_pos (by simpa using heq)]
    · refine ⟨(List.find?_eq_none.mpr fun s hs => ?_).symm, List.suffix_rfl, fun s hs _ => hs⟩
      have hgt : firstDay month < tmp.date := lt_of_le_of_ne (not_lt.mp hlt) (Ne.symm heq)
      have hdate : firstDay month < s.date := by
        rcases List.mem_cons.mp hs with rfl | hs
        · exact hgt
        · exact hgt.trans (hfirst s hs)
      simpa using hdate.ne'

section Fill
variable (truncMonth : ℤ → ℤ) (metrics : List HostMetric) (current instanceCount : ℤ)
  (existing : List Summary) (first : ℤ)

/-- How much the first month is off. -/
def surplus : ℤ :=
  consumedBefore first (hostMetrics truncMonth metrics).entries 0 -
    licenseConsumed truncMonth metrics (first - 1)

/-- What is written for a month. -/
def summaryOf (month : ℤ) : Summary where
  date := firstDay month
  licenseConsumed := licenseConsumed truncMonth metrics month + surplus truncMonth metrics first
  licenseCapacity := if month = current then instanceCount
    else ((existing.find? fun s => s.date = firstDay month).map Summary.licenseCapacity).getD 0
  hostsAdded := (monthsAdded truncMonth metrics).count month
  hostsDeleted := (monthsDeleted truncMonth metrics).count month

/-- The loop has filled the months before one. -/
structure Filled (month : ℤ) (p : Progress) : Prop where
  consumed : p.consumed =
    licenseConsumed truncMonth metrics (month - 1) + surplus truncMonth metrics first
  suffix : p.existing <:+ existing
  left : ∀ s ∈ existing, firstDay month ≤ s.date → s ∈ p.existing
  created : ∀ s, s ∈ p.toCreate ↔ ∃ k, first ≤ k ∧ k < month ∧ (∀ e ∈ existing, e.date ≠ firstDay k) ∧
    s = summaryOf truncMonth metrics current instanceCount existing first k
  updated : ∀ s, s ∈ p.toUpdate ↔ ∃ k, first ≤ k ∧ k < month ∧ (∃ e ∈ existing, e.date = firstDay k) ∧
    s = summaryOf truncMonth metrics current instanceCount existing first k
  nodup : (p.toCreate.map Summary.date).Nodup

variable {truncMonth metrics current instanceCount existing first}

variable (current instanceCount) in
theorem updateSummary_eq {month consumed : ℤ} {summary : Summary} (hdate : summary.date = firstDay month)
    (hcapacity : summary.licenseCapacity =
      ((existing.find? fun s => s.date = firstDay month).map Summary.licenseCapacity).getD 0)
    (hconsumed : consumed =
      licenseConsumed truncMonth metrics (month - 1) + surplus truncMonth metrics first) :
    updateSummary (hostMetrics truncMonth metrics) instanceCount current summary month consumed =
      summaryOf truncMonth metrics current instanceCount existing first month := by
  obtain ⟨hadded, hdeleted⟩ := getD_hostMetrics truncMonth metrics month
  have hstep := licenseConsumed_succ truncMonth metrics (month - 1)
  rw [sub_add_cancel] at hstep
  simp only [updateSummary, summaryOf, hadded, hdeleted, hdate, hcapacity, hconsumed, Summary.mk.injEq,
    true_and, and_true]
  omega

theorem exists_lt_succ_iff {month : ℤ} (hfirst : first ≤ month) {P : ℤ → Prop} :
    (∃ k, first ≤ k ∧ k < month + 1 ∧ P k) ↔ (∃ k, first ≤ k ∧ k < month ∧ P k) ∨ P month := by
  constructor
  · rintro ⟨k, hk, hlt, hP⟩
    rcases (Int.lt_add_one_iff.mp hlt).lt_or_eq with hlt | rfl
    · exact .inl ⟨k, hk, hlt, hP⟩
    · exact .inr hP
  · rintro (⟨k, hk, hlt, hP⟩ | hP)
    · exact ⟨k, hk, by omega, hP⟩
    · exact ⟨month, hfirst, by omega, hP⟩

/-- What the cursor finds is what the table holds for the month. -/
theorem Filled.find?_eq {month : ℤ} {p : Progress}
    (h : Filled truncMonth metrics current instanceCount existing first month p)
    (hsorted : existing.Pairwise fun a b => a.date < b.date) :
    (findSummary month p.existing).1 = existing.find? fun s => s.date = firstDay month := by
  obtain ⟨before, hsplit⟩ := h.suffix
  have hpairs := hsorted
  rw [← hsplit, List.pairwise_append] at hpairs
  have hbefore : before.find? (fun s => decide (s.date = firstDay month)) = none := by
    refine List.find?_eq_none.mpr fun s hs hdate => ?_
    rw [decide_eq_true_eq] at hdate
    have hmem := h.left s (hsplit ▸ List.mem_append_left _ hs) hdate.ge
    exact absurd (hpairs.2.2 s hs s hmem) (lt_irrefl _)
  rw [(findSummary_spec month hpairs.2.1).1, ← hsplit, List.find?_append, hbefore, Option.none_or]

theorem Filled.fillMonth {month : ℤ} {p : Progress}
    (h : Filled truncMonth metrics current instanceCount existing first month p)
    (hsorted : existing.Pairwise fun a b => a.date < b.date) (hfirst : first ≤ month) :
    Filled truncMonth metrics current instanceCount existing first (month + 1)
      (fillMonth (hostMetrics truncMonth metrics) instanceCount current p month) := by
  have hfind := h.find?_eq hsorted
  obtain ⟨-, hsuffix, hkept⟩ := findSummary_spec month (hsorted.sublist h.suffix.sublist)
  have hleft : ∀ s ∈ existing, firstDay (month + 1) ≤ s.date → s ∈ (findSummary month p.existing).2 := by
    intro s hs hle
    have hle' : firstDay month ≤ s.date := (firstDay_le.mpr (by omega)).trans hle
    exact hkept s (h.left s hs hle') hle'
  have hconsumed : (summaryOf truncMonth metrics current instanceCount existing first month).licenseConsumed =
      licenseConsumed truncMonth metrics (month + 1 - 1) + surplus truncMonth metrics first := by
    rw [add_sub_cancel_right]
    rfl
  unfold HostMetrics.fillMonth
  rcases hresult : findSummary month p.existing with ⟨found, rest⟩
  rw [hresult] at hfind hsuffix hleft
  dsimp only at hfind hsuffix hleft
  cases found with
  | none =>
    have hnone : ∀ e ∈ existing, e.date ≠ firstDay month := by
      have hnot := List.find?_eq_none.mp hfind.symm
      simpa using hnot
    have hcapacity : (⟨firstDay month, 0, 0, 0, 0⟩ : Summary).licenseCapacity =
        ((existing.find? fun s => s.date = firstDay month).map Summary.licenseCapacity).getD 0 := by
      rw [← hfind]
      rfl
    have hsummary := updateSummary_eq current instanceCount rfl hcapacity h.consumed
    dsimp only
    rw [hsummary]
    refine ⟨hconsumed, hsuffix.trans h.suffix, hleft, fun s => ?_, fun s => ?_, ?_⟩
    · rw [exists_lt_succ_iff hfirst, List.mem_append, List.mem_singleton, h.created]
      exact or_congr_right (and_iff_right hnone).symm
    · rw [exists_lt_succ_iff hfirst, h.updated]
      exact (or_iff_left fun ⟨⟨e, he, hdate⟩, _⟩ => hnone e he hdate).symm
    · rw [List.map_append, List.map_singleton]
      refine h.nodup.append (List.nodup_singleton _) fun date hdate hmem => ?_
      obtain ⟨s, hs, rfl⟩ := List.mem_map.mp hdate
      obtain ⟨k, -, hk, -, rfl⟩ := (h.created s).mp hs
      have heq := firstDay_inj.mp (List.mem_singleton.mp hmem)
      omega
  | some found =>
    have hdate : found.date = firstDay month := by
      have htrue := List.find?_some hfind.symm
      simpa using htrue
    have hmem := List.mem_of_find?_eq_some hfind.symm
    have hcapacity : found.licenseCapacity =
        ((existing.find? fun s => s.date = firstDay month).map Summary.licenseCapacity).getD 0 := by
      rw [← hfind]
      rfl
    have hsummary := updateSummary_eq current instanceCount hdate hcapacity h.consumed
    have hsome : ¬ ∀ e ∈ existing, e.date ≠ firstDay month := fun hall => hall found hmem hdate
    have hexists : ∃ e ∈ existing, e.date = firstDay month := ⟨found, hmem, hdate⟩
    dsimp only
    rw [hsummary]
    refine ⟨hconsumed, hsuffix.trans h.suffix, hleft, fun s => ?_, fun s => ?_, h.nodup⟩
    · rw [exists_lt_succ_iff hfirst, h.created]
      exact (or_iff_left fun hboth => hsome hboth.1).symm
    · rw [exists_lt_succ_iff hfirst, List.mem_append, List.mem_singleton, h.updated]
      exact or_congr_right (and_iff_right hexists).symm

theorem Filled.fillMonths {month : ℤ} {p : Progress}
    (h : Filled truncMonth metrics current instanceCount existing first month p)
    (hsorted : existing.Pairwise fun a b => a.date < b.date) (hfirst : first ≤ month)
    (hcurrent : month ≤ current + 1) :
    Filled truncMonth metrics current instanceCount existing first (current + 1)
      (fillMonths (hostMetrics truncMonth metrics) instanceCount current month p) := by
  induction month, p using fillMonths.induct (hostMetrics truncMonth metrics) instanceCount current with
  | case1 month p hle ih =>
    rw [HostMetrics.fillMonths, if_pos hle]
    exact ih (h.fillMonth hsorted hfirst) (by omega) (by omega)
  | case2 month p hlt =>
    obtain rfl : month = current + 1 := by omega
    rw [HostMetrics.fillMonths, if_neg hlt]
    exact h

end Fill

/-! ### The table -/

section Table
variable (truncMonth : ℤ → ℤ) (metrics : List HostMetric) (current threshold instanceCount : ℤ)
  (rows : List Summary)

/-- The summaries that the task loads. -/
def loaded (first : ℤ) : List Summary :=
  (rows.filter fun row => firstDay first ≤ row.date).mergeSort (·.date ≤ ·.date)

/-- One summary of each month from the first one to the current one, with its numbers, and the older ones
as they were. -/
structure Exact (rows' : List Summary) : Prop where
  nodup : (rows'.map Summary.date).Nodup
  months : ∀ month, firstMonth current threshold ≤ month → month ≤ current →
    ∃ s ∈ rows', s.date = firstDay month ∧
      s.hostsAdded = (monthsAdded truncMonth metrics).count month ∧
      s.hostsDeleted = (monthsDeleted truncMonth metrics).count month ∧
      s.licenseConsumed = licenseConsumed truncMonth metrics month
  older : ∀ s : Summary, s.date < firstDay (firstMonth current threshold) → (s ∈ rows' ↔ s ∈ rows)

variable {truncMonth metrics current threshold instanceCount rows}

theorem mem_loaded {first : ℤ} {s : Summary} :
    s ∈ loaded rows first ↔ s ∈ rows ∧ firstDay first ≤ s.date := by
  rw [loaded, List.mem_mergeSort, List.mem_filter, decide_eq_true_eq]

theorem sorted_loaded (hrows : (rows.map Summary.date).Nodup) (first : ℤ) :
    (loaded rows first).Pairwise fun a b => a.date < b.date := by
  have hperm := List.mergeSort_perm (rows.filter fun row => firstDay first ≤ row.date) (·.date ≤ ·.date)
  have hnodup : ((loaded rows first).map Summary.date).Nodup :=
    (hperm.map Summary.date).nodup_iff.mpr (hrows.sublist (List.filter_sublist.map Summary.date))
  have hle : (loaded rows first).Pairwise fun a b => a.date ≤ b.date := by
    have htrans : ∀ a b c : Summary, decide (a.date ≤ b.date) = true → decide (b.date ≤ c.date) = true →
        decide (a.date ≤ c.date) = true := by
      intro a b c hab hbc
      rw [decide_eq_true_eq] at hab hbc ⊢
      exact hab.trans hbc
    have htotal : ∀ a b : Summary, (decide (a.date ≤ b.date) || decide (b.date ≤ a.date)) = true := by
      intro a b
      rw [Bool.or_eq_true, decide_eq_true_eq, decide_eq_true_eq]
      exact le_total a.date b.date
    have hsorted := List.pairwise_mergeSort htrans htotal (rows.filter fun row => firstDay first ≤ row.date)
    exact hsorted.imp fun hab => of_decide_eq_true hab
  have hne : (loaded rows first).Pairwise fun a b => a.date ≠ b.date := List.pairwise_map.mp hnodup
  exact (hle.and hne).imp fun h => lt_of_le_of_ne h.1 h.2

/-! A save of summaries by their dates. -/

theorem date_bulkUpdate (rows updated : List Summary) :
    (bulkUpdate rows updated).map Summary.date = rows.map Summary.date := by
  rw [bulkUpdate, List.map_map]
  refine List.map_congr_left fun row _ => ?_
  rw [Function.comp_apply]
  split <;> rfl

theorem mem_bulkUpdate_of_not_mem {rows updated : List Summary} {s : Summary}
    (h : ∀ u ∈ updated, u.date ≠ s.date) : s ∈ bulkUpdate rows updated ↔ s ∈ rows := by
  have hnone : ∀ row : Summary, row.date = s.date →
      updated.find? (fun summary => decide (summary.date = row.date)) = none := by
    intro row hrow
    refine List.find?_eq_none.mpr fun u hu => ?_
    rw [hrow]
    simpa using h u hu
  rw [bulkUpdate, List.mem_map]
  constructor
  · rintro ⟨row, hmem, heq⟩
    have hdate : row.date = s.date := by
      rw [← heq]
      split <;> rfl
    rw [hnone row hdate] at heq
    exact heq ▸ hmem
  · intro hmem
    exact ⟨s, hmem, by rw [hnone s rfl]⟩

theorem mem_bulkUpdate_of_mem {rows updated : List Summary} {row u : Summary} (hrow : row ∈ rows)
    (hu : u ∈ updated) (hdate : u.date = row.date) (hunique : ∀ v ∈ updated, v.date = row.date → v = u) :
    { row with
      licenseConsumed := u.licenseConsumed
      hostsAdded := u.hostsAdded
      hostsDeleted := u.hostsDeleted } ∈ bulkUpdate rows updated := by
  have hfind : updated.find? (fun summary => decide (summary.date = row.date)) = some u := by
    cases hv : updated.find? (fun summary => decide (summary.date = row.date)) with
    | none => exact absurd hdate (by simpa using List.find?_eq_none.mp hv u hu)
    | some v =>
      have htrue := List.find?_some hv
      rw [decide_eq_true_eq] at htrue
      rw [hunique v (List.mem_of_find?_eq_some hv) htrue]
  exact List.mem_map.mpr ⟨row, hrow, by rw [hfind]⟩

variable (truncMonth metrics current instanceCount) in
/-- The table that the task leaves. -/
theorem execute_spec (hrows : (rows.map Summary.date).Nodup) (hthreshold : 1 ≤ threshold) :
    ∃ rows', execute truncMonth current threshold instanceCount metrics rows = some rows' ∧
      (rows'.map Summary.date).Nodup ∧
      (∀ month, firstMonth current threshold ≤ month → month ≤ current →
        ∃ s ∈ rows', s.date = firstDay month ∧
          s.hostsAdded = (monthsAdded truncMonth metrics).count month ∧
          s.hostsDeleted = (monthsDeleted truncMonth metrics).count month ∧
          s.licenseConsumed = licenseConsumed truncMonth metrics month +
            surplus truncMonth metrics (firstMonth current threshold)) ∧
      ∀ s : Summary, s.date < firstDay (firstMonth current threshold) → (s ∈ rows' ↔ s ∈ rows) := by
  have hcurrent : firstMonth current threshold ≤ current + 1 := by
    rw [firstMonth]
    omega
  generalize hfirst : firstMonth current threshold = first at hcurrent ⊢
  have hstart : Filled truncMonth metrics current instanceCount (loaded rows first) first first
      ⟨consumedBefore first (hostMetrics truncMonth metrics).entries 0, loaded rows first, [], []⟩ :=
    ⟨(add_sub_cancel _ _).symm, List.suffix_rfl, fun s hs _ => hs,
      fun s => ⟨nofun, fun ⟨k, hk, hlt, _⟩ => absurd hlt (not_lt.mpr hk)⟩,
      fun s => ⟨nofun, fun ⟨k, hk, hlt, _⟩ => absurd hlt (not_lt.mpr hk)⟩, List.nodup_nil⟩
  have hfilled := hstart.fillMonths (sorted_loaded hrows first) le_rfl hcurrent
  generalize hp : fillMonths (hostMetrics truncMonth metrics) instanceCount current first
    ⟨consumedBefore first (hostMetrics truncMonth metrics).entries 0, loaded rows first, [], []⟩ = p
    at hfilled
  have hnodup : ((rows ++ p.toCreate).map Summary.date).Nodup := by
    rw [List.map_append]
    refine hrows.append hfilled.nodup fun date hdate hmem => ?_
    obtain ⟨row, hrow, rfl⟩ := List.mem_map.mp hdate
    obtain ⟨s, hs, heq⟩ := List.mem_map.mp hmem
    obtain ⟨k, hk, -, hnone, rfl⟩ := (hfilled.created s).mp hs
    exact hnone row (mem_loaded.mpr ⟨hrow, heq ▸ firstDay_le.mpr hk⟩) heq.symm
  refine ⟨bulkUpdate (rows ++ p.toCreate) p.toUpdate, ?_, ?_, ?_, ?_⟩
  · rw [execute, hfirst]
    unfold loaded hostMetrics at hp
    rw [hp, bulkCreate, if_pos hnodup, Option.map_some]
  · rw [date_bulkUpdate]
    exact hnodup
  · intro month hle hge
    by_cases hexists : ∃ e ∈ loaded rows first, e.date = firstDay month
    · obtain ⟨e, he, hdate⟩ := hexists
      have hu := (hfilled.updated _).mpr ⟨month, hle, by omega, ⟨e, he, hdate⟩, rfl⟩
      have hrow := List.mem_append_left p.toCreate (mem_loaded.mp he).1
      refine ⟨_, mem_bulkUpdate_of_mem hrow hu hdate.symm fun v hv heq => ?_, hdate, rfl, rfl, rfl⟩
      obtain ⟨k, -, -, -, rfl⟩ := (hfilled.updated v).mp hv
      rw [firstDay_inj.mp (heq.trans hdate)]
    · have hnone : ∀ e ∈ loaded rows first, e.date ≠ firstDay month := fun e he hdate =>
        hexists ⟨e, he, hdate⟩
      have hc := (hfilled.created _).mpr ⟨month, hle, by omega, hnone, rfl⟩
      refine ⟨_, (mem_bulkUpdate_of_not_mem fun u hu heq => ?_).mpr (List.mem_append_right rows hc), rfl, rfl,
        rfl, rfl⟩
      obtain ⟨k, -, -, ⟨e, he, hdate⟩, rfl⟩ := (hfilled.updated u).mp hu
      exact hnone e he (hdate.trans heq)
  · intro s hs
    have hlater : ∀ k, first ≤ k → firstDay k ≠ s.date := fun k hk heq =>
      absurd hs (not_lt.mpr (heq ▸ firstDay_le.mpr hk))
    rw [mem_bulkUpdate_of_not_mem fun u hu heq => ?_, List.mem_append]
    · refine or_iff_left fun hmem => ?_
      obtain ⟨k, hk, -, -, rfl⟩ := (hfilled.created s).mp hmem
      exact hlater k hk rfl
    · obtain ⟨k, hk, -, -, rfl⟩ := (hfilled.updated u).mp hu
      exact hlater k hk heq

theorem surplus_eq_zero_iff (first : ℤ) :
    surplus truncMonth metrics first = 0 ↔ Clear truncMonth metrics first := by
  rw [surplus, sub_eq_zero, consumedBefore_eq_iff]

variable (truncMonth metrics current instanceCount) in
/-- A surplus shows in the first month, and so in every one. -/
theorem exact_iff_surplus (hrows : (rows.map Summary.date).Nodup) (hthreshold : 1 ≤ threshold) :
    ∃ rows', execute truncMonth current threshold instanceCount metrics rows = some rows' ∧
      (Exact truncMonth metrics current threshold rows rows' ↔
        surplus truncMonth metrics (firstMonth current threshold) = 0) := by
  obtain ⟨rows', hexecute, hnodup, hmonths, holder⟩ := execute_spec truncMonth metrics
    current instanceCount hrows hthreshold
  refine ⟨rows', hexecute, ?_⟩
  constructor
  · intro h
    have hle : firstMonth current threshold ≤ current := by
      rw [firstMonth]
      omega
    obtain ⟨s, hs, hdate, -, -, hconsumed⟩ := hmonths _ le_rfl hle
    obtain ⟨s', hs', hdate', -, -, hconsumed'⟩ := h.months _ le_rfl hle
    rw [List.inj_on_of_nodup_map hnodup hs hs' (hdate.trans hdate'.symm)] at hconsumed
    omega
  · intro h
    refine ⟨hnodup, fun month hfirst hcurrent => ?_, holder⟩
    obtain ⟨s, hs, hdate, hadded, hdeleted, hconsumed⟩ := hmonths month hfirst hcurrent
    exact ⟨s, hs, hdate, hadded, hdeleted, by rw [hconsumed, h, add_zero]⟩

variable (truncMonth metrics current instanceCount) in
/-- The summaries are exact if and only if the months before the first one are all counted. -/
theorem exact_iff_clear (hrows : (rows.map Summary.date).Nodup) (hthreshold : 1 ≤ threshold) :
    ∃ rows', execute truncMonth current threshold instanceCount metrics rows = some rows' ∧
      (Exact truncMonth metrics current threshold rows rows' ↔
        Clear truncMonth metrics (firstMonth current threshold)) := by
  obtain ⟨rows', hexecute, hexact⟩ := exact_iff_surplus truncMonth metrics current
    instanceCount hrows hthreshold
  exact ⟨rows', hexecute, hexact.trans (surplus_eq_zero_iff _)⟩

/-- Hosts of the months 1 and 2, of which one was deleted in month 2, and a host of month 13. -/
theorem exact_iff_clear_example : ∃ rows', execute id 13 3 100
      [⟨1, some 2, true⟩, ⟨2, none, false⟩, ⟨13, none, false⟩] [⟨firstDay 12, 5, 50, 0, 0⟩] = some rows' ∧
    Exact id [⟨1, some 2, true⟩, ⟨2, none, false⟩, ⟨13, none, false⟩] 13 3 [⟨firstDay 12, 5, 50, 0, 0⟩]
      rows' := by
  have hrows : (([⟨firstDay 12, 5, 50, 0, 0⟩] : List Summary).map Summary.date).Nodup :=
    List.nodup_singleton _
  obtain ⟨rows', hexecute, hexact⟩ := exact_iff_clear id
    [⟨1, some 2, true⟩, ⟨2, none, false⟩, ⟨13, none, false⟩] 13 100 hrows (show (1 : ℤ) ≤ 3 by decide)
  refine ⟨rows', hexecute, hexact.mpr (.inr ?_)⟩
  decide

/-- The host that was deleted in month 2 is counted for ever: no host was added in that month, and a host
of month 13 ends the loop before it. -/
theorem deleted_host_counted : ∃ rows', execute id 13 3 100 [⟨1, some 2, true⟩, ⟨13, none, false⟩] [] =
      some rows' ∧
    ¬ Exact id [⟨1, some 2, true⟩, ⟨13, none, false⟩] 13 3 [] rows' := by
  have hrows : (([] : List Summary).map Summary.date).Nodup := List.nodup_nil
  obtain ⟨rows', hexecute, hexact⟩ := exact_iff_surplus id [⟨1, some 2, true⟩, ⟨13, none, false⟩] 13 100
    hrows (show (1 : ℤ) ≤ 3 by decide)
  refine ⟨rows', hexecute, fun h => ?_⟩
  rcases (surplus_eq_zero_iff _).mp (hexact.mp h) with hall | hsome
  · exact absurd hall (by decide)
  · exact absurd hsome (by decide)

end Table

end Forail.HostMetrics
