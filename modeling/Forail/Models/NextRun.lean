import Forail.Base.NextAfter
import Mathlib.Data.Int.ConditionallyCompleteOrder
import Mathlib.Data.Int.Order.Basic
import Mathlib.Order.Monotone.Basic

/-! The next run of a schedule in local time. A rule set yields local times, and some of these its
time zone lacks: the clock is put forward over them. One such time is skipped, and no more. -/

namespace Forail.NextRun

/-- The recurrences of a rule set in their order; without a length they never end. `endless`: some
rule has neither `until` nor `count`. -/
structure RuleSet where
  occurrence : ℕ → ℤ
  increasing : StrictMono occurrence
  length : Option ℕ
  endless : Bool
  length_of_not_endless : endless = false → length.isSome

namespace RuleSet

/-- `ruleset[n]`, where none stands for an IndexError. -/
def get (r : RuleSet) (n : ℕ) : Option ℤ :=
  if r.length.all (n < ·) then some (r.occurrence n) else none

def times (r : RuleSet) : Set ℤ := {t | ∃ n, r.get n = some t}

/-- The loop of `after` from one of the recurrences on. -/
def search (r : RuleSet) (now : ℤ) : ℕ → ℕ → Option ℤ
  | 0, _ => none
  | fuel + 1, n =>
    match r.get n with
    | none => none
    | some t => if now < t then some t else r.search now fuel (n + 1)

/-- The first recurrence after a time. Each one is later than the one before it, so it is found
within as many steps as the first one is before that time. -/
def after (r : RuleSet) (now : ℤ) : Option ℤ := r.search now ((now - r.occurrence 0).toNat + 2) 0

/-- `ruleset[-1]` -/
def last (r : RuleSet) : Option ℤ :=
  r.length.bind fun
    | 0 => none
    | n + 1 => some (r.occurrence n)

end RuleSet

structure Schedule where
  rrule : RuleSet
  enabled : Bool
  nextRun : Option ℤ
  dtstart : Option ℤ
  dtend : Option ℤ

def getEndDate (ruleset : RuleSet) : Option ℤ := if ruleset.endless then none else ruleset.last

/-- `skip imaginary dates, like 2:30 on DST boundaries` -/
def nextRunActual (datetimeExists : ℤ → Bool) (futureRs : RuleSet) (now : ℤ) :
    Except String (Option ℤ) :=
  match futureRs.after now with
  | none => .ok none
  | some nextRun =>
    if datetimeExists nextRun then .ok (some nextRun)
    else match futureRs.after nextRun with
      | none => .error "'NoneType' object has no attribute 'astimezone'"
      | some nextRun => .ok (some nextRun)

/-- The schedule with its computed fields, and whether one of them changed. -/
def updateComputedFieldsNoSave (datetimeExists : ℤ → Bool) (s : Schedule) (now : ℤ) :
    Except String (Schedule × Bool) := do
  let nextRun ← if s.enabled then nextRunActual datetimeExists s.rrule now else .ok none
  let dtstart := s.rrule.get 0
  let dtend := getEndDate s.rrule
  .ok ({ s with nextRun, dtstart, dtend },
    decide (nextRun ≠ s.nextRun ∨ dtstart ≠ s.dtstart ∨ dtend ≠ s.dtend))

/-- Where the first recurrence after now is one that the zone lacks, the next one is not. -/
def Skips (datetimeExists : ℤ → Bool) (times : Set ℤ) (now : ℤ) : Prop :=
  ∀ t, IsLeast (times ∩ Set.Ioi now) t → datetimeExists t = false →
    ∃ t', IsLeast (times ∩ Set.Ioi t) t' ∧ datetimeExists t' = true

variable {r : RuleSet} {now t : ℤ} {m n : ℕ} {datetimeExists : ℤ → Bool}

/-! ### The search of `after` -/

theorem get_eq_some : r.get n = some t ↔ r.length.all (n < ·) ∧ r.occurrence n = t := by
  rw [RuleSet.get, Option.ite_none_right_eq_some, Option.some_inj]

theorem get_of_le (h : r.get n = some t) (hmn : m ≤ n) : r.get m = some (r.occurrence m) := by
  refine get_eq_some.mpr ⟨?_, rfl⟩
  have hall := (get_eq_some.mp h).1
  cases hlength : r.length with
  | none => rfl
  | some k =>
    rw [hlength] at hall
    exact decide_eq_true (hmn.trans_lt (of_decide_eq_true hall))

theorem occurrence_ge (r : RuleSet) (n : ℕ) : r.occurrence 0 + n ≤ r.occurrence n := by
  induction n with
  | zero => simp
  | succ n ih =>
    have hlt := r.increasing (Nat.lt_add_one n)
    push_cast
    omega

/-- Where the first place that is not before is after the end, nothing is late enough. -/
theorem next_of_get_none (hget : r.get n = none) (hbefore : ∀ m < n, r.occurrence m ≤ now) :
    NextAfter r.times now none := by
  rintro t ⟨m, hm⟩
  have hlt : m < n := by
    refine not_le.mp fun hle => ?_
    rw [get_of_le hm hle] at hget
    cases hget
  rw [← (get_eq_some.mp hm).2]
  exact hbefore m hlt

theorem next_of_get (hget : r.get n = some t) (hbefore : ∀ m < n, r.occurrence m ≤ now)
    (hlt : now < t) : NextAfter r.times now (some t) := by
  refine ⟨⟨⟨n, hget⟩, hlt⟩, ?_⟩
  rintro u ⟨⟨m, hm⟩, hu⟩
  rw [← (get_eq_some.mp hget).2, ← (get_eq_some.mp hm).2]
  refine r.increasing.monotone (not_lt.mp fun hmn => ?_)
  have hle := hbefore m hmn
  rw [(get_eq_some.mp hm).2] at hle
  exact absurd hu (not_lt.mpr hle)

/-- From a place on before which nothing is late enough. -/
theorem search_spec {fuel : ℕ} (hfuel : now < r.occurrence 0 + n + fuel)
    (hbefore : ∀ m < n, r.occurrence m ≤ now) :
    NextAfter r.times now (r.search now (fuel + 1) n) := by
  induction fuel generalizing n with
  | zero =>
    cases hget : r.get n with
    | none =>
      simp only [RuleSet.search, hget]
      exact next_of_get_none hget hbefore
    | some t =>
      have hge := occurrence_ge r n
      rw [(get_eq_some.mp hget).2] at hge
      have hlt : now < t := by
        push_cast at hfuel
        omega
      simp only [RuleSet.search, hget, hlt, if_true]
      exact next_of_get hget hbefore hlt
  | succ fuel ih =>
    cases hget : r.get n with
    | none =>
      simp only [RuleSet.search, hget]
      exact next_of_get_none hget hbefore
    | some t =>
      by_cases hlt : now < t
      · simp only [RuleSet.search, hget, hlt, if_true]
        exact next_of_get hget hbefore hlt
      · have hstep : r.search now (fuel + 1 + 1) n = r.search now (fuel + 1) (n + 1) := by
          rw [RuleSet.search, hget]
          exact if_neg hlt
        rw [hstep]
        refine ih (by push_cast at hfuel ⊢; omega) fun m hm => ?_
        rcases Nat.lt_succ_iff_lt_or_eq.mp hm with hm | rfl
        · exact hbefore m hm
        · rw [(get_eq_some.mp hget).2]
          exact not_lt.mp hlt

theorem after_spec (r : RuleSet) (now : ℤ) : NextAfter r.times now (r.after now) := by
  refine search_spec ?_ fun m hm => absurd hm (Nat.not_lt_zero m)
  push_cast
  omega

/-! ### The time that is set -/

/-- The times that the time zone has. -/
def real (datetimeExists : ℤ → Bool) (times : Set ℤ) : Set ℤ := {t ∈ times | datetimeExists t = true}

section

variable {times : Set ℤ} {o : Option ℤ}

/-- With nothing after now there is nothing real either. -/
theorem real_of_none (h : NextAfter times now none) :
    NextAfter (real datetimeExists times) now none := fun t ht => h t ht.1

theorem real_of_exists (h : NextAfter times now (some t)) (hexists : datetimeExists t = true) :
    NextAfter (real datetimeExists times) now (some t) :=
  ⟨⟨⟨h.1.1, hexists⟩, h.1.2⟩, fun _ hu => h.2 ⟨hu.1.1, hu.2⟩⟩

/-- A time that the zone lacks is passed by. -/
theorem real_of_gap (h : NextAfter times now (some t)) (hlacks : datetimeExists t = false)
    (hnext : NextAfter (real datetimeExists times) t o) :
    NextAfter (real datetimeExists times) now o := by
  refine hnext.of_le h.1.2.le fun u hu hlt => ?_
  refine (h.2 ⟨hu.1, hlt⟩).lt_of_ne ?_
  rintro rfl
  rw [hu.2] at hlacks
  cases hlacks

theorem datetimeExists_of_next (h : NextAfter (real datetimeExists times) now (some t)) :
    datetimeExists t = true := h.1.1.2

end

theorem nextRunActual_exact (datetimeExists : ℤ → Bool) (r : RuleSet) (now : ℤ) :
    (∃ o, nextRunActual datetimeExists r now = .ok o ∧
      NextAfter (real datetimeExists r.times) now o) ↔ Skips datetimeExists r.times now := by
  have hafter := after_spec r now
  unfold nextRunActual
  cases hfirst : r.after now with
  | none =>
    rw [hfirst] at hafter
    refine iff_of_true ⟨none, rfl, real_of_none hafter⟩ fun t ht _ => ?_
    exact absurd ht.1.2 (not_lt.mpr (hafter t ht.1.1))
  | some t =>
    rw [hfirst] at hafter
    have hunique : ∀ u, IsLeast (r.times ∩ Set.Ioi now) u → u = t := fun u hu => hu.unique hafter
    cases hexists : datetimeExists t with
    | true =>
      refine iff_of_true ⟨some t, by simp [hexists], real_of_exists hafter hexists⟩ ?_
      intro u hu hlacks
      rw [hunique u hu, hexists] at hlacks
      cases hlacks
    | false =>
      have hsecond := after_spec r t
      simp only [hexists, Bool.false_eq_true, if_false]
      cases hnext : r.after t with
      | none =>
        rw [hnext] at hsecond
        refine iff_of_false (by simp) fun hskips => ?_
        obtain ⟨t', ht', _⟩ := hskips t hafter hexists
        exact absurd ht'.1.2 (not_lt.mpr (hsecond t' ht'.1.1))
      | some t' =>
        rw [hnext] at hsecond
        constructor
        · rintro ⟨o, ho, hleast⟩ u hu _
          rw [hunique u hu]
          obtain rfl := Except.ok.inj ho
          exact ⟨t', hsecond, datetimeExists_of_next hleast⟩
        · intro hskips
          obtain ⟨u, hu, hreal⟩ := hskips t hafter hexists
          rw [hu.unique hsecond] at hreal
          exact ⟨some t', rfl, real_of_gap hafter hexists (real_of_exists hsecond hreal)⟩

/-- An enabled schedule takes its next run from the rule set, with the failure. -/
theorem updateComputedFieldsNoSave_nextRun {s : Schedule} (henabled : s.enabled = true)
    (p : Option ℤ → Prop) :
    (∃ s' changed, updateComputedFieldsNoSave datetimeExists s now = .ok (s', changed) ∧
      p s'.nextRun) ↔ ∃ o, nextRunActual datetimeExists s.rrule now = .ok o ∧ p o := by
  simp only [updateComputedFieldsNoSave, henabled, if_true]
  cases nextRunActual datetimeExists s.rrule now with
  | error e =>
    refine iff_of_false ?_ ?_
    · rintro ⟨s', changed, h, _⟩
      cases h
    · rintro ⟨o, h, _⟩
      cases h
  | ok o =>
    constructor
    · rintro ⟨s', changed, h, hp⟩
      cases h
      exact ⟨o, rfl, hp⟩
    · rintro ⟨o', h, hp⟩
      cases h
      exact ⟨_, _, rfl, hp⟩

/-- Every half hour from midnight on, in minutes. -/
def halfHourly (length : Option ℕ) : RuleSet where
  occurrence n := 30 * n
  increasing := fun m n h => by
    show (30 * m : ℤ) < 30 * n
    omega
  length := length
  endless := length.isNone
  length_of_not_endless h := by
    cases length with
    | none => cases h
    | some _ => rfl

def reporting (length : Option ℕ) : Schedule where
  rrule := halfHourly length
  enabled := true
  nextRun := none
  dtstart := none
  dtend := none

/-- The clock is put forward from two to three. -/
def putForward (t : ℤ) : Bool := t < 120 || 180 ≤ t

end Forail.NextRun
