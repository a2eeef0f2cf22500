import Forail.Base.NextAfter

/-! Fast-forwarding a schedule. `Schedule.rrulestr` moves the start of an old rule set to
the last week, by whole days and for all rules at once. The occurrences after now stay the
same when every rule with occurrences left is covered by a rule without COUNT whose step
divides the shift; for one rule, and for sets whose rules with an end are over or covered,
only then. Times are microseconds since the epoch, in UTC. -/

namespace Forail.Schedule

open Multiples

def second : ℤ := 1000000

def day : ℤ := 86400 * second

inductive Freq
  | weekly | daily | hourly | minutely
  deriving DecidableEq

def Freq.length : Freq → ℤ
  | .weekly => 7 * day
  | .daily => day
  | .hourly => 3600 * second
  | .minutely => 60 * second

/-- A rule without by-parts. -/
structure Rule where
  freq : Freq
  interval : ℕ
  interval_pos : 0 < interval
  count : Option ℕ
  untilTime : Option ℤ

/-- DTSTART as a day and a time in the day, and the rules that share it. -/
structure RRuleSet where
  date : ℤ
  time : ℤ
  time_range : 0 ≤ time ∧ time < day
  rules : List Rule

namespace Rule

def step (r : Rule) : ℤ := r.freq.length * r.interval

/-- The rule started there has this occurrence. -/
def Yields (r : Rule) (dtstart t : ℤ) : Prop :=
  ∃ k : ℕ, t = dtstart + k * r.step ∧ (∀ c ∈ r.count, k < c) ∧ ∀ u ∈ r.untilTime, t ≤ u

def nonempty (r : Rule) (dtstart : ℤ) : Bool :=
  r.count ≠ some 0 && (r.untilTime.all fun u => decide (dtstart ≤ u))

end Rule

namespace RRuleSet

def dtstart (x : RRuleSet) : ℤ := x.date * day + x.time

def Yields (x : RRuleSet) (t : ℤ) : Prop := ∃ r ∈ x.rules, r.Yields x.dtstart t

/-- `x[0]`, where none stands for an IndexError. -/
def firstEvent (x : RRuleSet) : Option ℤ :=
  if x.rules.any fun r => r.nonempty x.dtstart then some x.dtstart else none

end RRuleSet

/-- The rule is minutely or hourly `and not rule._count`. -/
def Rule.fastForwarded (r : Rule) : Bool :=
  (r.freq == .minutely || r.freq == .hourly) && r.count.getD 0 == 0

/-- The conditions for the new start, with the subtraction of the first event in days. -/
def fastForwards (now : ℤ) (x : RRuleSet) : Bool :=
  match x.firstEvent with
  | none => false
  | some firstEvent => decide (7 < (now - firstEvent) / day) && x.rules.any Rule.fastForwarded

/-- `Schedule.rrulestr` on a parsed rule set. -/
def rrulestr (now : ℤ) (fastForward : Bool) (x : RRuleSet) : RRuleSet :=
  if fastForward && fastForwards now x then { x with date := (now - 7 * day) / day } else x

/-! ### Rules -/

theorem day_pos : 0 < day := by decide

namespace Rule

variable {r : Rule} {a t : ℤ}

theorem step_pos (r : Rule) : 0 < r.step := by
  have hlen : 0 < r.freq.length := by cases r.freq <;> decide
  exact Int.mul_pos hlen (Int.natCast_pos.mpr r.interval_pos)

theorem Yields.dvd (h : r.Yields a t) : r.step ∣ t - a := by
  obtain ⟨k, rfl, -, -⟩ := h
  rw [add_sub_cancel_left]
  exact dvd_mul_left _ _

theorem Yields.le (h : r.Yields a t) : a ≤ t := by
  obtain ⟨k, rfl, -, -⟩ := h
  have hk : 0 ≤ (k : ℤ) * r.step := mul_nonneg (Int.natCast_nonneg k) r.step_pos.le
  omega

theorem Yields.le_until (h : r.Yields a t) {u : ℤ} (hu : u ∈ r.untilTime) : t ≤ u :=
  h.choose_spec.2.2 u hu

theorem yields_of_dvd (hc : r.count = none) (ha : a ≤ t) (hd : r.step ∣ t - a)
    (hu : ∀ u ∈ r.untilTime, t ≤ u) : r.Yields a t := by
  obtain ⟨k, hk⟩ := hd
  have hk0 : 0 ≤ k := nonneg_of_mul_nonneg_right (hk ▸ sub_nonneg.mpr ha) r.step_pos
  refine ⟨k.toNat, ?_, by simp [hc], hu⟩
  rw [Int.toNat_of_nonneg hk0, mul_comm, ← hk, add_sub_cancel]

/-- Its first occurrence is the start. -/
theorem nonempty_iff : r.nonempty a = true ↔ r.Yields a a := by
  have hall : (r.untilTime.all fun u => decide (a ≤ u)) = true ↔ ∀ u ∈ r.untilTime, a ≤ u := by
    cases r.untilTime <;> simp
  rw [nonempty, Bool.and_eq_true, hall, decide_eq_true_eq]
  constructor
  · rintro ⟨hc, hu⟩
    refine ⟨0, by simp, fun c hc' => Nat.pos_of_ne_zero fun h0 => hc ?_, hu⟩
    rw [Option.mem_def] at hc'
    rw [hc', h0]
  · rintro ⟨k, -, hc, hu⟩
    exact ⟨fun h0 => absurd (hc 0 h0) (Nat.not_lt_zero k), hu⟩

theorem Yields.nonempty (h : r.Yields a t) : r.nonempty a = true := by
  rw [nonempty_iff]
  have hle := h.le
  obtain ⟨k, -, hc, hu⟩ := h
  exact ⟨0, by simp, fun c hm => Nat.pos_of_ne_zero fun h0 => absurd (hc c hm) (by omega),
    fun u hm => hle.trans (hu u hm)⟩

end Rule

theorem RRuleSet.firstEvent_isLeast {x : RRuleSet} {t : ℤ} (h : x.firstEvent = some t) :
    IsLeast {t | x.Yields t} t := by
  rw [firstEvent] at h
  split_ifs at h with hany
  obtain ⟨r, hr, hne⟩ := List.any_eq_true.mp hany
  obtain rfl := Option.some.inj h
  exact ⟨⟨r, hr, Rule.nonempty_iff.mp hne⟩, fun t ⟨_, _, hy⟩ => hy.le⟩

theorem RRuleSet.firstEvent_eq_none {x : RRuleSet} (h : x.firstEvent = none) (t : ℤ) :
    ¬ x.Yields t := by
  rintro ⟨r, hr, hy⟩
  rw [firstEvent, if_pos (List.any_eq_true.mpr ⟨r, hr, hy.nonempty⟩)] at h
  cases h

/-! ### The move of the start -/

/-- The whole days between the old and the new start. -/
def shift (now : ℤ) (x : RRuleSet) : ℤ := ((now - 7 * day) / day - x.date) * day

section
variable {now : ℤ} {x : RRuleSet}

theorem rrulestr_dtstart (h : fastForwards now x = true) :
    (rrulestr now true x).dtstart = x.dtstart + shift now x := by
  rw [rrulestr, h]
  simp only [Bool.and_self, if_true, RRuleSet.dtstart, shift]
  rw [sub_mul]
  omega

theorem rrulestr_rules (now : ℤ) (fastForward : Bool) (x : RRuleSet) :
    (rrulestr now fastForward x).rules = x.rules := by
  rw [rrulestr]
  split_ifs <;> rfl

/-- Both starts are in the past. -/
theorem starts_past (h : fastForwards now x = true) :
    x.dtstart < now ∧ x.dtstart + shift now x < now := by
  rw [fastForwards] at h
  cases hf : x.firstEvent with
  | none => simp [hf] at h
  | some first =>
    rw [hf] at h
    have hage := of_decide_eq_true (Bool.and_eq_true_iff.mp h).1
    have hfirst : first = x.dtstart := by
      rw [RRuleSet.firstEvent] at hf
      split_ifs at hf
      exact (Option.some.inj hf).symm
    rw [hfirst] at hage
    have hday := day_pos
    have htime := x.time_range.2
    have hdiv := Int.ediv_mul_le (now - x.dtstart) day_pos.ne'
    have hnew := Int.ediv_mul_le (now - 7 * day) day_pos.ne'
    have hold : 8 * day ≤ (now - x.dtstart) / day * day :=
      Int.mul_le_mul_of_nonneg_right hage hday.le
    refine ⟨by omega, ?_⟩
    rw [RRuleSet.dtstart, shift, sub_mul]
    omega

end

/-! ### Covered rules -/

/-- Nothing is left of the rule after now, at the old start and at the new one. -/
def Spent (now a D : ℤ) (r : Rule) : Prop :=
  ∀ t, r.Yields a t ∨ r.Yields (a + D) t → t ≤ now

/-- Some rule without COUNT, whose step divides the shift, has every occurrence of the rule. -/
def Covered (rules : List Rule) (a D : ℤ) (r : Rule) : Prop :=
  ∃ r' ∈ rules, r'.count = none ∧ r'.step ∣ r.step ∧ r'.step ∣ D ∧
    ∀ u ∈ r'.untilTime, ∀ t, r.Yields a t ∨ r.Yields (a + D) t → t ≤ u

section
variable {rules : List Rule} {a D t : ℤ} {r : Rule}

theorem Covered.yields (h : Covered rules a D r) (ha : a ≤ t) (hD : a + D ≤ t)
    (hy : r.Yields a t ∨ r.Yields (a + D) t) :
    ∃ r' ∈ rules, r'.Yields a t ∧ r'.Yields (a + D) t := by
  obtain ⟨r', hr', hc, hstep, hshift, hu⟩ := h
  have hold : r'.step ∣ t - a := by
    rcases hy with hy | hy
    · exact hstep.trans hy.dvd
    · have hsum := dvd_add (hstep.trans hy.dvd) hshift
      rwa [show t - (a + D) + D = t - a by omega] at hsum
  have hnew : r'.step ∣ t - (a + D) := by
    rw [← sub_sub]
    exact dvd_sub hold hshift
  exact ⟨r', hr', Rule.yields_of_dvd hc ha hold fun u hm => hu u hm t hy,
    Rule.yields_of_dvd hc hD hnew fun u hm => hu u hm t hy⟩

/-- The rule has no end. -/
def Rule.unending (r : Rule) : Bool := r.count.isNone && r.untilTime.isNone

theorem Rule.unending_iff : r.unending = true ↔ r.count = none ∧ r.untilTime = none := by
  rw [unending, Bool.and_eq_true, Option.isNone_iff_eq_none, Option.isNone_iff_eq_none]

theorem Rule.unending_yields (h : r.unending = true) (ha : a ≤ t) :
    r.Yields a t ↔ r.step ∣ t - a := by
  obtain ⟨hc, hu⟩ := unending_iff.mp h
  exact ⟨Yields.dvd, fun hd => yields_of_dvd hc ha hd (by simp [hu])⟩

theorem Rule.bounded (h : r.unending = false) (a : ℤ) : ∃ b, ∀ t, r.Yields a t → t ≤ b := by
  cases hu : r.untilTime with
  | some u => exact ⟨u, fun t hy => hy.le_until hu⟩
  | none =>
    cases hc : r.count with
    | none => simp [unending, hu, hc] at h
    | some c =>
      refine ⟨a + c * r.step, ?_⟩
      rintro t ⟨k, rfl, hk, -⟩
      have hle : (k : ℤ) ≤ c := Int.ofNat_le.mpr (hk c hc).le
      have hmul := Int.mul_le_mul_of_nonneg_right hle r.step_pos.le
      omega

/-- From some time on, only the rules without end yield occurrences. -/
theorem eventually_unending (rules : List Rule) (a : ℤ) : ∃ b, ∀ t, b < t →
    ((∃ r ∈ rules, r.Yields a t) ↔ Hits ((rules.filter Rule.unending).map Rule.step) (t - a)) := by
  have hends : ∃ b, a ≤ b ∧ ∀ r ∈ rules, r.unending = false → ∀ t, r.Yields a t → t ≤ b := by
    induction rules with
    | nil => exact ⟨a, le_refl a, fun r hr => absurd hr List.not_mem_nil⟩
    | cons r rules ih =>
      obtain ⟨b, hab, hb⟩ := ih
      cases hr : r.unending with
      | true =>
        refine ⟨b, hab, fun r' hr' hun => ?_⟩
        rcases List.mem_cons.mp hr' with rfl | hr'
        · rw [hr] at hun
          cases hun
        · exact hb r' hr' hun
      | false =>
        obtain ⟨b', hb'⟩ := r.bounded hr a
        refine ⟨max b b', hab.trans (le_max_left _ _), fun r' hr' hun t hy => ?_⟩
        rcases List.mem_cons.mp hr' with rfl | hr'
        · exact (hb' t hy).trans (le_max_right _ _)
        · exact (hb r' hr' hun t hy).trans (le_max_left _ _)
  obtain ⟨b, hab, hb⟩ := hends
  refine ⟨b, fun t ht => ⟨?_, ?_⟩⟩
  · rintro ⟨r, hr, hy⟩
    have hun : r.unending = true := by
      by_contra hun
      have hle := hb r hr (by simpa using hun) t hy
      omega
    exact ⟨r.step, List.mem_map_of_mem (List.mem_filter.mpr ⟨hr, hun⟩), hy.dvd⟩
  · rintro ⟨i, hi, hd⟩
    obtain ⟨r, hr, rfl⟩ := List.mem_map.mp hi
    obtain ⟨hr, hun⟩ := List.mem_filter.mp hr
    exact ⟨r, hr, (Rule.unending_yields hun (by omega)).mpr hd⟩

/-- If the occurrences after now agree, every rule without end is covered. -/
theorem covered_of_same {now : ℤ} (h : ∀ t, now < t →
      ((∃ r ∈ rules, r.Yields (a + D) t) ↔ ∃ r ∈ rules, r.Yields a t))
    (hr : r ∈ rules) (hun : r.unending = true) : Covered rules a D r := by
  obtain ⟨b₁, h₁⟩ := eventually_unending rules a
  obtain ⟨b₂, h₂⟩ := eventually_unending rules (a + D)
  have hpos : ∀ i ∈ (rules.filter Rule.unending).map Rule.step, 0 < i := fun i hi => by
    obtain ⟨r, -, rfl⟩ := List.mem_map.mp hi
    exact r.step_pos
  have hshift : ∀ y, max now (max b₁ b₂) - a < y →
      (Hits ((rules.filter Rule.unending).map Rule.step) y ↔
        Hits ((rules.filter Rule.unending).map Rule.step) (y - D)) := fun y hy => by
    have hold := h₁ (y + a) (by omega)
    have hnew := h₂ (y + a) (by omega)
    rw [add_sub_cancel_right] at hold
    rw [show y + a - (a + D) = y - D by omega] at hnew
    rw [← hold, ← hnew]
    exact (h _ (by omega)).symm
  obtain ⟨i, hi, hstep, hD⟩ :=
    exists_dvd_of_shift hpos hshift (List.mem_map_of_mem (List.mem_filter.mpr ⟨hr, hun⟩))
  obtain ⟨r', hr', rfl⟩ := List.mem_map.mp hi
  obtain ⟨hr', hun'⟩ := List.mem_filter.mp hr'
  obtain ⟨hc, hu⟩ := Rule.unending_iff.mp hun'
  exact ⟨r', hr', hc, hstep, hD, by simp [hu]⟩

/-- A rule alone whose occurrences after now agree is over, or covers itself. -/
theorem alone_of_same {now : ℤ} (hc : r.count = none)
    (h : ∀ t, now < t → (r.Yields (a + D) t ↔ r.Yields a t)) :
    Spent now a D r ∨ Covered [r] a D r := by
  by_cases hs : Spent now a D r
  · exact .inl hs
  · rw [Spent] at hs
    push Not at hs
    obtain ⟨t, hy, ht⟩ := hs
    have hboth : r.Yields a t ∧ r.Yields (a + D) t :=
      hy.elim (fun hy => ⟨hy, (h t ht).mpr hy⟩) fun hy => ⟨(h t ht).mp hy, hy⟩
    have hdvd : r.step ∣ D := by
      have hsub := dvd_sub hboth.1.dvd hboth.2.dvd
      rwa [show t - a - (t - (a + D)) = D by omega] at hsub
    exact .inr ⟨r, List.mem_singleton_self r, hc, dvd_refl _, hdvd,
      fun u hu t hy => hy.elim (fun hy => hy.le_until hu) fun hy => hy.le_until hu⟩

end

/-! ### Fast-forwarding -/

/-- The occurrences strictly after now do not depend on fast-forwarding. -/
def SameAfter (now : ℤ) (x : RRuleSet) : Prop :=
  ∀ t, now < t → ((rrulestr now true x).Yields t ↔ (rrulestr now false x).Yields t)

/-- The set is not moved, or each of its rules is over or covered. -/
def Sound (now : ℤ) (x : RRuleSet) : Prop :=
  fastForwards now x = false ∨ ∀ r ∈ x.rules,
    Spent now x.dtstart (shift now x) r ∨ Covered x.rules x.dtstart (shift now x) r

/-- The set has one rule, or its rules with an end are over or covered. -/
def Plain (now : ℤ) (x : RRuleSet) : Prop :=
  (∃ r, x.rules = [r]) ∨ ∀ r ∈ x.rules, r.unending = false →
    Spent now x.dtstart (shift now x) r ∨ Covered x.rules x.dtstart (shift now x) r

section
variable {now : ℤ} {x : RRuleSet}

theorem sameAfter_of_not_moved (h : fastForwards now x = false) : SameAfter now x := by
  intro t _
  simp [rrulestr, h]

theorem sameAfter_iff (h : fastForwards now x = true) : SameAfter now x ↔ ∀ t, now < t →
    ((∃ r ∈ x.rules, r.Yields (x.dtstart + shift now x) t) ↔
      ∃ r ∈ x.rules, r.Yields x.dtstart t) := by
  simp only [SameAfter, RRuleSet.Yields, rrulestr_rules, rrulestr_dtstart h]
  rfl

theorem sameAfter_of_sound (h : Sound now x) : SameAfter now x := by
  by_cases hf : fastForwards now x = true
  · obtain ⟨hold, hnew⟩ := starts_past hf
    have hcov := h.resolve_left (by simp [hf])
    have hboth : ∀ t, now < t → ∀ r ∈ x.rules,
        r.Yields x.dtstart t ∨ r.Yields (x.dtstart + shift now x) t →
        ∃ r' ∈ x.rules, r'.Yields x.dtstart t ∧ r'.Yields (x.dtstart + shift now x) t := by
      intro t ht r hr hy
      rcases hcov r hr with hs | hc
      · have hle := hs t hy
        omega
      · exact hc.yields (by omega) (by omega) hy
    rw [sameAfter_iff hf]
    intro t ht
    constructor <;> rintro ⟨r, hr, hy⟩
    · obtain ⟨r', hr', hy', -⟩ := hboth t ht r hr (.inr hy)
      exact ⟨r', hr', hy'⟩
    · obtain ⟨r', hr', -, hy'⟩ := hboth t ht r hr (.inl hy)
      exact ⟨r', hr', hy'⟩
  · exact sameAfter_of_not_moved (by simpa using hf)

/-- The only rule of a set that is moved has no COUNT. -/
theorem alone_count {r : Rule} (hr : x.rules = [r]) (h : fastForwards now x = true) :
    r.count = none := by
  rw [fastForwards] at h
  cases hf : x.firstEvent with
  | none => simp [hf] at h
  | some first =>
    simp only [hf, hr, List.any_cons, List.any_nil, Bool.or_false, Bool.and_eq_true,
      Rule.fastForwarded] at h
    obtain ⟨r', hr', k, -, hc, -⟩ := (RRuleSet.firstEvent_isLeast hf).1
    rw [hr, List.mem_singleton] at hr'
    subst hr'
    cases hcount : r'.count with
    | none => rfl
    | some c =>
      have hzero : c = 0 := by simpa [hcount] using h.2.2
      exact absurd (hc c hcount) (by omega)

theorem sound_of_sameAfter (hp : Plain now x) (h : SameAfter now x) : Sound now x := by
  by_cases hf : fastForwards now x = true
  · rw [sameAfter_iff hf] at h
    refine .inr fun r hr => ?_
    rcases hp with ⟨r', hr'⟩ | hp
    · rw [hr'] at h hr ⊢
      rw [List.mem_singleton] at hr
      subst hr
      apply alone_of_same (alone_count hr' hf)
      simpa using h
    · cases hun : r.unending with
      | true => exact .inr (covered_of_same h hr hun)
      | false => exact hp r hr hun
  · exact .inl (by simpa using hf)

/-- Fast-forwarding keeps the occurrences after now if each rule of a moved set is over or
covered; for one rule, and when the rules with an end are over or covered, only then. -/
theorem fastForward_sameAfter (now : ℤ) (x : RRuleSet) :
    (Sound now x → SameAfter now x) ∧ (Plain now x → (SameAfter now x ↔ Sound now x)) :=
  ⟨sameAfter_of_sound, fun hp => ⟨sound_of_sameAfter hp, sameAfter_of_sound⟩⟩

end

/-! One hourly rule from the epoch, a hundred days later. -/

def hourlyFromEpoch (interval : ℕ) (h : 0 < interval) : RRuleSet :=
  ⟨0, 0, by decide, [⟨.hourly, interval, h, none, none⟩]⟩

/-- Every five hours: the hours of the new grid are not those of the old one. -/
theorem fiveHours_moved : ¬ ∀ now x, SameAfter now x := by
  intro h
  have hmoved : fastForwards (100 * day) (hourlyFromEpoch 5 (by decide)) = true := by decide
  have hsame := (sameAfter_iff hmoved).mp (h _ _) (2405 * (3600 * second)) (by decide)
  have hold : ∃ r ∈ (hourlyFromEpoch 5 (by decide)).rules, r.Yields 0 (2405 * (3600 * second)) :=
    ⟨_, List.mem_singleton_self _, Rule.yields_of_dvd rfl (by decide) (by decide) (by simp)⟩
  obtain ⟨r, hr, hy⟩ := hsame.mpr hold
  obtain rfl := List.mem_singleton.mp hr
  exact absurd hy.dvd (by decide)

/-- Every six hours: the set is moved, and the occurrences after now stay. -/
theorem sixHours_kept : fastForwards (100 * day) (hourlyFromEpoch 6 (by decide)) = true ∧
    SameAfter (100 * day) (hourlyFromEpoch 6 (by decide)) := by
  refine ⟨by decide, ((fastForward_sameAfter _ _).2 (.inl ⟨_, rfl⟩)).mpr (.inr fun r hr => .inr ?_)⟩
  obtain rfl := List.mem_singleton.mp hr
  exact ⟨_, List.mem_singleton_self _, rfl, dvd_refl _, by decide, by simp⟩

end Forail.Schedule
