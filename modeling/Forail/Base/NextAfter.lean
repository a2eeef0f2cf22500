import Mathlib.Algebra.BigOperators.Group.List.Lemmas
import Mathlib.Algebra.Order.BigOperators.GroupWithZero.List
import Mathlib.Algebra.Order.Ring.Int
import Mathlib.Data.Int.GCD
import Mathlib.Order.Bounds.Basic
import Mathlib.Order.Interval.Set.Defs
import Mathlib.Tactic.Positivity

/-! Unions of the multiples of some positive steps. Such a union is kept by a shift, from
some point on, only if every step is a multiple of a step that divides the shift. -/

namespace Forail.Multiples

/-- Some step divides the number. -/
def Hits (S : List ℤ) (x : ℤ) : Prop := ∃ i ∈ S, i ∣ x

variable {S : List ℤ} {D : ℤ}

theorem hits_add_prod (x n : ℤ) : Hits S (x + n * S.prod) ↔ Hits S x := by
  have hdvd : ∀ i ∈ S, i ∣ n * S.prod := fun i hi => (List.dvd_prod hi).mul_left n
  constructor
  · rintro ⟨i, hi, hx⟩
    exact ⟨i, hi, (dvd_add_left (hdvd i hi)).mp hx⟩
  · rintro ⟨i, hi, hx⟩
    exact ⟨i, hi, dvd_add hx (hdvd i hi)⟩

/-- A shift that keeps the union from some point on keeps all of it. -/
theorem hits_sub_of_eventually (hpos : ∀ i ∈ S, 0 < i) {b : ℤ}
    (h : ∀ x, b < x → (Hits S x ↔ Hits S (x - D))) (x : ℤ) : Hits S x ↔ Hits S (x - D) := by
  have hprod : 1 ≤ S.prod := List.prod_pos hpos
  have hbig : b < x + (|b - x| + 1) * S.prod := by
    have hle := le_abs_self (b - x)
    have hmul : (|b - x| + 1) * 1 ≤ (|b - x| + 1) * S.prod :=
      Int.mul_le_mul_of_nonneg_left hprod (by positivity)
    rw [mul_one] at hmul
    omega
  have hx := h _ hbig
  rwa [add_sub_right_comm, hits_add_prod, hits_add_prod] at hx

theorem hits_add_mul (h : ∀ x, Hits S x ↔ Hits S (x - D)) (x n : ℤ) :
    Hits S (x + n * D) ↔ Hits S x := by
  induction n using Int.induction_on with
  | zero => rw [zero_mul, add_zero]
  | succ n ih => rw [h, ← ih, add_mul, one_mul, ← add_assoc, add_sub_cancel_right]
  | pred n ih => rw [← ih, h (x + -↑n * D), sub_mul, one_mul, add_sub_assoc]

/-- The step found divides both the given step and the shift. -/
theorem exists_dvd_of_shift (hpos : ∀ i ∈ S, 0 < i) {b : ℤ}
    (h : ∀ x, b < x → (Hits S x ↔ Hits S (x - D))) {s : ℤ} (hs : s ∈ S) :
    ∃ i ∈ S, i ∣ s ∧ i ∣ D := by
  have hgcd : Hits S (Int.gcd s D) := by
    rw [Int.gcd_eq_gcd_ab, mul_comm D, hits_add_mul (hits_sub_of_eventually hpos h)]
    exact ⟨s, hs, dvd_mul_right s _⟩
  obtain ⟨i, hi, hd⟩ := hgcd
  exact ⟨i, hi, hd.trans (Int.gcd_dvd_left s D), hd.trans (Int.gcd_dvd_right s D)⟩

end Forail.Multiples

/-! The next element of a set after a point of a linear order, if there is one. -/

namespace Forail

variable {α : Type*} [LinearOrder α]

def NextAfter (S : Set α) (t : α) : Option α → Prop
  | some o => IsLeast (S ∩ Set.Ioi t) o
  | none => ∀ o ∈ S, o ≤ t

namespace NextAfter

variable {S : Set α} {t u n : α} {x : Option α}

/-- It decides whether an element lies between. -/
theorem exists_le_iff (h : NextAfter S t x) : (∃ o ∈ S, t < o ∧ o ≤ n) ↔ ∃ o ∈ x, o ≤ n := by
  cases x with
  | none => exact ⟨fun ⟨o, ho, hlt, _⟩ => absurd hlt (not_lt.mpr (h o ho)), by nofun⟩
  | some o =>
    refine ⟨fun ⟨o', ho', hlt, hle⟩ => ⟨o, rfl, (h.2 ⟨ho', hlt⟩).trans hle⟩, fun ⟨o', ho', hle⟩ => ?_⟩
    obtain rfl := Option.some.inj ho'
    exact ⟨o, h.1.1, h.1.2, hle⟩

theorem lt (h : NextAfter S t x) {o : α} (ho : o ∈ x) : t < o := by
  rw [Option.mem_def.mp ho] at h
  exact h.1.2

/-- Nothing lies between the two points. -/
theorem of_le (h : NextAfter S u x) (htu : t ≤ u) (hgap : ∀ o ∈ S, t < o → u < o) :
    NextAfter S t x := by
  cases x with
  | none =>
    intro o ho
    refine not_lt.mp fun hlt => ?_
    exact absurd (hgap o ho hlt) (not_lt.mpr (h o ho))
  | some o => exact ⟨⟨h.1.1, htu.trans_lt h.1.2⟩, fun o' ho' => h.2 ⟨ho'.1, hgap o' ho'.1 ho'.2⟩⟩

/-- The next element is past the later point too. -/
theorem advance (h : NextAfter S t x) (htu : t ≤ u) (hlt : ∀ o ∈ x, u < o) : NextAfter S u x := by
  cases x with
  | none => exact fun o ho => (h o ho).trans htu
  | some o => exact ⟨⟨h.1.1, hlt o rfl⟩, fun o' ho' => h.2 ⟨ho'.1, htu.trans_lt ho'.2⟩⟩

end NextAfter

end Forail
