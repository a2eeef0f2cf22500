import Mathlib.Data.List.Basic
import Mathlib.Data.Nat.ModEq
import Mathlib.Order.Defs.LinearOrder

/-! Cutting a list by stride: the members at an offset and at every step after it. The
slices for all offsets below the step are disjoint, cover the list and differ in length by
at most one. In sorted lists the slice of a member depends on how many smaller ones there
are, so slices of two lists agree where these numbers are congruent. -/

namespace Forail.Stride

variable {α : Type*}

/-- Skip some members, take the next one, and again skip all but one of the step. -/
def stride (step : ℕ) : ℕ → List α → List α
  | _, [] => []
  | 0, x :: l => x :: stride step (step - 1) l
  | skip + 1, _ :: l => stride step skip l

theorem map_stride {β : Type*} (f : α → β) (step offset : ℕ) (l : List α) :
    (stride step offset l).map f = stride step offset (l.map f) := by
  induction l generalizing offset with
  | nil => simp [stride]
  | cons a l ih => cases offset <;> simp [stride, ih]

theorem stride_sublist (step offset : ℕ) (l : List α) : (stride step offset l).Sublist l := by
  induction l generalizing offset with
  | nil => simp [stride]
  | cons a l ih =>
    cases offset with
    | zero => exact (ih (step - 1)).cons_cons a
    | succ skip => exact (ih skip).cons a

section Slices
variable {step : ℕ} {l : List α} {x : α}

theorem mem_stride (hs : 0 < step) {offset : ℕ} :
    x ∈ stride step offset l ↔ ∃ q, l[offset + q * step]? = some x := by
  induction l generalizing offset with
  | nil => simp [stride]
  | cons a l ih =>
    cases offset with
    | zero =>
      rw [stride, List.mem_cons, ih]
      constructor
      · rintro (rfl | ⟨q, hq⟩)
        · exact ⟨0, by simp⟩
        · refine ⟨q + 1, ?_⟩
          rw [show 0 + (q + 1) * step = (step - 1 + q * step) + 1 by rw [Nat.succ_mul]; omega]
          exact hq
      · rintro ⟨q, hq⟩
        cases q with
        | zero => exact .inl (by simpa [@eq_comm α] using hq)
        | succ q =>
          rw [show 0 + (q + 1) * step = (step - 1 + q * step) + 1 by rw [Nat.succ_mul]; omega] at hq
          exact .inr ⟨q, hq⟩
    | succ skip =>
      rw [stride, ih]
      simp only [Nat.add_right_comm skip 1, List.getElem?_cons_succ]

theorem length_stride {offset : ℕ} (ho : offset < step) :
    (stride step offset l).length = (l.length + (step - 1 - offset)) / step := by
  induction l generalizing offset with
  | nil => simpa [stride] using (Nat.div_eq_of_lt (by omega)).symm
  | cons a l ih =>
    cases offset with
    | zero =>
      rw [stride, List.length_cons, ih (by omega), List.length_cons,
        show l.length + 1 + (step - 1 - 0) = l.length + step by omega,
        Nat.add_div_right _ (by omega), Nat.sub_self]
      rfl
    | succ skip =>
      rw [stride, ih (by omega), List.length_cons]
      congr 1
      omega

/-- The slices differ in length by at most one. -/
theorem length_stride_le {offset offset' : ℕ} (ho : offset < step) (ho' : offset' < step) :
    (stride step offset l).length ≤ (stride step offset' l).length + 1 := by
  rw [length_stride ho, length_stride ho', ← Nat.add_div_right _ (by omega)]
  exact Nat.div_le_div_right (by omega)

theorem exists_mem_stride (hs : 0 < step) (hx : x ∈ l) :
    ∃ offset < step, x ∈ stride step offset l := by
  obtain ⟨i, hi⟩ := List.mem_iff_getElem?.mp hx
  refine ⟨i % step, Nat.mod_lt i hs, (mem_stride hs).mpr ⟨i / step, ?_⟩⟩
  rw [Nat.mul_comm, Nat.mod_add_div]
  exact hi

/-- A list without repetitions is cut into disjoint slices. -/
theorem eq_of_mem_stride (hs : 0 < step) (hn : l.Nodup) {offset offset' : ℕ} (ho : offset < step)
    (ho' : offset' < step) (hx : x ∈ stride step offset l) (hx' : x ∈ stride step offset' l) :
    offset = offset' := by
  obtain ⟨q, hq⟩ := (mem_stride hs).mp hx
  obtain ⟨q', hq'⟩ := (mem_stride hs).mp hx'
  have hlt := (List.getElem?_eq_some_iff.mp hq).1
  have he := (List.getElem?_inj hlt hn).mp (hq.trans hq'.symm)
  rw [← Nat.mod_eq_of_lt ho, ← Nat.mod_eq_of_lt ho', ← Nat.add_mul_mod_self_right offset q step,
    ← Nat.add_mul_mod_self_right offset' q' step, he]

end Slices

section Sorted
variable [LinearOrder α] {step : ℕ} {l : List α} {x : α}

/-- In a sorted list a member stands right after the smaller ones. -/
theorem getElem?_eq_some_iff_of_sorted (h : l.Pairwise (· ≤ ·)) {i : ℕ} :
    l[i]? = some x ↔ l.countP (· < x) ≤ i ∧ i < l.countP (· < x) + l.count x := by
  induction l generalizing i with
  | nil => simp
  | cons a l ih =>
    obtain ⟨ha, h⟩ := List.pairwise_cons.mp h
    rw [List.countP_cons, List.count_cons]
    rcases lt_trichotomy a x with hax | rfl | hax
    · have hne : (a == x) = false := by simpa using hax.ne
      simp only [hax, decide_true, if_true, hne, Bool.false_eq_true, if_false]
      cases i with
      | zero => simpa using hax.ne
      | succ i =>
        rw [List.getElem?_cons_succ, ih h]
        omega
    · have hz : l.countP (· < a) = 0 :=
        List.countP_eq_zero.mpr fun b hb => by simpa using ha b hb
      simp only [hz, lt_irrefl, decide_false, Bool.false_eq_true, if_false, beq_self_eq_true, if_true]
      cases i with
      | zero => simp
      | succ i =>
        rw [List.getElem?_cons_succ, ih h, hz]
        omega
    · have hz : l.count x = 0 := List.count_eq_zero.mpr fun hm => not_le.mpr hax (ha x hm)
      have hne : (a == x) = false := by simpa using hax.ne'
      simp only [hz, hne, Bool.false_eq_true, if_false, Nat.add_zero]
      constructor
      · intro hi
        have hm := List.mem_of_getElem? hi
        rcases List.mem_cons.mp hm with rfl | hm
        · exact absurd hax (lt_irrefl _)
        · exact absurd hax (not_lt.mpr (ha x hm))
      · intro hi
        omega

theorem mem_stride_of_sorted (h : l.Pairwise (· ≤ ·)) {offset : ℕ} (ho : offset < step) :
    x ∈ stride step offset l ↔ ∃ e < l.count x, (l.countP (· < x) + e) % step = offset := by
  rw [mem_stride (by omega)]
  simp only [getElem?_eq_some_iff_of_sorted h]
  constructor
  · rintro ⟨q, hle, hlt⟩
    refine ⟨offset + q * step - l.countP (· < x), by omega, ?_⟩
    rw [show l.countP (· < x) + (offset + q * step - l.countP (· < x)) = offset + q * step by omega,
      Nat.add_mul_mod_self_right, Nat.mod_eq_of_lt ho]
  · rintro ⟨e, he, rfl⟩
    refine ⟨(l.countP (· < x) + e) / step, ?_⟩
    rw [Nat.mul_comm, Nat.mod_add_div]
    omega

/-- Every slice of a strictly sorted list is contained in the slice of another sorted list
exactly if the numbers of smaller members are congruent, for each member. -/
theorem stride_subset_iff {r f : List α} (hs : 0 < step) (hr : r.Pairwise (· < ·))
    (hf : f.Pairwise (· ≤ ·)) :
    (∀ offset < step, ∀ x ∈ stride step offset r, x ∈ stride step offset f) ↔
      ∀ x ∈ r, ∃ e < f.count x, f.countP (· < x) + e ≡ r.countP (· < x) [MOD step] := by
  have hr' : r.Pairwise (· ≤ ·) := hr.imp le_of_lt
  have hn : r.Nodup := hr.imp ne_of_lt
  have hmem {offset : ℕ} (ho : offset < step) {x : α} (hx : x ∈ r) :
      x ∈ stride step offset r ↔ r.countP (· < x) % step = offset := by
    rw [mem_stride_of_sorted hr' ho, List.Nodup.count hn, if_pos hx]
    exact ⟨fun ⟨e, he, h⟩ => by rwa [Nat.lt_one_iff.mp he] at h, fun h => ⟨0, Nat.one_pos, h⟩⟩
  constructor
  · intro h x hx
    have ho := Nat.mod_lt (r.countP (· < x)) hs
    exact (mem_stride_of_sorted hf ho).mp (h _ ho x ((hmem ho hx).mpr rfl))
  · intro h offset ho x hx
    have hxr := (stride_sublist _ _ _).mem hx
    obtain ⟨e, he, hmod⟩ := h x hxr
    exact (mem_stride_of_sorted hf ho).mpr ⟨e, he,
      Eq.trans hmod ((hmem ho hxr).mp hx)⟩

end Sorted

end Forail.Stride
