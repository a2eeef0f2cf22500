import Mathlib.Algebra.Order.Field.Basic
import Mathlib.Data.Nat.Cast.Order.Ring
import Mathlib.Tactic.Linarith
import Mathlib.Tactic.Positivity

/-! Token buckets over an ordered field. A bucket is refilled at a rate for the time that
went by since its last use, up to a cap, and each use takes one token if there is one. The
tokens taken are bounded by the cap and the credit of the readings, and uses that are
repeated often enough at each reading reach this bound but for one token a reading. The
clock may go back; the time that it goes forward is credited each time. -/

namespace Forail.TokenBucket

variable {K : Type*} [Field K] [LinearOrder K]

structure Bucket (K : Type*) where
  level : K
  time : K

section Definitions
variable (cap rate : K)

def Bucket.refill (b : Bucket K) (t : K) : K := min cap (b.level + max 0 (t - b.time) * rate)

def Bucket.taken (b : Bucket K) (t : K) : Bool := 1 ≤ b.refill cap rate t

def Bucket.take (b : Bucket K) (t : K) : Bucket K :=
  if b.taken cap rate t then ⟨b.refill cap rate t - 1, t⟩ else ⟨b.refill cap rate t, t⟩

/-- How often a token is taken. -/
def Bucket.count (b : Bucket K) : List K → ℕ
  | [] => 0
  | t :: ts => (if b.taken cap rate t then 1 else 0) + (b.take cap rate t).count ts

def Bucket.after (b : Bucket K) (ts : List K) : Bucket K := ts.foldl (Bucket.take cap rate) b

/-- What the bucket may gain between two readings of the clock. -/
def gain (t t' : K) : K := min cap (max 0 (t' - t) * rate)

/-- What it may gain along some readings. -/
def credit (t : K) : List K → K
  | [] => 0
  | t' :: ts => gain cap rate t t' + credit t' ts

/-- The level is in range. -/
structure Bucket.Bounded (cap : K) (b : Bucket K) : Prop where
  nonneg : 0 ≤ b.level
  le : b.level ≤ cap

end Definitions

/-- A use takes its token from the refilled bucket. -/
theorem Bucket.level_take (cap rate : K) (b : Bucket K) (t : K) :
    (b.take cap rate t).level + (if b.taken cap rate t then 1 else 0) = b.refill cap rate t := by
  unfold take
  split_ifs <;> simp

theorem Bucket.time_take (cap rate : K) (b : Bucket K) (t : K) : (b.take cap rate t).time = t := by
  unfold take
  split_ifs <;> rfl

/-- Without time gone by, a bucket in range is as it was. -/
theorem Bucket.refill_same {cap l : K} (rate t : K) (h : l ≤ cap) : (⟨l, t⟩ : Bucket K).refill cap rate t = l := by
  simp [refill, h]

theorem Bucket.count_append (cap rate : K) (b : Bucket K) (l₁ l₂ : List K) :
    b.count cap rate (l₁ ++ l₂) = b.count cap rate l₁ + (b.after cap rate l₁).count cap rate l₂ := by
  induction l₁ generalizing b with
  | nil => simp [count, after]
  | cons t l₁ ih =>
    rw [List.cons_append, count, count, ih, after, after, List.foldl_cons, Nat.add_assoc]

section Bounds
variable [IsStrictOrderedRing K] {cap rate : K} {b : Bucket K} {t : K} {ts : List K}

theorem Bucket.Bounded.refill (h : b.Bounded cap) (hr : 0 ≤ rate) (t : K) :
    0 ≤ b.refill cap rate t ∧ b.refill cap rate t ≤ cap := by
  have hx : 0 ≤ max 0 (t - b.time) * rate := mul_nonneg (le_max_left _ _) hr
  exact ⟨le_min (h.nonneg.trans h.le) (add_nonneg h.nonneg hx), min_le_left _ _⟩

theorem Bucket.Bounded.take (h : b.Bounded cap) (hr : 0 ≤ rate) (t : K) :
    (b.take cap rate t).Bounded cap := by
  obtain ⟨h₀, h₁⟩ := h.refill hr t
  unfold Bucket.take Bucket.taken
  split_ifs with ht
  · have := of_decide_eq_true ht
    exact ⟨by dsimp only; linarith, by dsimp only; linarith⟩
  · exact ⟨h₀, h₁⟩

theorem Bucket.Bounded.after (h : b.Bounded cap) (hr : 0 ≤ rate) (ts : List K) :
    (b.after cap rate ts).Bounded cap := by
  induction ts generalizing b with
  | nil => exact h
  | cons t ts ih => exact ih (h.take hr t)

theorem Bucket.Bounded.refill_le (h : b.Bounded cap) :
    b.refill cap rate t ≤ b.level + gain cap rate b.time t := by
  unfold Bucket.refill gain
  rw [← min_add_add_left]
  exact min_le_min_right _ (le_add_of_nonneg_left h.nonneg)

theorem Bucket.Bounded.gain_le (h : b.Bounded cap) :
    gain cap rate b.time t ≤ b.refill cap rate t :=
  min_le_min_left _ (le_add_of_nonneg_left h.nonneg)

/-- The tokens taken and those left come from the first level and the credit. -/
theorem Bucket.Bounded.count_add_level_le (h : b.Bounded cap) (hr : 0 ≤ rate) (ts : List K) :
    (b.count cap rate ts : K) + (b.after cap rate ts).level ≤
      b.level + credit cap rate b.time ts := by
  induction ts generalizing b with
  | nil => simp [Bucket.count, Bucket.after, credit]
  | cons t ts ih =>
    have hih := ih (h.take hr t)
    have hlevel := b.level_take cap rate t
    have hrefill : b.refill cap rate t ≤ b.level + gain cap rate b.time t := h.refill_le
    rw [Bucket.time_take] at hih
    simp only [Bucket.count, credit, Bucket.after, List.foldl_cons, Nat.cast_add, Nat.cast_ite,
      Nat.cast_one, Nat.cast_zero] at hih ⊢
    linarith

/-- From any level, all tokens come from a full bucket at the first use and the credit. -/
theorem Bucket.Bounded.count_le (h : b.Bounded cap) (hr : 0 ≤ rate) (t : K) (ts : List K) :
    (b.count cap rate (t :: ts) : K) ≤ cap + credit cap rate t ts := by
  have hlevel := b.level_take cap rate t
  have hrefill := (h.refill hr t).2
  have hrest := (h.take hr t).count_add_level_le hr ts
  have hnonneg := ((h.take hr t).after hr ts).nonneg
  rw [Bucket.time_take] at hrest
  simp only [Bucket.count, Nat.cast_add, Nat.cast_ite, Nat.cast_one, Nat.cast_zero]
  linarith

/-- Enough uses at one reading take all whole tokens. -/
theorem count_replicate (rate t : K) {l : K} (h₀ : 0 ≤ l) (h : l ≤ cap) {m : ℕ} (hm : l < m) :
    l - 1 < (Bucket.count cap rate ⟨l, t⟩ (List.replicate m t) : K) := by
  induction m generalizing l with
  | zero => exact absurd h₀ (not_le.mpr (by simpa using hm))
  | succ m ih =>
    rw [Nat.cast_add_one] at hm
    rw [List.replicate_succ, Bucket.count, Bucket.take, Bucket.taken, Bucket.refill_same rate t h]
    by_cases hl : 1 ≤ l
    · have hrest := ih (l := l - 1) (by linarith) (by linarith) (by linarith)
      simp only [hl, decide_true, if_true, Nat.cast_add, Nat.cast_one]
      linarith
    · have hnonneg : (0 : K) ≤ (Bucket.count cap rate ⟨l, t⟩ (List.replicate m t) : K) :=
        Nat.cast_nonneg _
      simp only [hl, decide_false, Bool.false_eq_true, if_false, Nat.zero_add]
      linarith

/-- Each reading as many times. -/
def repeated (m : ℕ) (ts : List K) : List K := ts.flatMap (List.replicate m)

/-- The first use at a reading refills, the others do not. -/
theorem Bucket.Bounded.count_replicate_eq (h : b.Bounded cap) (hr : 0 ≤ rate) (m : ℕ) :
    b.count cap rate (List.replicate m t) =
      Bucket.count cap rate ⟨b.refill cap rate t, t⟩ (List.replicate m t) := by
  cases m with
  | zero => rfl
  | succ m =>
    have hsame := Bucket.refill_same rate t (h.refill hr t).2
    rw [List.replicate_succ, Bucket.count, Bucket.count, Bucket.take, Bucket.take, Bucket.taken,
      Bucket.taken, hsame]

/-- Uses repeated often enough get what the first one finds and the whole credit, but for
one token a reading. -/
theorem Bucket.Bounded.le_count (h : b.Bounded cap) (hr : 0 ≤ rate) {m : ℕ} (hm : cap < m) (t : K)
    (ts : List K) :
    b.refill cap rate t + credit cap rate t ts - (ts.length + 1) ≤
      (b.count cap rate (repeated m (t :: ts)) : K) := by
  have hcap : 0 ≤ cap := h.nonneg.trans h.le
  obtain ⟨n, rfl⟩ : ∃ n, m = n + 1 :=
    Nat.exists_eq_succ_of_ne_zero fun h0 => absurd hcap (not_le.mpr (by simpa [h0] using hm))
  induction ts generalizing b t with
  | nil =>
    have hdrain := count_replicate rate t (h.refill hr t).1 (h.refill hr t).2
      ((h.refill hr t).2.trans_lt hm)
    rw [← h.count_replicate_eq hr] at hdrain
    simpa [repeated, credit] using hdrain.le
  | cons t' ts ih =>
    have hdrain := count_replicate rate t (h.refill hr t).1 (h.refill hr t).2
      ((h.refill hr t).2.trans_lt hm)
    rw [← h.count_replicate_eq hr] at hdrain
    have hafter := h.after hr (List.replicate (n + 1) t)
    have hrest := ih hafter t'
    have hgain : gain cap rate (b.after cap rate (List.replicate (n + 1) t)).time t' ≤ _ :=
      hafter.gain_le
    rw [show (b.after cap rate (List.replicate (n + 1) t)).time = t by
      rw [List.replicate_succ', Bucket.after, List.foldl_append]
      exact Bucket.time_take cap rate _ t] at hgain
    have hcount : b.count cap rate (repeated (n + 1) (t :: t' :: ts)) = _ :=
      b.count_append cap rate (List.replicate (n + 1) t) (repeated (n + 1) (t' :: ts))
    rw [hcount, credit, List.length_cons, Nat.cast_add, Nat.cast_add, Nat.cast_one]
    linarith

end Bounds

section Credit
variable [IsStrictOrderedRing K] {cap rate : K}

omit [IsStrictOrderedRing K] in
theorem gain_self (h : 0 ≤ cap) (t : K) : gain cap rate t t = 0 := by simp [gain, h]

theorem credit_nonneg (h : 0 ≤ cap) (hr : 0 ≤ rate) (t : K) (ts : List K) :
    0 ≤ credit cap rate t ts := by
  induction ts generalizing t with
  | nil => exact le_rfl
  | cons t' ts ih =>
    exact add_nonneg (le_min h (mul_nonneg (le_max_left _ _) hr)) (ih t')

/-- The rate scales the credit of a cap that is scaled alike. -/
theorem credit_mul (hr : 0 ≤ rate) (t : K) (ts : List K) :
    credit (cap * rate) rate t ts = credit cap 1 t ts * rate := by
  induction ts generalizing t with
  | nil => simp [credit]
  | cons t' ts ih =>
    rw [credit, credit, ih, add_mul, gain, gain, mul_one, min_mul_of_nonneg _ _ hr]

omit [IsStrictOrderedRing K] in
theorem credit_replicate (h : 0 ≤ cap) (m : ℕ) (t : K) (ts : List K) :
    credit cap rate t (List.replicate m t ++ ts) = credit cap rate t ts := by
  induction m with
  | zero => rfl
  | succ m ih => rw [List.replicate_succ, List.cons_append, credit, gain_self h, zero_add, ih]

omit [IsStrictOrderedRing K] in
/-- Repeated uses at a reading gain nothing. -/
theorem credit_repeated (h : 0 ≤ cap) (m : ℕ) (t : K) (ts : List K) :
    credit cap rate t (repeated (m + 1) ts) = credit cap rate t ts := by
  induction ts generalizing t with
  | nil => rfl
  | cons t' ts ih =>
    have hcons : repeated (m + 1) (t' :: ts) =
        t' :: (List.replicate m t' ++ repeated (m + 1) ts) := rfl
    rw [hcons, credit, credit, credit_replicate h, ih]

/-- A clock that does not go back is credited at most the time between its first and its
last reading. -/
theorem credit_le_of_sorted {t : K} {ts : List K} (h : (t :: ts).Pairwise (· ≤ ·)) :
    credit cap 1 t ts ≤ ts.getLastD t - t := by
  induction ts generalizing t with
  | nil => simp [credit]
  | cons t' ts ih =>
    obtain ⟨ht, h⟩ := List.pairwise_cons.mp h
    have hle := ht t' List.mem_cons_self
    have hgain : gain cap 1 t t' ≤ t' - t := by
      unfold gain
      rw [mul_one, max_eq_right (sub_nonneg.mpr hle)]
      exact min_le_right _ _
    have hrest := ih h
    rw [credit, List.getLastD_cons]
    linarith

end Credit

end Forail.TokenBucket
