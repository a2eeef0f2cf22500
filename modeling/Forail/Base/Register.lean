import Mathlib.Data.List.Basic

/-! A variable with the values that were stored in it, and copies that processes have read
of it. A copy knows how many values had been stored; what was stored since tells the present
value, so that a test of a copy is one of the variable as long as nothing was stored. -/

namespace Forail

structure Register (α : Type*) where
  first : α
  stores : List α

namespace Register

variable {α : Type*} (r : Register α)

/-- The value read, and how many values had been stored before. -/
structure Copy (α : Type*) where
  value : α
  seen : ℕ

def value : α := r.stores.getLast?.getD r.first

def store (v : α) : Register α := { r with stores := r.stores ++ [v] }

def read : Copy α := ⟨r.value, r.stores.length⟩

/-- What was stored since the copy was read. -/
def since (c : Copy α) : List α := r.stores.drop c.seen

/-- The copy was read at some time. -/
structure Valid (c : Copy α) : Prop where
  le : c.seen ≤ r.stores.length
  eq : c.value = (r.stores.take c.seen).getLast?.getD r.first

variable {r} {c : Copy α} {v : α}

@[simp] theorem value_store : (r.store v).value = v := by
  simp [value, store]

@[simp] theorem stores_store : (r.store v).stores = r.stores ++ [v] := rfl

@[simp] theorem first_store : (r.store v).first = r.first := rfl

@[simp] theorem value_read : r.read.value = r.value := rfl

@[simp] theorem since_read : r.since r.read = [] := List.drop_length

theorem valid_read : r.Valid r.read where
  le := Nat.le_refl _
  eq := by rw [read, List.take_length, value]

theorem Valid.store (h : r.Valid c) : (r.store v).Valid c where
  le := by
    rw [stores_store, List.length_append]
    exact Nat.le_add_right_of_le h.le
  eq := by
    rw [stores_store, List.take_append_of_le_length h.le]
    exact h.eq

theorem Valid.since_store (h : r.Valid c) : (r.store v).since c = r.since c ++ [v] :=
  List.drop_append_of_le_length h.le

/-- The present value is the last one stored since, or that of the copy. -/
theorem Valid.value_eq (h : r.Valid c) : r.value = (r.since c).getLast?.getD c.value := by
  have hsplit : r.stores = r.stores.take c.seen ++ r.since c := (List.take_append_drop _ _).symm
  unfold value
  cases hs : (r.since c).getLast? with
  | none =>
    rw [List.getLast?_eq_none_iff.mp hs, List.append_nil] at hsplit
    rw [Option.getD_none, h.eq, ← hsplit]
  | some w =>
    obtain ⟨l, hl⟩ := List.getLast?_eq_some_iff.mp hs
    rw [hsplit, hl, ← List.append_assoc, List.getLast?_append_of_ne_nil _ (List.cons_ne_nil w []),
      List.getLast?_singleton]
    rfl

/-- A copy since which nothing was stored has the present value. -/
theorem Valid.eq_value (h : r.Valid c) (hs : r.since c = []) : c.value = r.value := by
  rw [h.value_eq, hs]
  rfl

/-- A value that the copy does not have was stored since. -/
theorem Valid.mem_since (h : r.Valid c) (hne : r.value ≠ c.value) : r.value ∈ r.since c := by
  have hv := h.value_eq
  cases hs : (r.since c).getLast? with
  | none =>
    rw [hs] at hv
    exact absurd hv hne
  | some w =>
    rw [hs] at hv
    rw [hv]
    exact List.mem_of_getLast? hs

/-- A copy of a value that was never stored is one of the first value. -/
theorem Valid.seen_eq_zero (h : r.Valid c) (hn : c.value ∉ r.stores) : c.seen = 0 := by
  by_contra hne
  have hlen : (r.stores.take c.seen).length = c.seen := List.length_take_of_le h.le
  cases hl : (r.stores.take c.seen).getLast? with
  | none =>
    rw [List.getLast?_eq_none_iff.mp hl] at hlen
    exact hne hlen.symm
  | some w =>
    have heq := h.eq
    rw [hl] at heq
    apply hn
    rw [heq]
    exact List.mem_of_mem_take (List.mem_of_getLast? hl)

/-- What is read of a final value stays: none that differs is stored after one. -/
def Final {β : Type*} (r : Register α) (f : α → β) (final : β → Prop) : Prop :=
  ∀ a ∈ r.first :: r.stores, final (f a) → f r.value = f a

theorem value_mem : r.value ∈ r.first :: r.stores := by
  unfold value
  cases hs : r.stores.getLast? with
  | none => exact List.mem_cons_self
  | some w => exact List.mem_cons_of_mem _ (List.mem_of_getLast? hs)

theorem Valid.value_mem_since (h : r.Valid c) : r.value ∈ c.value :: r.since c := by
  by_cases hv : r.value = c.value
  · rw [hv]
    exact List.mem_cons_self
  · exact List.mem_cons_of_mem _ (h.mem_since hv)

theorem Valid.copy_mem (h : r.Valid c) : c.value ∈ r.first :: r.stores := by
  rw [h.eq]
  cases hs : (r.stores.take c.seen).getLast? with
  | none => exact List.mem_cons_self
  | some w => exact List.mem_cons_of_mem _ (List.mem_of_mem_take (List.mem_of_getLast? hs))

/-- A store keeps what is final exactly if no other final value is in a copy or was stored since
it was read. -/
theorem Valid.final_store_iff {β : Type*} {f : α → β} {final : β → Prop} (hc : r.Valid c)
    (h : r.Final f final) :
    (r.store v).Final f final ↔ ∀ a ∈ c.value :: r.since c, final (f a) → f v = f a := by
  constructor
  · intro h' a ha hf
    rw [← value_store (r := r) (v := v)]
    refine h' a ?_ hf
    rcases List.mem_cons.mp ha with rfl | ha
    · rcases List.mem_cons.mp hc.copy_mem with heq | hmem
      · exact heq ▸ List.mem_cons_self
      · exact List.mem_cons_of_mem _ (List.mem_append_left _ hmem)
    · exact List.mem_cons_of_mem _ (List.mem_append_left _ (List.mem_of_mem_drop ha))
  · intro hsince a ha hf
    rw [value_store]
    have hold (a : α) (ha : a ∈ r.first :: r.stores) (hf : final (f a)) : f v = f a := by
      have heq := h a ha hf
      rw [← heq]
      exact hsince r.value hc.value_mem_since (heq ▸ hf)
    rcases List.mem_cons.mp ha with rfl | ha
    · exact hold _ List.mem_cons_self hf
    · rcases List.mem_append.mp ha with ha | ha
      · exact hold a (List.mem_cons_of_mem _ ha) hf
      · rw [List.mem_singleton.mp ha]

/-- A store of what is there keeps what is final. -/
theorem Final.store_same {β : Type*} {f : α → β} {final : β → Prop} (h : r.Final f final)
    (hv : f v = f r.value) : (r.store v).Final f final := by
  intro a ha hf
  rw [value_store, hv]
  rcases List.mem_cons.mp ha with rfl | ha
  · exact h _ List.mem_cons_self hf
  · rcases List.mem_append.mp ha with ha | ha
    · exact h a (List.mem_cons_of_mem _ ha) hf
    · rw [List.mem_singleton.mp ha, hv]

end Register

end Forail
