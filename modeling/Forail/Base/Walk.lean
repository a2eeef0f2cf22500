import Mathlib.Data.Finset.Card
import Mathlib.Logic.Relation
import Mathlib.Tactic.SplitIfs

/-! A walk that drains the set of what is left to check: each pass iterates a snapshot of the set in some
order, while what is visited leaves the set and what is new enters it. The walk ends when it has visited
exactly what can be reached, and has then collected what each visited one has. -/

namespace Forail.Walk

open Relation

/-- The order in which a set is iterated, which is not specified. -/
structure SetOrder (κ : Type*) where
  list : Finset κ → List κ
  nodup : ∀ s, (list s).Nodup
  mem_list : ∀ s x, x ∈ list s ↔ x ∈ s

structure State (κ μ : Type*) where
  toCheck : Finset κ
  checked : Finset κ
  found : Finset μ

variable {κ μ : Type*} [DecidableEq κ] [DecidableEq μ]

/-- One visit, none where `remove` raises. -/
def visit (next : κ → Finset κ) (collect : κ → Finset μ) (st : State κ μ) (k : κ) : Option (State κ μ) :=
  if k ∈ st.toCheck then
    some
      { toCheck := st.toCheck.erase k ∪ (next k \ insert k st.checked)
        checked := insert k st.checked
        found := st.found ∪ collect k }
  else none

/-- `while` with at most `fuel` passes, none where it has not ended by then or where a visit raises. -/
def passes (order : SetOrder κ) (next : κ → Finset κ) (collect : κ → Finset μ) : ℕ → State κ μ →
    Option (State κ μ)
  | 0, st => if st.toCheck = ∅ then some st else none
  | fuel + 1, st =>
    if st.toCheck = ∅ then some st
    else do
      let st ← (order.list st.toCheck).foldlM (visit next collect) st
      passes order next collect fuel st

def walk (order : SetOrder κ) (next : κ → Finset κ) (collect : κ → Finset μ) (fuel : ℕ) (g : κ) :
    Option (Finset μ) :=
  (passes order next collect fuel ⟨{g}, ∅, ∅⟩).map State.found

variable {order : SetOrder κ} {next : κ → Finset κ} {collect : κ → Finset μ} {g : κ} {st : State κ μ}

/-- One step of the walk. -/
def Next (next : κ → Finset κ) (a b : κ) : Prop := b ∈ next a

/-- What is checked and what is left to check are apart, and together all that can be reached from what is
checked. -/
structure Inv (next : κ → Finset κ) (collect : κ → Finset μ) (g : κ) (st : State κ μ) : Prop where
  apart : ∀ x ∈ st.toCheck, x ∉ st.checked
  start : g ∈ st.toCheck ∨ g ∈ st.checked
  reached : ∀ x, x ∈ st.toCheck ∨ x ∈ st.checked → ReflTransGen (Next next) g x
  closed : ∀ x ∈ st.checked, ∀ y ∈ next x, y ∈ st.toCheck ∨ y ∈ st.checked
  found : ∀ y, y ∈ st.found ↔ ∃ x ∈ st.checked, y ∈ collect x

omit [DecidableEq κ] [DecidableEq μ] in
theorem Inv.init : Inv next collect g ⟨{g}, ∅, ∅⟩ where
  apart x _ := Finset.notMem_empty x
  start := .inl (Finset.mem_singleton_self g)
  reached x hx := by
    rcases hx with hx | hx
    · rw [Finset.mem_singleton.mp hx]
    · exact absurd hx (Finset.notMem_empty x)
  closed x hx := absurd hx (Finset.notMem_empty x)
  found y := by simp

/-- A visit of what is left to check does not raise, and leaves all else of it. -/
theorem Inv.visit (h : Inv next collect g st) {k : κ} (hk : k ∈ st.toCheck) :
    ∃ st', Walk.visit next collect st k = some st' ∧ Inv next collect g st' ∧
      st'.checked = insert k st.checked ∧ ∀ x ∈ st.toCheck, x ≠ k → x ∈ st'.toCheck := by
  have hmem : ∀ x, x ∈ st.toCheck.erase k ∪ (next k \ insert k st.checked) ∨ x ∈ insert k st.checked ↔
      (x ∈ st.toCheck ∨ x ∈ st.checked) ∨ x ∈ next k := by
    intro x
    by_cases hxk : x = k
    · subst hxk
      simp [hk]
    · simp only [Finset.mem_union, Finset.mem_erase, Finset.mem_sdiff, Finset.mem_insert, hxk, false_or,
        ne_eq, not_false_eq_true, true_and]
      tauto
  refine ⟨_, if_pos hk, ⟨?_, ?_, ?_, ?_, ?_⟩, rfl, ?_⟩
  · intro x hx hchecked
    rcases Finset.mem_union.mp hx with hx | hx
    · obtain ⟨hne, hx⟩ := Finset.mem_erase.mp hx
      exact (Finset.mem_insert.mp hchecked).elim hne (h.apart x hx)
    · exact (Finset.mem_sdiff.mp hx).2 hchecked
  · exact (hmem g).mpr (.inl h.start)
  · intro x hx
    rcases (hmem x).mp hx with hx | hx
    · exact h.reached x hx
    · exact (h.reached k (.inl hk)).tail hx
  · intro x hx y hy
    refine (hmem y).mpr ?_
    rcases Finset.mem_insert.mp hx with rfl | hx
    · exact .inr hy
    · exact .inl (h.closed x hx y hy)
  · intro y
    rw [Finset.mem_union, h.found, Finset.exists_mem_insert, or_comm]
  · intro x hx hne
    exact Finset.mem_union_left _ (Finset.mem_erase.mpr ⟨hne, hx⟩)

/-- A pass over distinct ones that are left to check visits them all. -/
theorem Inv.foldlM_visit {l : List κ} (hl : l.Nodup) (h : Inv next collect g st)
    (hmem : ∀ x ∈ l, x ∈ st.toCheck) : ∃ st', l.foldlM (Walk.visit next collect) st = some st' ∧
      Inv next collect g st' ∧ st.checked ⊆ st'.checked ∧ ∀ x ∈ l, x ∈ st'.checked := by
  induction l generalizing st with
  | nil => exact ⟨st, rfl, h, subset_rfl, fun x hx => absurd hx List.not_mem_nil⟩
  | cons k l ih =>
    obtain ⟨hk, hl⟩ := List.nodup_cons.mp hl
    obtain ⟨st', hvisit, h', hchecked, hleft⟩ := h.visit (hmem k List.mem_cons_self)
    have hmem' : ∀ x ∈ l, x ∈ st'.toCheck := fun x hx =>
      hleft x (hmem x (List.mem_cons_of_mem k hx)) fun hxk => hk (hxk ▸ hx)
    obtain ⟨st'', hfold, h'', hsub, hall⟩ := ih hl h' hmem'
    rw [hchecked] at hsub
    refine ⟨st'', ?_, h'', (Finset.subset_insert k _).trans hsub, ?_⟩
    · rw [List.foldlM_cons, hvisit]
      exact hfold
    · intro x hx
      rcases List.mem_cons.mp hx with rfl | hx
      · exact hsub (Finset.mem_insert_self x _)
      · exact hall x hx

omit [DecidableEq κ] [DecidableEq μ] in
/-- When nothing is left to check, what is checked is what can be reached. -/
theorem Inv.mem_checked_iff (h : Inv next collect g st) (hempty : st.toCheck = ∅) {x : κ} :
    x ∈ st.checked ↔ ReflTransGen (Next next) g x := by
  have hor : ∀ y, y ∈ st.toCheck ∨ y ∈ st.checked → y ∈ st.checked := by
    intro y hy
    rw [hempty] at hy
    exact hy.resolve_left (Finset.notMem_empty y)
  constructor
  · exact fun hx => h.reached x (.inr hx)
  · intro hx
    induction hx with
    | refl => exact hor g h.start
    | tail _ hstep ih => exact hor _ (h.closed _ ih _ hstep)

/-- Each pass visits something new of what can be reached. -/
theorem Inv.passes (order : SetOrder κ) {U : Finset κ} (hU : ∀ x, ReflTransGen (Next next) g x → x ∈ U)
    {fuel : ℕ} (h : Inv next collect g st) (hfuel : (U \ st.checked).card ≤ fuel) :
    ∃ st', Walk.passes order next collect fuel st = some st' ∧ Inv next collect g st' ∧ st'.toCheck = ∅ := by
  induction fuel generalizing st with
  | zero =>
    have hempty : st.toCheck = ∅ := by
      rw [Finset.eq_empty_iff_forall_notMem]
      intro x hx
      have hleft : x ∈ U \ st.checked := Finset.mem_sdiff.mpr ⟨hU x (h.reached x (.inl hx)), h.apart x hx⟩
      rw [Finset.card_eq_zero.mp (Nat.le_zero.mp hfuel)] at hleft
      exact Finset.notMem_empty x hleft
    exact ⟨st, if_pos hempty, h, hempty⟩
  | succ fuel ih =>
    by_cases hempty : st.toCheck = ∅
    · exact ⟨st, if_pos hempty, h, hempty⟩
    · obtain ⟨x, hx⟩ := Finset.nonempty_iff_ne_empty.mpr hempty
      obtain ⟨st', hfold, h', hsub, hall⟩ :=
        h.foldlM_visit (order.nodup st.toCheck) fun y hy => (order.mem_list _ y).mp hy
      have hless : (U \ st'.checked).card < (U \ st.checked).card := by
        refine Finset.card_lt_card ⟨Finset.sdiff_subset_sdiff subset_rfl hsub, fun hle => ?_⟩
        have hleft : x ∈ U \ st.checked := Finset.mem_sdiff.mpr ⟨hU x (h.reached x (.inl hx)), h.apart x hx⟩
        exact (Finset.mem_sdiff.mp (hle hleft)).2 (hall x ((order.mem_list _ x).mpr hx))
      obtain ⟨st'', hrun, h'', hend⟩ := ih h' (by omega)
      refine ⟨st'', ?_, h'', hend⟩
      rw [Walk.passes, if_neg hempty, hfold]
      exact hrun

/-- The walk ends, and has collected what all that can be reached has. -/
theorem walk_spec (order : SetOrder κ) (collect : κ → Finset μ) {U : Finset κ}
    (hU : ∀ x, ReflTransGen (Next next) g x → x ∈ U) :
    ∃ found, (∀ fuel, U.card ≤ fuel → walk order next collect fuel g = some found) ∧
      ∀ y, y ∈ found ↔ ∃ x, ReflTransGen (Next next) g x ∧ y ∈ collect x := by
  have hrun : ∀ fuel, U.card ≤ fuel → ∃ found, walk order next collect fuel g = some found ∧
      ∀ y, y ∈ found ↔ ∃ x, ReflTransGen (Next next) g x ∧ y ∈ collect x := by
    intro fuel hfuel
    have hinit : Inv next collect g ⟨{g}, ∅, ∅⟩ := .init
    obtain ⟨st, hrun, h, hempty⟩ :=
      hinit.passes order hU ((Finset.card_le_card Finset.sdiff_subset).trans hfuel)
    refine ⟨st.found, by rw [walk, hrun]; rfl, fun y => ?_⟩
    rw [h.found]
    exact exists_congr fun x => and_congr_left fun _ => h.mem_checked_iff hempty
  obtain ⟨found, -, hfound⟩ := hrun U.card le_rfl
  refine ⟨found, fun fuel hfuel => ?_, hfound⟩
  obtain ⟨found', hwalk, hfound'⟩ := hrun fuel hfuel
  rw [hwalk, Finset.ext fun y => (hfound' y).trans (hfound y).symm]

end Forail.Walk
