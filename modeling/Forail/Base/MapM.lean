import Mathlib.Data.List.Basic
import Mathlib.Data.List.Forall2

/-! Loops whose steps can fail: what each step keeps, what a step brings about for good, and loops
none of whose steps fails. -/

namespace Forail.ExceptFold

universe v

variable {ε α : Type*} {σ τ : Type v} {f : σ → α → Except ε σ} {l : List α} {s s' : σ} {x : α}

theorem bind_eq_ok {m : Except ε σ} {g : σ → Except ε τ} {t : τ} :
    m >>= g = .ok t ↔ ∃ s, m = .ok s ∧ g s = .ok t := by
  constructor
  · intro h
    cases m with
    | error e => cases h
    | ok s => exact ⟨s, rfl, h⟩
  · rintro ⟨s, rfl, h⟩
    exact h

theorem foldlM_keeps {P : σ → Prop}
    (hstep : ∀ s, ∀ x ∈ l, ∀ s', P s → f s x = .ok s' → P s') (hs : P s)
    (h : l.foldlM f s = .ok s') : P s' := by
  induction l generalizing s with
  | nil =>
    cases h
    exact hs
  | cons x l ih =>
    rw [List.foldlM_cons] at h
    obtain ⟨s₁, hx, hl⟩ := bind_eq_ok.mp h
    refine ih (fun s y hy => hstep s y (List.mem_cons_of_mem x hy)) ?_ hl
    exact hstep s x List.mem_cons_self s₁ hs hx

/-- What the step of a member brings about, and no step ends. -/
theorem foldlM_reaches {P Q : σ → Prop}
    (hstep : ∀ s, ∀ y ∈ l, ∀ s', P s → f s y = .ok s' → P s' ∧ (Q s → Q s')) (hx : x ∈ l)
    (hdo : ∀ s s', P s → f s x = .ok s' → Q s') (hs : P s) (h : l.foldlM f s = .ok s') : Q s' := by
  obtain ⟨l₁, l₂, rfl⟩ := List.append_of_mem hx
  rw [List.foldlM_append] at h
  obtain ⟨s₁, hbefore, hrest⟩ := bind_eq_ok.mp h
  rw [List.foldlM_cons] at hrest
  obtain ⟨s₂, hmember, hafter⟩ := bind_eq_ok.mp hrest
  have hs₁ : P s₁ := foldlM_keeps
    (fun s y hy s' hs hf => (hstep s y (List.mem_append_left _ hy) s' hs hf).1) hs hbefore
  have hs₂ : P s₂ ∧ Q s₂ := ⟨(hstep s₁ x hx s₂ hs₁ hmember).1, hdo s₁ s₂ hs₁ hmember⟩
  refine (foldlM_keeps (P := fun s => P s ∧ Q s) (fun s y hy s' hs hf => ?_) hs₂ hafter).2
  have hnext := hstep s y (List.mem_append_right _ (List.mem_cons_of_mem x hy)) s' hs.1 hf
  exact ⟨hnext.1, hnext.2 hs.2⟩

theorem foldlM_ok {g : σ → α → σ} (h : ∀ s, ∀ x ∈ l, f s x = .ok (g s x)) (s : σ) :
    l.foldlM f s = .ok (l.foldl g s) := by
  induction l generalizing s with
  | nil => rfl
  | cons x l ih =>
    rw [List.foldlM_cons, h s x List.mem_cons_self]
    exact ih (fun s y hy => h s y (List.mem_cons_of_mem x hy)) (g s x)

end Forail.ExceptFold

/-! Lists through functions that can fail: the results stand in the order of the arguments. -/

namespace Forail

variable {α β ε : Type}

theorem mapM_eq_some {f : α → Option β} {l : List α} {ys : List β} :
    l.mapM f = some ys ↔ List.Forall₂ (fun x y => f x = some y) l ys := by
  induction l generalizing ys with
  | nil =>
    rw [List.mapM_nil, List.forall₂_nil_left_iff]
    exact ⟨fun h => (Option.some.inj h).symm, fun h => congrArg some h.symm⟩
  | cons x l ih =>
    rw [List.mapM_cons]
    constructor
    · intro h
      obtain ⟨y, hy, h⟩ := Option.bind_eq_some_iff.mp h
      obtain ⟨zs, hzs, h⟩ := Option.bind_eq_some_iff.mp h
      cases h
      exact .cons hy (ih.mp hzs)
    · intro h
      cases h with
      | cons hy hys =>
        rw [hy, ih.mpr hys]
        rfl

theorem exists_of_mem_right {R : α → β → Prop} {l : List α} {ys : List β} (h : List.Forall₂ R l ys) {y : β}
    (hy : y ∈ ys) : ∃ x ∈ l, R x y := by
  induction h with
  | nil => exact absurd hy List.not_mem_nil
  | cons hx _ ih =>
    rcases List.mem_cons.mp hy with rfl | hy
    · exact ⟨_, List.mem_cons_self, hx⟩
    · exact (ih hy).imp fun x hx => ⟨List.mem_cons_of_mem _ hx.1, hx.2⟩

theorem exists_of_mem_left {R : α → β → Prop} {l : List α} {ys : List β} (h : List.Forall₂ R l ys) {x : α}
    (hx : x ∈ l) : ∃ y ∈ ys, R x y :=
  exists_of_mem_right (R := fun y x => R x y) h.flip hx

/-- The results are those of the members. -/
theorem mem_of_mapM {f : α → Option β} {l : List α} {ys : List β} (h : l.mapM f = some ys) {y : β} :
    y ∈ ys ↔ ∃ x ∈ l, f x = some y := by
  have hall := mapM_eq_some.mp h
  clear h
  induction hall with
  | nil => simp
  | cons hx _ ih =>
    rw [List.mem_cons, List.exists_mem_cons_iff, hx, Option.some_inj, eq_comm]
    exact or_congr_right ih

/-- All members have results. -/
theorem exists_mapM_iff {f : α → Option β} {l : List α} :
    (∃ ys, l.mapM f = some ys) ↔ ∀ x ∈ l, ∃ y, f x = some y := by
  simp only [mapM_eq_some]
  induction l with
  | nil => exact ⟨fun _ => nofun, fun _ => ⟨[], .nil⟩⟩
  | cons x l ih =>
    rw [List.forall_mem_cons, ← ih]
    constructor
    · rintro ⟨_, h⟩
      cases h with
      | cons hy hys => exact ⟨⟨_, hy⟩, ⟨_, hys⟩⟩
    · rintro ⟨⟨y, hy⟩, ys, hys⟩
      exact ⟨y :: ys, .cons hy hys⟩

/-- Each member has a result that it is related to. -/
theorem exists_mapM_forall₂ {f : α → Option β} {R : α → β → Prop} {l : List α} :
    (∃ ys, l.mapM f = some ys ∧ List.Forall₂ R l ys) ↔ ∀ x ∈ l, ∃ y, f x = some y ∧ R x y := by
  simp only [mapM_eq_some]
  induction l with
  | nil => exact ⟨fun _ => nofun, fun _ => ⟨[], .nil, .nil⟩⟩
  | cons x l ih =>
    rw [List.forall_mem_cons, ← ih]
    constructor
    · rintro ⟨_, h, hR⟩
      cases h with
      | cons hy hys =>
        cases hR with
        | cons hyR hysR => exact ⟨⟨_, hy, hyR⟩, ⟨_, hys, hysR⟩⟩
    · rintro ⟨⟨y, hy, hyR⟩, ys, hys, hysR⟩
      exact ⟨y :: ys, .cons hy hys, .cons hyR hysR⟩

end Forail
