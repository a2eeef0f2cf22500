import Forail.Base.Acyclicity
import Mathlib.Data.List.Induction
import Mathlib.Data.List.Sort

/-! Pruning in one pass over a list: a node goes when it is bare and all its children are gone. The pass
removes only nodes from which no other than bare ones can be reached, and all of them exactly when each stands
behind its children. -/

namespace Forail.Pruning

open Relation Acyclicity

variable {α : Type*} [DecidableEq α] (bare : α → Bool) (children : α → List α)

/-- What is gone after a node, and what was gone before it. -/
def step (gone : List α) (n : α) : List α :=
  if bare n = true ∧ ∀ c ∈ children n, c ∈ gone then gone ++ [n] else gone

def pruned (l : List α) : List α := l.foldl (step bare children) []

/-- Only bare nodes can be reached. -/
def Dead (n : α) : Prop := ∀ m, ReflTransGen (fun a b => b ∈ children a) n m → bare m = true

def Before (l : List α) (c n : α) : Prop := ∃ pre post, l = pre ++ n :: post ∧ c ∈ pre

variable {bare children} {l : List α} {n c : α}

theorem pruned_concat (l : List α) (n : α) :
    pruned bare children (l ++ [n]) = step bare children (pruned bare children l) n := by
  rw [pruned, List.foldl_append]
  rfl

theorem mem_step {gone : List α} {x : α} : x ∈ step bare children gone n ↔
    x ∈ gone ∨ x = n ∧ bare n = true ∧ ∀ c ∈ children n, c ∈ gone := by
  rw [step]
  split_ifs with h
  · rw [List.mem_append, List.mem_singleton]
    exact or_congr_right ⟨fun hx => ⟨hx, h⟩, fun hx => hx.1⟩
  · exact ⟨.inl, fun hx => hx.elim id fun hx => absurd hx.2 h⟩

theorem pruned_subset (l : List α) : pruned bare children l ⊆ l := by
  induction l using List.reverseRecOn with
  | nil => exact List.Subset.refl []
  | append_singleton l n ih =>
    intro x hx
    rw [pruned_concat] at hx
    rcases mem_step.mp hx with hx | ⟨rfl, -⟩
    · exact List.mem_append_left _ (ih hx)
    · exact List.mem_append_right _ List.mem_cons_self

theorem pruned_mono (pre post : List α) : pruned bare children pre ⊆ pruned bare children (pre ++ post) := by
  induction post using List.reverseRecOn with
  | nil =>
    rw [List.append_nil]
    exact List.Subset.refl _
  | append_singleton post n ih =>
    intro x hx
    rw [← List.append_assoc, pruned_concat]
    exact mem_step.mpr (.inl (ih hx))

theorem mem_pruned_of_concat {pre post : List α} (h : c ∈ pruned bare children (pre ++ [n])) :
    c ∈ pruned bare children (pre ++ n :: post) := by
  have hmem := pruned_mono (pre ++ [n]) post h
  rwa [List.append_assoc, List.singleton_append] at hmem

theorem mem_pruned_iff : n ∈ pruned bare children l ↔ ∃ pre post, l = pre ++ n :: post ∧
    bare n = true ∧ ∀ c ∈ children n, c ∈ pruned bare children pre := by
  constructor
  · intro hn
    induction l using List.reverseRecOn with
    | nil => exact absurd hn List.not_mem_nil
    | append_singleton l m ih =>
      rw [pruned_concat] at hn
      rcases mem_step.mp hn with hn | ⟨rfl, hbare, hchildren⟩
      · obtain ⟨pre, post, rfl, h⟩ := ih hn
        exact ⟨pre, post ++ [m], by simp, h⟩
      · exact ⟨l, [], rfl, hbare, hchildren⟩
  · rintro ⟨pre, post, rfl, hbare, hchildren⟩
    have hn : n ∈ pruned bare children (pre ++ [n]) := by
      rw [pruned_concat]
      exact mem_step.mpr (.inr ⟨rfl, hbare, hchildren⟩)
    exact mem_pruned_of_concat hn

/-- What is gone is behind its children, and they are gone. -/
theorem before_of_mem_pruned (hn : n ∈ pruned bare children l) (hc : c ∈ children n) :
    Before l c n ∧ c ∈ pruned bare children l := by
  obtain ⟨pre, post, rfl, -, hchildren⟩ := mem_pruned_iff.mp hn
  exact ⟨⟨pre, post, rfl, pruned_subset pre (hchildren c hc)⟩, pruned_mono pre _ (hchildren c hc)⟩

omit [DecidableEq α] in
theorem dead_iff : Dead bare children n ↔ bare n = true ∧ ∀ c ∈ children n, Dead bare children c := by
  constructor
  · exact fun h => ⟨h n .refl, fun c hc m hm => h m (.head hc hm)⟩
  · rintro ⟨hbare, hchildren⟩ m hm
    rcases ReflTransGen.cases_head hm with rfl | ⟨c, hc, hm⟩
    · exact hbare
    · exact hchildren c hc m hm

theorem dead_of_mem_pruned (hn : n ∈ pruned bare children l) : Dead bare children n := by
  induction l using List.reverseRecOn generalizing n with
  | nil => exact absurd hn List.not_mem_nil
  | append_singleton l m ih =>
    rw [pruned_concat] at hn
    rcases mem_step.mp hn with hn | ⟨rfl, hbare, hchildren⟩
    · exact ih hn
    · exact dead_iff.mpr ⟨hbare, fun c hc => ih (hchildren c hc)⟩

omit [DecidableEq α] in
theorem mem_of_before (hl : l.Nodup) {pre post : List α} (h : l = pre ++ n :: post) (hc : Before l c n) :
    c ∈ pre := by
  obtain ⟨pre', post', heq, hmem⟩ := hc
  rw [h] at heq hl
  have hn : ∀ {p q : List α}, (p ++ n :: q).Nodup → n ∉ p := fun hnodup hp =>
    (List.nodup_append.mp hnodup).2.2 n hp n List.mem_cons_self rfl
  have hpre : pre = pre' := by
    rcases List.append_eq_append_iff.mp heq with ⟨a, rfl, htail⟩ | ⟨a, rfl, htail⟩
    · cases a with
      | nil => rw [List.append_nil]
      | cons x a =>
        obtain rfl := (List.cons.inj htail).1
        exact absurd (List.mem_append_right _ List.mem_cons_self) (hn (heq ▸ hl))
    · cases a with
      | nil => rw [List.append_nil]
      | cons x a =>
        obtain rfl := (List.cons.inj htail).1
        exact absurd (List.mem_append_right _ List.mem_cons_self) (hn hl)
  exact hpre ▸ hmem

/-- Where each dead node is behind its children, all dead ones go. -/
theorem mem_pruned_of_before (hl : l.Nodup)
    (hbefore : ∀ n ∈ l, Dead bare children n → ∀ c ∈ children n, Before l c n) (hn : n ∈ l)
    (hdead : Dead bare children n) : n ∈ pruned bare children l := by
  obtain ⟨pre, post, h⟩ := List.append_of_mem hn
  suffices hall : ∀ k, ∀ pre post n, pre.length = k → l = pre ++ n :: post → Dead bare children n →
      n ∈ pruned bare children (pre ++ [n]) by
    rw [h]
    exact mem_pruned_of_concat (hall _ pre post n rfl h hdead)
  intro k
  induction k using Nat.strong_induction_on with
  | _ k ih =>
    intro pre post n hlength h hdead
    obtain ⟨hbare, hchildren⟩ := dead_iff.mp hdead
    refine mem_pruned_iff.mpr ⟨pre, [], rfl, hbare, fun c hc => ?_⟩
    have hmem := mem_of_before hl h
      (hbefore n (h ▸ List.mem_append_right _ List.mem_cons_self) hdead c hc)
    obtain ⟨p, q, rfl⟩ := List.append_of_mem hmem
    have hpc := ih p.length (by simp at hlength; omega) p (q ++ n :: post) c rfl (by rw [h]; simp)
      (hchildren c hc)
    exact mem_pruned_of_concat hpc

omit [DecidableEq α] in
/-- Some order has each node behind its children. -/
theorem exists_order (h : Acyclic fun a b => b ∈ children a) (hl : ∀ n ∈ l, ∀ c ∈ children n, c ∈ l) :
    ∃ l', l'.Perm l ∧ ∀ n ∈ l', ∀ c ∈ children n, Before l' c n := by
  let rank := height (fun a b => b ∈ children a) l
  refine ⟨l.mergeSort fun a b => rank a ≤ rank b, List.mergeSort_perm _ _, fun n hn c hc => ?_⟩
  have hsorted : (l.mergeSort fun a b => rank a ≤ rank b).Pairwise fun a b => rank a ≤ rank b := by
    have htrans : ∀ a b c, decide (rank a ≤ rank b) = true → decide (rank b ≤ rank c) = true →
        decide (rank a ≤ rank c) = true := fun a b c hab hbc =>
      decide_eq_true ((of_decide_eq_true hab).trans (of_decide_eq_true hbc))
    have htotal : ∀ a b, (decide (rank a ≤ rank b) || decide (rank b ≤ rank a)) = true := fun a b => by
      simp only [Bool.or_eq_true, decide_eq_true_eq]
      exact Nat.le_total _ _
    exact (List.pairwise_mergeSort htrans htotal l).imp fun hab => of_decide_eq_true hab
  have hperm := List.mergeSort_perm l fun a b => decide (rank a ≤ rank b)
  have hcl : c ∈ l := hl n (hperm.mem_iff.mp hn) c hc
  have hlt : rank c < rank n := height_lt h hcl hc
  obtain ⟨pre, post, heq⟩ := List.append_of_mem hn
  refine ⟨pre, post, heq, ?_⟩
  have hc' := hperm.mem_iff.mpr hcl
  rw [heq] at hc' hsorted
  rcases List.mem_append.mp hc' with hc' | hc'
  · exact hc'
  · rcases List.mem_cons.mp hc' with rfl | hc'
    · exact absurd hlt (Nat.lt_irrefl _)
    · have hle := (List.pairwise_cons.mp (List.pairwise_append.mp hsorted).2.1).1 c hc'
      omega

end Forail.Pruning
