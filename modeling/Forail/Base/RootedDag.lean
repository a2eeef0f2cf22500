import Forail.Base.Acyclicity
import Mathlib.Tactic.Tauto

/-! Acyclic graphs that hang on a root outside their vertices: every vertex has a parent, and the
root is the parent of just those that have no other. What an edit of such a graph has to do in
order to leave one behind. -/

namespace Forail

open Relation Acyclicity

variable {α : Type*} {root : α} {V : α → Prop} {E : α → α → Prop}

structure RootedDag (root : α) (V : α → Prop) (E : α → α → Prop) : Prop where
  root_outside : ¬ V root
  source : ∀ a b, E a b → a = root ∨ V a
  target : ∀ a b, E a b → V b
  acyclic : Acyclic E
  parent : ∀ v, V v → ∃ p, E p v
  root_only : ∀ v p, E root v → E p v → p = root

/-- Where no edge leads to the root, a path from elsewhere does not use the edges of the root. -/
theorem path_of_root {S : α → α → Prop} (hroot : ∀ a, ¬ S a root)
    (hs : ∀ a b, S a b → E a b ∨ a = root) {a b : α} (hab : TransGen S a b) (ha : a ≠ root) :
    TransGen E a b := by
  have hedge : ∀ a b, S a b → a ≠ root → E a b := fun a b hab ha => (hs a b hab).resolve_right ha
  induction hab with
  | single hab => exact .single (hedge _ _ hab ha)
  | tail hab hbc ih =>
    obtain ⟨d, -, hd⟩ := TransGen.tail'_iff.mp hab
    exact ih.tail (hedge _ _ hbc fun he => hroot d (he ▸ hd))

/-- Edges from a root to which none leads close no cycle. -/
theorem acyclic_of_root {S : α → α → Prop} (h : Acyclic E) (hroot : ∀ a, ¬ S a root)
    (hs : ∀ a b, S a b → E a b ∨ a = root) : Acyclic S := by
  intro a ha
  obtain ⟨d, -, hd⟩ := TransGen.tail'_iff.mp ha
  exact h a (path_of_root hroot hs ha fun he => hroot d (he ▸ hd))

namespace RootedDag

/-- The root is a parent exactly where there is no other one. -/
theorem root_iff (h : RootedDag root V E) {v : α} (hv : V v) :
    E root v ↔ ¬ ∃ p, p ≠ root ∧ E p v := by
  constructor
  · rintro hr ⟨p, hp, hpv⟩
    exact hp (h.root_only v p hr hpv)
  · intro hno
    obtain ⟨p, hp⟩ := h.parent v hv
    by_cases hpr : p = root
    · exact hpr ▸ hp
    · exact absurd ⟨p, hpr, hp⟩ hno

theorem not_target_root (h : RootedDag root V E) (a : α) : ¬ E a root :=
  fun ha => h.root_outside (h.target a root ha)

/-- Nothing leads to the root but the root. -/
theorem eq_of_reach_root (h : RootedDag root V E) {a : α} (ha : ReflTransGen E a root) :
    a = root := by
  rcases ReflTransGen.cases_tail ha with heq | ⟨b, -, hb⟩
  · exact heq.symm
  · exact absurd hb (h.not_target_root b)

theorem empty : RootedDag root (fun _ => False) fun _ _ => False where
  root_outside := id
  source _ _ h := h.elim
  target _ _ h := h.elim
  acyclic a ha := by
    obtain ⟨_, h, _⟩ := TransGen.head'_iff.mp ha
    exact h
  parent _ h := h.elim
  root_only _ _ h := h.elim

/-- What a vertex outside the graph reaches is only itself. -/
theorem eq_of_reach_outside (h : RootedDag root V E) {n b : α} (hn : ¬ V n) (hr : n ≠ root)
    (hb : ReflTransGen E n b) : b = n := by
  rcases ReflTransGen.cases_head hb with heq | ⟨c, hc, -⟩
  · exact heq.symm
  · exact ((h.source n c hc).elim hr hn).elim

/-- A new vertex below the root or below a vertex. -/
theorem addLeaf (h : RootedDag root V E) {a n : α} (ha : a = root ∨ V a) (hn : ¬ V n)
    (hr : n ≠ root) : RootedDag root (fun v => V v ∨ v = n) (withEdge E a n) where
  root_outside := fun hv => hv.elim h.root_outside fun he => hr he.symm
  source x y hxy := by
    rcases hxy with hxy | ⟨rfl, -⟩
    · exact (h.source x y hxy).imp_right .inl
    · exact ha.imp_right .inl
  target x y hxy := by
    rcases hxy with hxy | ⟨-, rfl⟩
    · exact .inl (h.target x y hxy)
    · exact .inr rfl
  acyclic := (acyclic_withEdge h.acyclic).mpr fun hna => by
    have hna' := h.eq_of_reach_outside hn hr hna
    subst hna'
    exact ha.elim hr hn
  parent v hv := by
    rcases hv with hv | rfl
    · obtain ⟨p, hp⟩ := h.parent v hv
      exact ⟨p, .inl hp⟩
    · exact ⟨a, .inr ⟨rfl, rfl⟩⟩
  root_only v p hrv hpv := by
    rcases hrv with hrv | ⟨hra, rfl⟩ <;> rcases hpv with hpv | ⟨hpa, hvn⟩
    · exact h.root_only v p hrv hpv
    · exact absurd (hvn ▸ h.target root v hrv) hn
    · exact absurd (h.target p v hpv) hn
    · rw [hpa, ← hra]

/-- A new vertex in the middle of an edge. -/
theorem subdivide (h : RootedDag root V E) {a b n : α} (hab : E a b) (hn : ¬ V n) (hr : n ≠ root) :
    RootedDag root (fun v => V v ∨ v = n) fun x y =>
      (E x y ∧ ¬(x = a ∧ y = b)) ∨ (x = a ∧ y = n) ∨ (x = n ∧ y = b) where
  root_outside := fun hv => hv.elim h.root_outside fun he => hr he.symm
  source x y hxy := by
    rcases hxy with ⟨hxy, -⟩ | ⟨rfl, -⟩ | ⟨rfl, -⟩
    · exact (h.source x y hxy).imp_right .inl
    · exact (h.source x b hab).imp_right .inl
    · exact .inr (.inr rfl)
  target x y hxy := by
    rcases hxy with ⟨hxy, -⟩ | ⟨-, rfl⟩ | ⟨-, rfl⟩
    · exact .inl (h.target x y hxy)
    · exact .inr rfl
    · exact .inl (h.target a y hab)
  acyclic := by
    have hleaf := h.addLeaf (h.source a b hab) hn hr
    have hbn : ¬ ReflTransGen (withEdge E a n) b n := by
      intro hbn
      rcases reach_withEdge.mp hbn with hbn | ⟨hba, -⟩
      · rcases ReflTransGen.cases_tail hbn with rfl | ⟨c, -, hc⟩
        · exact hn (h.target a n hab)
        · exact hn (h.target c n hc)
      · exact h.acyclic a (TransGen.head' hab hba)
    refine ((acyclic_withEdge hleaf.acyclic).mpr hbn).mono fun x y hxy => ?_
    rcases hxy with ⟨hxy, -⟩ | hxy | hxy
    · exact .inl (.inl hxy)
    · exact .inl (.inr hxy)
    · exact .inr hxy
  parent v hv := by
    rcases hv with hv | rfl
    · by_cases hvb : v = b
      · exact ⟨n, .inr (.inr ⟨rfl, hvb⟩)⟩
      · obtain ⟨p, hp⟩ := h.parent v hv
        exact ⟨p, .inl ⟨hp, fun hpb => hvb hpb.2⟩⟩
    · exact ⟨a, .inr (.inl ⟨rfl, rfl⟩)⟩
  root_only v p hrv hpv := by
    rcases hrv with ⟨hrv, hrne⟩ | ⟨hra, hvn⟩ | ⟨hrn, -⟩
    · rcases hpv with ⟨hpv, -⟩ | ⟨-, hvn⟩ | ⟨-, hvb⟩
      · exact h.root_only v p hrv hpv
      · exact absurd (hvn ▸ h.target root v hrv) hn
      · -- the edge that was divided came from the root as well
        have ha : a = root := h.root_only v a hrv (hvb ▸ hab)
        exact absurd ⟨ha.symm, hvb⟩ hrne
    · rcases hpv with ⟨hpv, -⟩ | ⟨hpa, -⟩ | ⟨-, hvb⟩
      · exact absurd (hvn ▸ h.target p v hpv) hn
      · rw [hpa, ← hra]
      · exact absurd (hvn ▸ hvb ▸ h.target a b hab) hn
    · exact absurd hrn.symm hr

/-- An edge to a vertex that does not lead to its source. It replaces an edge from the root. -/
theorem addEdge (h : RootedDag root V E) {s t : α} (hs : V s) (ht : V t)
    (hreach : ¬ ReflTransGen E t s) :
    RootedDag root V fun x y => (E x y ∧ ¬(x = root ∧ y = t)) ∨ (x = s ∧ y = t) where
  root_outside := h.root_outside
  source x y hxy := by
    rcases hxy with ⟨hxy, -⟩ | ⟨rfl, -⟩
    · exact h.source x y hxy
    · exact .inr hs
  target x y hxy := by
    rcases hxy with ⟨hxy, -⟩ | ⟨-, rfl⟩
    · exact h.target x y hxy
    · exact ht
  acyclic := ((acyclic_withEdge h.acyclic).mpr hreach).mono fun x y hxy => hxy.imp_left And.left
  parent v hv := by
    by_cases hvt : v = t
    · exact ⟨s, .inr ⟨rfl, hvt⟩⟩
    · obtain ⟨p, hp⟩ := h.parent v hv
      exact ⟨p, .inl ⟨hp, fun hpt => hvt hpt.2⟩⟩
  root_only v p hrv hpv := by
    rcases hrv with ⟨hrv, hrne⟩ | ⟨hrs, -⟩
    · rcases hpv with ⟨hpv, -⟩ | ⟨-, hvt⟩
      · exact h.root_only v p hrv hpv
      · exact absurd ⟨rfl, hvt⟩ hrne
    · exact absurd (hrs ▸ hs) h.root_outside

/-- An edge goes. If it was the last one to its target, the root takes its place. -/
theorem removeEdge (h : RootedDag root V E) {s t : α} (hst : E s t) (hs : s ≠ root) :
    RootedDag root V fun x y =>
      (E x y ∧ ¬(x = s ∧ y = t)) ∨ (x = root ∧ y = t ∧ ∀ p, E p t → p = s) where
  root_outside := h.root_outside
  source x y hxy := by
    rcases hxy with ⟨hxy, -⟩ | ⟨rfl, -⟩
    · exact h.source x y hxy
    · exact .inl rfl
  target x y hxy := by
    rcases hxy with ⟨hxy, -⟩ | ⟨-, rfl, -⟩
    · exact h.target x y hxy
    · exact h.target s y hst
  acyclic := by
    refine ((acyclic_withEdge h.acyclic).mpr fun htr => ?_).mono (S := fun x y =>
      (E x y ∧ ¬(x = s ∧ y = t)) ∨ (x = root ∧ y = t ∧ ∀ p, E p t → p = s))
      fun x y hxy => hxy.imp And.left fun hxy => ⟨hxy.1, hxy.2.1⟩
    have ht := h.eq_of_reach_root htr
    exact h.not_target_root s (ht ▸ hst)
  parent v hv := by
    by_cases hex : ∃ p, E p v ∧ ¬(p = s ∧ v = t)
    · obtain ⟨p, hp⟩ := hex
      exact ⟨p, .inl hp⟩
    · obtain ⟨p, hp⟩ := h.parent v hv
      have hps : p = s ∧ v = t := by_contra fun hne => hex ⟨p, hp, hne⟩
      refine ⟨root, .inr ⟨rfl, hps.2, fun q hq => ?_⟩⟩
      have hqs : q = s ∧ v = t := by_contra fun hne => hex ⟨q, hps.2 ▸ hq, hne⟩
      exact hqs.1
  root_only v p hrv hpv := by
    rcases hrv with ⟨hrv, -⟩ | ⟨-, hvt, hall⟩
    · rcases hpv with ⟨hpv, -⟩ | ⟨hp, -⟩
      · exact h.root_only v p hrv hpv
      · exact hp
    · rcases hpv with ⟨hpv, hne⟩ | ⟨hp, -⟩
      · exact absurd ⟨hall p (hvt ▸ hpv), hvt⟩ hne
      · exact hp

/-- A vertex goes, and its parents become the parents of its children. The root does so only for
a child that has no parent left. -/
theorem removeVertex (h : RootedDag root V E) {n : α} (hn : V n) :
    RootedDag root (fun v => V v ∧ v ≠ n) fun x y =>
      (E x y ∧ x ≠ n ∧ y ≠ n) ∨ (E x n ∧ E n y ∧ x ≠ root) ∨
        (x = root ∧ E root n ∧ E n y ∧ ∀ p, E p y → p = n) where
  root_outside := fun hv => h.root_outside hv.1
  source x y hxy := by
    rcases hxy with ⟨hxy, hx, -⟩ | ⟨hxn, -, hx⟩ | ⟨rfl, -⟩
    · exact (h.source x y hxy).imp_right fun hv => ⟨hv, hx⟩
    · refine .inr ⟨(h.source x n hxn).resolve_left hx, ?_⟩
      rintro rfl
      exact h.acyclic.irrefl x hxn
    · exact .inl rfl
  target x y hxy := by
    have hloop : E n y → y ≠ n := by
      rintro hny rfl
      exact h.acyclic.irrefl y hny
    rcases hxy with ⟨hxy, -, hy⟩ | ⟨-, hny, -⟩ | ⟨-, -, hny, -⟩
    · exact ⟨h.target x y hxy, hy⟩
    · exact ⟨h.target n y hny, hloop hny⟩
    · exact ⟨h.target n y hny, hloop hny⟩
  acyclic := by
    have hpath : ∀ x y, TransGen (fun x y => (E x y ∧ x ≠ n ∧ y ≠ n) ∨ (E x n ∧ E n y ∧ x ≠ root) ∨
        (x = root ∧ E root n ∧ E n y ∧ ∀ p, E p y → p = n)) x y → TransGen E x y := by
      intro x y hxy
      have hedge : ∀ x y, ((E x y ∧ x ≠ n ∧ y ≠ n) ∨ (E x n ∧ E n y ∧ x ≠ root) ∨
          (x = root ∧ E root n ∧ E n y ∧ ∀ p, E p y → p = n)) → TransGen E x y := by
        rintro x y (⟨hxy, -⟩ | ⟨hxn, hny, -⟩ | ⟨rfl, hrn, hny, -⟩)
        · exact .single hxy
        · exact .head hxn (.single hny)
        · exact .head hrn (.single hny)
      induction hxy with
      | single hxy => exact hedge _ _ hxy
      | tail _ hyz ih => exact ih.trans (hedge _ _ hyz)
    exact fun x hx => h.acyclic x (hpath x x hx)
  parent v hv := by
    by_cases hex : ∃ p, E p v ∧ p ≠ n
    · obtain ⟨p, hp, hpn⟩ := hex
      exact ⟨p, .inl ⟨hp, hpn, hv.2⟩⟩
    · have hall : ∀ p, E p v → p = n := fun p hp => by_contra fun hpn => hex ⟨p, hp, hpn⟩
      obtain ⟨p, hp⟩ := h.parent v hv.1
      have hnv : E n v := hall p hp ▸ hp
      obtain ⟨q, hq⟩ := h.parent n hn
      by_cases hqr : q = root
      · exact ⟨root, .inr (.inr ⟨rfl, hqr ▸ hq, hnv, hall⟩)⟩
      · exact ⟨q, .inr (.inl ⟨hq, hnv, hqr⟩)⟩
  root_only v p hrv hpv := by
    have hnr : n ≠ root := fun he => h.root_outside (he ▸ hn)
    rcases hrv with ⟨hrv, -, -⟩ | ⟨-, -, hrr⟩ | ⟨-, hrn, hnv, hall⟩
    · rcases hpv with ⟨hpv, -⟩ | ⟨-, hnv, -⟩ | ⟨hp, -⟩
      · exact h.root_only v p hrv hpv
      · exact absurd (h.root_only v n hrv hnv) hnr
      · exact hp
    · exact absurd rfl hrr
    · rcases hpv with ⟨hpv, hpn, -⟩ | ⟨hpn, -, -⟩ | ⟨hp, -⟩
      · exact absurd (hall p hpv) hpn
      · exact h.root_only n p hrn hpn
      · exact hp

end RootedDag

end Forail
