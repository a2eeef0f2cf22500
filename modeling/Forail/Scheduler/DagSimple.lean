import Forail.Base.Dict
import Mathlib.Data.List.Count
import Mathlib.Data.List.Nodup

/-! The labelled graph `SimpleDAG`: nodes in insertion order, the set of root
indices, and two label-indexed edge maps that mirror each other. Well-formedness
collects what `addNode` and a successful `addEdge` preserve; under it the lists of
children, parents and roots are read as an edge relation on the stored objects. -/

namespace Forail.Scheduler

/-- `rootNodes` lists a set of indices in its iteration order; `nodes` keeps only
the stored objects. -/
structure SimpleDAG (α β : Type*) where
  nodes : List α
  rootNodes : List ℕ
  nodeObjToNodeIndex : Dict α ℕ
  nodeFromEdgesByLabel : Dict β (Dict ℕ (List ℕ))
  nodeToEdgesByLabel : Dict β (Dict ℕ (List ℕ))

/-- The three ways in which `addEdge` refuses its arguments. -/
inductive LookupError (α : Type*)
  | fromAndTo (fromObj toObj : α)
  | fromObject (fromObj : α)
  | toObject (toObj : α)
  deriving DecidableEq

def LookupError.message {α : Type*} [ToString α] : LookupError α → String
  | .fromAndTo f t => "From object " ++ toString f ++ " and to object " ++ toString t ++ " not found"
  | .fromObject f => "From object not found " ++ toString f
  | .toObject t => "To object not found " ++ toString t

namespace SimpleDAG

section Definitions
variable {α β : Type*} [DecidableEq α] [DecidableEq β]

def empty : SimpleDAG α β := ⟨[], [], .empty, .empty, .empty⟩

def findOrd (g : SimpleDAG α β) (obj : α) : Option ℕ := g.nodeObjToNodeIndex.get? obj

def addNode (g : SimpleDAG α β) (obj : α) : SimpleDAG α β :=
  match g.findOrd obj with
  | some _ => g
  | none =>
    { g with
      rootNodes := g.rootNodes ++ [g.nodes.length]
      nodeObjToNodeIndex := g.nodeObjToNodeIndex.set obj g.nodes.length
      nodes := g.nodes ++ [obj] }

/-- The two `setdefault` calls followed by the append. -/
def appendEdge (m : Dict β (Dict ℕ (List ℕ))) (label : β) (i j : ℕ) : Dict β (Dict ℕ (List ℕ)) :=
  m.set label ((m.getD label .empty).set i ((m.getD label .empty).getD i [] ++ [j]))

def discard (roots : List ℕ) : Option ℕ → List ℕ
  | none => roots
  | some i => roots.filter (· ≠ i)

/-- The target leaves the root set before the arguments are checked. -/
def addEdge (g : SimpleDAG α β) (fromObj toObj : α) (label : β) :
    SimpleDAG α β × Option (LookupError α) :=
  let h := { g with rootNodes := discard g.rootNodes (g.findOrd toObj) }
  match g.findOrd fromObj, g.findOrd toObj with
  | none, none => (h, some (.fromAndTo fromObj toObj))
  | none, some _ => (h, some (.fromObject fromObj))
  | some _, none => (h, some (.toObject toObj))
  | some i, some j =>
    ({ h with
       nodeFromEdgesByLabel := appendEdge h.nodeFromEdgesByLabel label i j
       nodeToEdgesByLabel := appendEdge h.nodeToEdgesByLabel label j i }, none)

def edgesAt (m : Dict β (Dict ℕ (List ℕ))) (label : β) (i : ℕ) : List ℕ :=
  (m.getD label .empty).getD i []

def getChildrenByLabel (g : SimpleDAG α β) (i : ℕ) (label : β) : List α :=
  (edgesAt g.nodeFromEdgesByLabel label i).filterMap (g.nodes[·]?)

/-- Without a label the children of all labels follow each other, in the order in
which the labels were first used. -/
def getChildren (g : SimpleDAG α β) (obj : α) (label : Option β) : List α :=
  match g.findOrd obj, label with
  | none, _ => []
  | some i, some l => g.getChildrenByLabel i l
  | some i, none => g.nodeFromEdgesByLabel.keys.flatMap (g.getChildrenByLabel i)

def getParentsByLabel (g : SimpleDAG α β) (i : ℕ) (label : β) : List α :=
  (edgesAt g.nodeToEdgesByLabel label i).filterMap (g.nodes[·]?)

def getParents (g : SimpleDAG α β) (obj : α) (label : Option β) : List α :=
  match g.findOrd obj, label with
  | none, _ => []
  | some i, some l => g.getParentsByLabel i l
  | some i, none => g.nodeToEdgesByLabel.keys.flatMap (g.getParentsByLabel i)

def getRootNodes (g : SimpleDAG α β) : List α := g.rootNodes.filterMap (g.nodes[·]?)

end Definitions

section WellFormed
variable {α β : Type*} [DecidableEq α] [DecidableEq β]

structure WellFormed (g : SimpleDAG α β) : Prop where
  nodes_nodup : g.nodes.Nodup
  index : ∀ x i, g.findOrd x = some i ↔ g.nodes[i]? = some x
  mirror : ∀ l i j, (edgesAt g.nodeFromEdgesByLabel l i).count j =
    (edgesAt g.nodeToEdgesByLabel l j).count i
  bound : ∀ l i j, j ∈ edgesAt g.nodeFromEdgesByLabel l i →
    i < g.nodes.length ∧ j < g.nodes.length
  roots : ∀ i, i ∈ g.rootNodes ↔
    i < g.nodes.length ∧ ∀ l, edgesAt g.nodeToEdgesByLabel l i = []
  roots_nodup : g.rootNodes.Nodup

/-- `p` has an edge with label `l` to `c`. -/
def Edge (g : SimpleDAG α β) (l : β) (p c : α) : Prop :=
  ∃ i j, g.nodes[i]? = some p ∧ g.nodes[j]? = some c ∧ j ∈ edgesAt g.nodeFromEdgesByLabel l i

/-- `p` has an edge of some label to `c`. -/
def Parent (g : SimpleDAG α β) (p c : α) : Prop := ∃ l, g.Edge l p c

omit [DecidableEq α] in
theorem Edge.nodes {g : SimpleDAG α β} {l : β} {p c : α} (h : g.Edge l p c) :
    p ∈ g.nodes ∧ c ∈ g.nodes := by
  obtain ⟨i, j, hp, hc, -⟩ := h
  exact ⟨List.mem_of_getElem? hp, List.mem_of_getElem? hc⟩

omit [DecidableEq α] in
theorem Parent.nodes {g : SimpleDAG α β} {p c : α} (h : g.Parent p c) :
    p ∈ g.nodes ∧ c ∈ g.nodes := by
  obtain ⟨l, hl⟩ := h
  exact hl.nodes

theorem edgesAt_appendEdge (m : Dict β (Dict ℕ (List ℕ))) (l l' : β) (i i' j : ℕ) :
    edgesAt (appendEdge m l i j) l' i' =
      if l' = l ∧ i' = i then edgesAt m l i ++ [j] else edgesAt m l' i' := by
  simp only [edgesAt, appendEdge, Dict.getD_set]
  by_cases hl : l' = l
  · subst hl
    rw [if_pos rfl, Dict.getD_set]
    by_cases hi : i' = i <;> simp [hi]
  · simp [hl]

theorem edgesAt_of_not_mem_keys (m : Dict β (Dict ℕ (List ℕ))) {l : β} (hl : l ∉ m.keys) (i : ℕ) :
    edgesAt m l i = [] := by
  unfold edgesAt Dict.getD
  rw [Dict.get?_eq_none_of_not_mem m hl]
  rfl

namespace WellFormed

variable {g : SimpleDAG α β} (hg : g.WellFormed)
include hg

theorem mem_nodes_iff {x : α} : x ∈ g.nodes ↔ ∃ i, g.findOrd x = some i := by
  rw [List.mem_iff_getElem?]
  exact exists_congr fun i => (hg.index x i).symm

theorem findOrd_eq_none {x : α} : g.findOrd x = none ↔ x ∉ g.nodes := by
  rw [hg.mem_nodes_iff, Option.eq_none_iff_forall_ne_some, not_exists]

theorem mem_from_iff_mem_to (l : β) (i j : ℕ) :
    j ∈ edgesAt g.nodeFromEdgesByLabel l i ↔ i ∈ edgesAt g.nodeToEdgesByLabel l j := by
  rw [← List.count_pos_iff, ← List.count_pos_iff, hg.mirror]

theorem edge_iff {l : β} {p c : α} {i : ℕ} (hi : g.findOrd p = some i) :
    g.Edge l p c ↔ c ∈ g.getChildrenByLabel i l := by
  simp only [getChildrenByLabel, List.mem_filterMap]
  constructor
  · rintro ⟨i', j, hp, hc, hj⟩
    have : i' = i := Option.some.inj (((hg.index p i').mpr hp).symm.trans hi)
    exact ⟨j, this ▸ hj, hc⟩
  · rintro ⟨j, hj, hc⟩
    exact ⟨i, j, (hg.index p i).mp hi, hc, hj⟩

theorem edge_iff' {l : β} {p c : α} {j : ℕ} (hj : g.findOrd c = some j) :
    g.Edge l p c ↔ p ∈ g.getParentsByLabel j l := by
  simp only [getParentsByLabel, List.mem_filterMap]
  constructor
  · rintro ⟨i, j', hp, hc, hij⟩
    have : j' = j := Option.some.inj (((hg.index c j').mpr hc).symm.trans hj)
    exact ⟨i, (hg.mem_from_iff_mem_to l i j).mp (this ▸ hij), hp⟩
  · rintro ⟨i, hi, hp⟩
    exact ⟨i, j, hp, (hg.index c j).mp hj, (hg.mem_from_iff_mem_to l i j).mpr hi⟩

theorem mem_getChildren_some {l : β} {p c : α} : c ∈ g.getChildren p (some l) ↔ g.Edge l p c := by
  unfold getChildren
  cases hi : g.findOrd p with
  | none =>
    refine iff_of_false (List.not_mem_nil) fun h => ?_
    exact (hg.findOrd_eq_none.mp hi) h.nodes.1
  | some i => exact (hg.edge_iff hi).symm

theorem mem_getChildren {p c : α} : c ∈ g.getChildren p none ↔ g.Parent p c := by
  unfold getChildren
  cases hi : g.findOrd p with
  | none =>
    refine iff_of_false (List.not_mem_nil) fun h => ?_
    exact (hg.findOrd_eq_none.mp hi) h.nodes.1
  | some i =>
    simp only [List.mem_flatMap, Parent]
    constructor
    · rintro ⟨l, -, hc⟩
      exact ⟨l, (hg.edge_iff hi).mpr hc⟩
    · rintro ⟨l, hl⟩
      have hc := (hg.edge_iff hi).mp hl
      refine ⟨l, ?_, hc⟩
      by_contra hk
      simp [getChildrenByLabel, edgesAt_of_not_mem_keys _ hk] at hc

theorem mem_getParents_some {l : β} {p c : α} : p ∈ g.getParents c (some l) ↔ g.Edge l p c := by
  unfold getParents
  cases hj : g.findOrd c with
  | none =>
    refine iff_of_false (List.not_mem_nil) fun h => ?_
    exact (hg.findOrd_eq_none.mp hj) h.nodes.2
  | some j => exact (hg.edge_iff' hj).symm

theorem mem_getParents {p c : α} : p ∈ g.getParents c none ↔ g.Parent p c := by
  unfold getParents
  cases hj : g.findOrd c with
  | none =>
    refine iff_of_false (List.not_mem_nil) fun h => ?_
    exact (hg.findOrd_eq_none.mp hj) h.nodes.2
  | some j =>
    simp only [List.mem_flatMap, Parent]
    constructor
    · rintro ⟨l, -, hp⟩
      exact ⟨l, (hg.edge_iff' hj).mpr hp⟩
    · rintro ⟨l, hl⟩
      have hp := (hg.edge_iff' hj).mp hl
      refine ⟨l, ?_, hp⟩
      by_contra hk
      simp [getParentsByLabel, edgesAt_of_not_mem_keys _ hk] at hp

/-- The root nodes are the nodes without a parent. -/
theorem mem_getRootNodes {n : α} : n ∈ g.getRootNodes ↔ n ∈ g.nodes ∧ ∀ p, ¬ g.Parent p n := by
  simp only [getRootNodes, List.mem_filterMap, Parent]
  constructor
  · rintro ⟨j, hj, hn⟩
    refine ⟨List.mem_of_getElem? hn, fun p ⟨l, hl⟩ => ?_⟩
    have hp := (hg.edge_iff' ((hg.index n j).mpr hn)).mp hl
    simp [getParentsByLabel, ((hg.roots j).mp hj).2 l] at hp
  · rintro ⟨hn, hp⟩
    obtain ⟨j, hj⟩ := hg.mem_nodes_iff.mp hn
    have hnj := (hg.index n j).mp hj
    refine ⟨j, (hg.roots j).mpr ⟨?_, fun l => ?_⟩, hnj⟩
    · exact (List.getElem?_eq_some_iff.mp hnj).1
    · rw [List.eq_nil_iff_forall_not_mem]
      intro i hi
      have hij := (hg.mem_from_iff_mem_to l i j).mpr hi
      have hlt := (hg.bound l i j hij).1
      exact hp g.nodes[i] ⟨l, i, j, List.getElem?_eq_getElem hlt, hnj, hij⟩

end WellFormed

/-! ### What the constructors keep -/

theorem empty_wellFormed : (empty : SimpleDAG α β).WellFormed where
  nodes_nodup := List.nodup_nil
  index x i := by simp [empty, findOrd]
  mirror l i j := by simp [empty, edgesAt]
  bound l i j h := by simp [empty, edgesAt] at h
  roots i := by simp [empty]
  roots_nodup := List.nodup_nil

theorem addNode_nodes {g : SimpleDAG α β} (hg : g.WellFormed) (obj : α) :
    (g.addNode obj).nodes = if obj ∈ g.nodes then g.nodes else g.nodes ++ [obj] := by
  unfold addNode
  cases h : g.findOrd obj with
  | none => rw [if_neg (hg.findOrd_eq_none.mp h)]
  | some i => rw [if_pos (hg.mem_nodes_iff.mpr ⟨i, h⟩)]

theorem addNode_wellFormed {g : SimpleDAG α β} (hg : g.WellFormed) (obj : α) :
    (g.addNode obj).WellFormed := by
  unfold addNode
  cases h : g.findOrd obj with
  | some i => exact hg
  | none =>
    have hn : obj ∉ g.nodes := hg.findOrd_eq_none.mp h
    have hfresh : ∀ l, edgesAt g.nodeToEdgesByLabel l g.nodes.length = [] := fun l => by
      rw [List.eq_nil_iff_forall_not_mem]
      intro i hi
      exact absurd (hg.bound l i _ ((hg.mem_from_iff_mem_to l i _).mpr hi)).2 (Nat.lt_irrefl _)
    have hroot : g.nodes.length ∉ g.rootNodes := fun hr =>
      absurd ((hg.roots _).mp hr).1 (Nat.lt_irrefl _)
    refine ⟨?_, ?_, hg.mirror, ?_, ?_, ?_⟩
    · exact List.nodup_append.mpr ⟨hg.nodes_nodup, by simp, by
        intro a ha b hb hab
        rw [List.mem_singleton] at hb
        exact hn (hb ▸ hab ▸ ha)⟩
    · intro x i
      have hx := hg.index x i
      simp only [findOrd, Dict.get?_set] at hx ⊢
      by_cases hxo : x = obj
      · subst hxo
        rw [if_pos rfl]
        constructor
        · intro hi; simp [← Option.some.inj hi]
        · intro hi
          by_contra hne
          have hlt : i < g.nodes.length := by
            have := (List.getElem?_eq_some_iff.mp hi).1
            rw [List.length_append, List.length_singleton] at this
            have : g.nodes.length ≠ i := fun he => hne (he ▸ rfl)
            omega
          rw [List.getElem?_append_left hlt] at hi
          exact hn (List.mem_of_getElem? hi)
      · rw [if_neg hxo, hx]
        by_cases hlt : i < g.nodes.length
        · rw [List.getElem?_append_left hlt]
        · rw [List.getElem?_eq_none (by omega)]
          refine iff_of_false (by simp) fun hi => ?_
          rw [List.getElem?_append_right (by omega)] at hi
          have := List.mem_of_getElem? hi
          exact hxo (List.mem_singleton.mp this)
    · intro l i j hj
      have := hg.bound l i j hj
      simp only [List.length_append, List.length_singleton]
      omega
    · intro i
      simp only [List.mem_append, List.mem_singleton, List.length_append, List.length_singleton,
        hg.roots]
      constructor
      · rintro (⟨hi, hl⟩ | rfl)
        · exact ⟨by omega, hl⟩
        · exact ⟨by omega, hfresh⟩
      · rintro ⟨hi, hl⟩
        by_cases he : i = g.nodes.length
        · exact .inr he
        · exact .inl ⟨by omega, hl⟩
    · exact List.nodup_append.mpr ⟨hg.roots_nodup, by simp, by
        intro a ha b hb hab
        rw [List.mem_singleton] at hb
        exact hroot (hb ▸ hab ▸ ha)⟩

theorem addNode_edge {g : SimpleDAG α β} (hg : g.WellFormed) (obj : α) (l : β) (p c : α) :
    (g.addNode obj).Edge l p c ↔ g.Edge l p c := by
  unfold addNode
  cases h : g.findOrd obj with
  | some i => rfl
  | none =>
    simp only [Edge]
    refine exists_congr fun i => exists_congr fun j => ?_
    constructor
    · rintro ⟨hp, hc, hj⟩
      obtain ⟨hi, hj'⟩ := hg.bound l i j hj
      rw [List.getElem?_append_left hi] at hp
      rw [List.getElem?_append_left hj'] at hc
      exact ⟨hp, hc, hj⟩
    · rintro ⟨hp, hc, hj⟩
      obtain ⟨hi, hj'⟩ := hg.bound l i j hj
      exact ⟨by rwa [List.getElem?_append_left hi], by rwa [List.getElem?_append_left hj'], hj⟩

/-- With both ends stored, `addEdge` succeeds. -/
theorem addEdge_known {g : SimpleDAG α β} {p c : α} {i j : ℕ} (hi : g.findOrd p = some i)
    (hj : g.findOrd c = some j) (l : β) :
    g.addEdge p c l = ({ g with
      rootNodes := g.rootNodes.filter (· ≠ j)
      nodeFromEdgesByLabel := appendEdge g.nodeFromEdgesByLabel l i j
      nodeToEdgesByLabel := appendEdge g.nodeToEdgesByLabel l j i }, none) := by
  simp only [addEdge, hi, hj, discard]

theorem addEdge_wellFormed {g : SimpleDAG α β} (hg : g.WellFormed) {p c : α} (hp : p ∈ g.nodes)
    (hc : c ∈ g.nodes) (l : β) : (g.addEdge p c l).1.WellFormed := by
  obtain ⟨i, hi⟩ := hg.mem_nodes_iff.mp hp
  obtain ⟨j, hj⟩ := hg.mem_nodes_iff.mp hc
  have hil := (List.getElem?_eq_some_iff.mp ((hg.index p i).mp hi)).1
  have hjl := (List.getElem?_eq_some_iff.mp ((hg.index c j).mp hj)).1
  rw [addEdge_known hi hj]
  refine ⟨hg.nodes_nodup, hg.index, ?_, ?_, ?_, hg.roots_nodup.filter _⟩
  · intro l' i' j'
    simp only [edgesAt_appendEdge]
    by_cases hl : l' = l
    · subst hl
      by_cases hii : i' = i <;> by_cases hjj : j' = j
      · subst hii hjj; simp [hg.mirror]
      · subst hii; simp [hg.mirror, hjj, Ne.symm hjj]
      · subst hjj; simp [hg.mirror, hii, Ne.symm hii]
      · simp [hg.mirror, hii, hjj]
    · simp [hl, hg.mirror]
  · intro l' i' j'
    simp only [edgesAt_appendEdge]
    split_ifs with h
    · obtain ⟨-, rfl⟩ := h
      rw [List.mem_append, List.mem_singleton]
      rintro (h | rfl)
      · exact hg.bound l i' j' h
      · exact ⟨hil, hjl⟩
    · exact hg.bound l' i' j'
  · intro i'
    simp only [List.mem_filter, hg.roots, decide_eq_true_eq, edgesAt_appendEdge]
    constructor
    · rintro ⟨⟨hlt, hl⟩, hne⟩
      exact ⟨hlt, fun l' => by rw [if_neg (fun h => hne h.2)]; exact hl l'⟩
    · rintro ⟨hlt, hl⟩
      have hne : i' ≠ j := fun he => by simpa [he] using hl l
      exact ⟨⟨hlt, fun l' => by simpa [hne] using hl l'⟩, hne⟩

theorem addEdge_nodes (g : SimpleDAG α β) (p c : α) (l : β) :
    (g.addEdge p c l).1.nodes = g.nodes := by
  unfold addEdge
  cases g.findOrd p <;> cases g.findOrd c <;> rfl

theorem addEdge_edge {g : SimpleDAG α β} (hg : g.WellFormed) {p c : α} (hp : p ∈ g.nodes)
    (hc : c ∈ g.nodes) (l l' : β) (p' c' : α) :
    (g.addEdge p c l).1.Edge l' p' c' ↔ g.Edge l' p' c' ∨ (l' = l ∧ p' = p ∧ c' = c) := by
  obtain ⟨i, hi⟩ := hg.mem_nodes_iff.mp hp
  obtain ⟨j, hj⟩ := hg.mem_nodes_iff.mp hc
  have hip := (hg.index p i).mp hi
  have hjc := (hg.index c j).mp hj
  rw [addEdge_known hi hj]
  simp only [Edge, edgesAt_appendEdge]
  constructor
  · rintro ⟨i', j', hp', hc', hm⟩
    split_ifs at hm with h
    · obtain ⟨rfl, rfl⟩ := h
      rw [List.mem_append, List.mem_singleton] at hm
      rcases hm with hm | rfl
      · exact .inl ⟨i', j', hp', hc', hm⟩
      · exact .inr ⟨rfl, Option.some.inj (hp'.symm.trans hip), Option.some.inj (hc'.symm.trans hjc)⟩
    · exact .inl ⟨i', j', hp', hc', hm⟩
  · rintro (⟨i', j', hp', hc', hm⟩ | ⟨rfl, rfl, rfl⟩)
    · refine ⟨i', j', hp', hc', ?_⟩
      split_ifs with h
      · obtain ⟨rfl, rfl⟩ := h
        exact List.mem_append_left _ hm
      · exact hm
    · exact ⟨i, j, hip, hjc, by simp⟩

end WellFormed

end SimpleDAG

end Forail.Scheduler
