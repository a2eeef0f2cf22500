import Forail.Base.RootedDag
import Forail.Ui.WorkflowReducer
import Mathlib.Data.List.Nodup
import Mathlib.Tactic.SplitIfs

/-! The graph that a state of the visualizer draws, and what the edits of the reducer do to it. -/

namespace Forail.Visualizer

open Relation Acyclicity

/-- A node that is neither deleted nor the start node. -/
def Live (nodes : List Node) (n : ℕ) : Prop :=
  ∃ node ∈ nodes, node.id = n ∧ node.isDeleted = false ∧ n ≠ 1

def Link.ends (l : Link) : ℕ × ℕ := (l.source, l.target)

def Edge (links : List Link) (a b : ℕ) : Prop := (a, b) ∈ links.map Link.ends

/-- The drawn graph hangs on the start node, with at most one link from a node to another; the
ids of the nodes differ and the next one is new. -/
structure Chart (s : State) : Prop where
  graph : RootedDag 1 (Live s.nodes) (Edge s.links)
  unique : (s.links.map Link.ends).Nodup
  ids : (s.nodes.map Node.id).Nodup
  issued : ∀ node ∈ s.nodes, node.id < s.nextNodeId
  next : 1 < s.nextNodeId

variable {s : State} {links : List Link} {nodes : List Node}

theorem edge_iff {a b : ℕ} : Edge links a b ↔ ∃ l ∈ links, l.source = a ∧ l.target = b := by
  simp only [Edge, List.mem_map, Link.ends, Prod.mk.injEq]

theorem Edge.of_mem {l : Link} (hl : l ∈ links) : Edge links l.source l.target :=
  List.mem_map_of_mem hl

theorem Live.mem_ids {n : ℕ} (h : Live nodes n) : n ∈ nodes.map Node.id := by
  obtain ⟨node, hmem, rfl, -⟩ := h
  exact List.mem_map_of_mem hmem

theorem Chart.not_live_next (h : Chart s) : ¬ Live s.nodes s.nextNodeId := by
  rintro ⟨node, hmem, hid, -⟩
  exact Nat.ne_of_lt (h.issued node hmem) hid

theorem edge_append {links' : List Link} {a b : ℕ} :
    Edge (links ++ links') a b ↔ Edge links a b ∨ Edge links' a b := by
  rw [Edge, List.map_append, List.mem_append]
  rfl

theorem edge_singleton {l : Link} {a b : ℕ} :
    Edge [l] a b ↔ a = l.source ∧ b = l.target := by
  rw [Edge, List.map_singleton, List.mem_singleton, Link.ends, Prod.mk.injEq]

/-! ### The parents of a node -/

theorem mem_parentsOf {a b : ℕ} : a ∈ parentsOf links b ↔ Edge links a b := by
  simp only [parentsOf, edge_iff, List.mem_map, List.mem_filter, decide_eq_true_eq]
  exact exists_congr fun l => by tauto

theorem nodup_parentsOf (h : (links.map Link.ends).Nodup) (b : ℕ) : (parentsOf links b).Nodup := by
  refine List.Nodup.map_on ?_ (h.of_map.filter _)
  intro l hl l' hl' heq
  obtain ⟨hmem, ht⟩ := List.mem_filter.mp hl
  obtain ⟨hmem', ht'⟩ := List.mem_filter.mp hl'
  refine List.inj_on_of_nodup_map h hmem hmem' ?_
  rw [Link.ends, Link.ends, heq, of_decide_eq_true ht, of_decide_eq_true ht']

/-- A list without repetition has one element when all of them are the same. -/
theorem length_eq_one_iff {l : List ℕ} (h : l.Nodup) {a : ℕ} (ha : a ∈ l) :
    l.length = 1 ↔ ∀ b ∈ l, b = a := by
  constructor
  · intro hlen b hb
    obtain ⟨c, rfl⟩ := List.length_eq_one_iff.mp hlen
    rw [List.mem_singleton.mp hb, List.mem_singleton.mp ha]
  · intro hall
    cases l with
    | nil => cases ha
    | cons c l =>
      cases l with
      | nil => rfl
      | cons d l =>
        have hc := hall c List.mem_cons_self
        have hd := hall d (List.mem_cons_of_mem _ List.mem_cons_self)
        have hcd : c ≠ d := fun he =>
          (List.nodup_cons.mp h).1 (he ▸ List.mem_cons_self)
        exact absurd (hc.trans hd.symm) hcd

theorem parentsOf_length_eq_one (h : (links.map Link.ends).Nodup) {a b : ℕ} (hab : Edge links a b) :
    (parentsOf links b).length = 1 ↔ ∀ p, Edge links p b → p = a := by
  rw [length_eq_one_iff (nodup_parentsOf h b) (mem_parentsOf.mpr hab)]
  exact forall_congr' fun p => by rw [mem_parentsOf]

/-! ### Splicing in a loop -/

/-- Where at most one element is to go, the loop skips none that is. -/
theorem spliceEach_eq_filter {p : Link → Bool}
    (h : links.Pairwise fun l l' => p l = true → p l' = false) :
    spliceEach p links = links.filter fun l => !p l := by
  induction links using spliceEach.induct p with
  | case1 => rfl
  | case2 l hl => simp [spliceEach, hl]
  | case3 l hl next links ih =>
    rw [List.pairwise_cons, List.pairwise_cons] at h
    have hnext : p next = false := h.1 next List.mem_cons_self hl
    simp [spliceEach, hl, hnext, ih h.2.2]
  | case4 l links hl ih =>
    rw [List.pairwise_cons] at h
    rw [spliceEach.eq_def]
    dsimp only
    rw [if_neg hl, ih h.2]
    simp [hl]

/-! ### Marks on nodes -/

/-- A change of the nodes that keeps their ids and what is deleted. -/
theorem live_map {f : Node → Node} (hid : ∀ node, (f node).id = node.id)
    (hdel : ∀ node, (f node).isDeleted = node.isDeleted) {n : ℕ} :
    Live (nodes.map f) n ↔ Live nodes n := by
  constructor
  · rintro ⟨node, hmem, hn, hd, hne⟩
    obtain ⟨node', hmem', rfl⟩ := List.mem_map.mp hmem
    exact ⟨node', hmem', by rw [← hn, hid], by rw [← hd, hdel], hne⟩
  · rintro ⟨node, hmem, hn, hd, hne⟩
    exact ⟨f node, List.mem_map_of_mem hmem, by rw [hid, hn], by rw [hdel, hd], hne⟩

/-- Another graph of the same nodes, on the same ids. -/
theorem Chart.withLinks (h : Chart s) {f : Node → Node} (hid : ∀ node, (f node).id = node.id)
    (hdel : ∀ node, (f node).isDeleted = node.isDeleted) {s' : State}
    (hnodes : s'.nodes = s.nodes.map f) (hnext : s'.nextNodeId = s.nextNodeId)
    (hgraph : RootedDag 1 (Live s.nodes) (Edge s'.links))
    (hunique : (s'.links.map Link.ends).Nodup) : Chart s' where
  graph := by
    have hlive : Live s'.nodes = Live s.nodes := by
      funext n
      rw [hnodes, live_map hid hdel]
    rw [hlive]
    exact hgraph
  unique := hunique
  ids := by
    have hids : s'.nodes.map Node.id = s.nodes.map Node.id := by
      rw [hnodes, List.map_map]
      exact List.map_congr_left fun node _ => hid node
    rw [hids]
    exact h.ids
  issued node hmem := by
    rw [hnodes] at hmem
    obtain ⟨node', hmem', rfl⟩ := List.mem_map.mp hmem
    rw [hid, hnext]
    exact h.issued node' hmem'
  next := by
    rw [hnext]
    exact h.next

/-- A step that touches neither links nor ids nor what is deleted. -/
theorem Chart.congr (h : Chart s) {f : Node → Node} (hid : ∀ node, (f node).id = node.id)
    (hdel : ∀ node, (f node).isDeleted = node.isDeleted) {s' : State}
    (hnodes : s'.nodes = s.nodes.map f) (hnext : s'.nextNodeId = s.nextNodeId)
    (hlinks : s'.links = s.links) : Chart s' :=
  h.withLinks hid hdel hnodes hnext (by rw [hlinks]; exact h.graph) (by rw [hlinks]; exact h.unique)

/-! ### Links -/

theorem Chart.createLink (h : Chart s) {source target : ℕ} (hsource : Live s.nodes source)
    (htarget : Live s.nodes target) (hnew : ¬ Edge s.links source target)
    (hreach : ¬ ReflTransGen (Edge s.links) target source) {linkType : LinkType} {s' : State}
    (hs : s.addLinkSourceNode = some source) (ht : s.addLinkTargetNode = some target)
    (h' : createLink s linkType = some s') : Chart s' := by
  have hne : source ≠ 1 := hsource.choose_spec.2.2.2
  have hunique : ((s.links ++ [(⟨source, target, linkType, false⟩ : Link)]).map Link.ends).Nodup := by
    rw [List.map_append, List.map_singleton]
    refine List.nodup_append.mpr ⟨h.unique, List.nodup_singleton _, fun e he e' he' heq => ?_⟩
    rw [List.mem_singleton.mp he'] at heq
    rw [heq] at he
    exact hnew he
  have hsplice : spliceEach (fun link => link.source = 1 ∧ link.target = target)
      (s.links ++ [(⟨source, target, linkType, false⟩ : Link)]) =
      (s.links ++ [(⟨source, target, linkType, false⟩ : Link)]).filter fun link =>
        !decide (link.source = 1 ∧ link.target = target) := by
    refine spliceEach_eq_filter ((List.pairwise_map.mp hunique).imp fun hll' hl => ?_)
    refine decide_eq_false fun hl' => hll' ?_
    have hl := of_decide_eq_true hl
    rw [Link.ends, Link.ends, hl.1, hl.2, hl'.1, hl'.2]
  rw [Visualizer.createLink, hs, ht] at h'
  cases h'
  refine h.withLinks (f := fun node => { node with isInvalidLinkTarget := false })
    (fun _ => rfl) (fun _ => rfl) rfl rfl ?_ ?_
  · have hedge : Edge (spliceEach (fun link => link.source = 1 ∧ link.target = target)
        (s.links ++ [(⟨source, target, linkType, false⟩ : Link)])) = fun x y =>
        (Edge s.links x y ∧ ¬(x = 1 ∧ y = target)) ∨ (x = source ∧ y = target) := by
      funext x y
      rw [hsplice]
      simp only [edge_iff, List.mem_filter, List.mem_append, List.mem_singleton,
        Bool.not_eq_true', decide_eq_false_iff_not, eq_iff_iff]
      constructor
      · rintro ⟨l, ⟨hl | rfl, hnot⟩, rfl, rfl⟩
        · exact .inl ⟨⟨l, hl, rfl, rfl⟩, hnot⟩
        · exact .inr ⟨rfl, rfl⟩
      · rintro (⟨⟨l, hl, rfl, rfl⟩, hnot⟩ | ⟨rfl, rfl⟩)
        · exact ⟨l, ⟨.inl hl, hnot⟩, rfl, rfl⟩
        · exact ⟨_, ⟨.inr rfl, fun he => hne he.1⟩, rfl, rfl⟩
    change RootedDag 1 (Live s.nodes) (Edge (spliceEach _ _))
    rw [hedge]
    exact h.graph.addEdge hsource htarget hreach
  · change ((spliceEach _ _).map Link.ends).Nodup
    rw [hsplice]
    exact hunique.sublist (List.filter_sublist.map Link.ends)

theorem Chart.deleteLink (h : Chart s) {l : Link} (hl : s.linkToDelete = some l)
    (hedge : Edge s.links l.source l.target) (hne : l.source ≠ 1)
    (hconv : l.isConvergenceLink = decide ((parentsOf s.links l.target).length > 1)) {s' : State}
    (h' : deleteLink s = some s') : Chart s' := by
  rw [Visualizer.deleteLink, hl] at h'
  cases h'
  -- the link leads to a convergence exactly when its target has another parent
  have hlast : l.isConvergenceLink = false ↔ ∀ p, Edge s.links p l.target → p = l.source := by
    rw [← parentsOf_length_eq_one h.unique hedge, hconv, decide_eq_false_iff_not]
    have hpos : 0 < (parentsOf s.links l.target).length :=
      List.length_pos_of_mem (mem_parentsOf.mpr hedge)
    omega
  have hkept : ∀ x y, Edge (s.links.filter fun link =>
      ¬(link.source = l.source ∧ link.target = l.target)) x y ↔
      Edge s.links x y ∧ ¬(x = l.source ∧ y = l.target) := by
    intro x y
    simp only [edge_iff, List.mem_filter, decide_eq_true_eq]
    constructor
    · rintro ⟨k, ⟨hk, hnot⟩, rfl, rfl⟩
      exact ⟨⟨k, hk, rfl, rfl⟩, hnot⟩
    · rintro ⟨⟨k, hk, rfl, rfl⟩, hnot⟩
      exact ⟨k, ⟨hk, hnot⟩, rfl, rfl⟩
  have hsub : ((s.links.filter fun link =>
      ¬(link.source = l.source ∧ link.target = l.target)).map Link.ends).Nodup :=
    h.unique.sublist (List.filter_sublist.map Link.ends)
  have hgraph := h.graph.removeEdge hedge hne
  refine h.withLinks (f := id) (fun _ => rfl) (fun _ => rfl) (List.map_id _).symm rfl ?_ ?_
  · have heq : Edge (if l.isConvergenceLink = true then s.links.filter fun link =>
        ¬(link.source = l.source ∧ link.target = l.target)
        else (s.links.filter fun link =>
          ¬(link.source = l.source ∧ link.target = l.target)) ++ [⟨1, l.target, .always, false⟩]) =
        fun x y => (Edge s.links x y ∧ ¬(x = l.source ∧ y = l.target)) ∨
          (x = 1 ∧ y = l.target ∧ ∀ p, Edge s.links p l.target → p = l.source) := by
      funext x y
      cases hc : l.isConvergenceLink with
      | true =>
        have hnot : ¬ ∀ p, Edge s.links p l.target → p = l.source := fun hall => by
          rw [hlast.mpr hall] at hc
          cases hc
        rw [if_pos rfl, eq_iff_iff, hkept]
        tauto
      | false =>
        have hall := hlast.mp hc
        rw [if_neg Bool.false_ne_true, eq_iff_iff, edge_append, hkept, edge_singleton]
        tauto
    change RootedDag 1 (Live s.nodes) (Edge (if l.isConvergenceLink = true then _ else _))
    rw [heq]
    exact hgraph
  · change ((if l.isConvergenceLink = true then _ else _ : List Link).map Link.ends).Nodup
    cases hc : l.isConvergenceLink with
    | true => exact hsub
    | false =>
      rw [if_neg Bool.false_ne_true, List.map_append, List.map_singleton]
      refine List.nodup_append.mpr ⟨hsub, List.nodup_singleton _, fun e he e' he' heq => ?_⟩
      rw [List.mem_singleton.mp he'] at heq
      rw [heq] at he
      have hroot : Edge s.links 1 l.target := ((hkept 1 l.target).mp he).1
      exact hne (hlast.mp hc 1 hroot).symm

theorem Chart.updateLink (h : Chart s) {linkType : LinkType} {s' : State}
    (h' : updateLink s linkType = some s') : Chart s' := by
  obtain ⟨l, -, rfl⟩ := Option.map_eq_some_iff.mp h'
  have hends : (s.links.map fun link =>
      if link.source = l.source ∧ link.target = l.target then { link with linkType := linkType }
      else link).map Link.ends = s.links.map Link.ends := by
    rw [List.map_map]
    refine List.map_congr_left fun link _ => ?_
    simp only [Function.comp]
    split_ifs <;> rfl
  refine h.withLinks (f := id) (fun _ => rfl) (fun _ => rfl) (List.map_id _).symm rfl ?_ ?_
  · have hedge : Edge (s.links.map fun link =>
        if link.source = l.source ∧ link.target = l.target then { link with linkType := linkType }
        else link) = Edge s.links := by
      funext x y
      rw [Edge, Edge, hends]
    change RootedDag 1 (Live s.nodes) (Edge (s.links.map _))
    rw [hedge]
    exact h.graph
  · change ((s.links.map _).map Link.ends).Nodup
    rw [hends]
    exact h.unique

end Forail.Visualizer

/-! The nodes that the selection of a source marks: its children and all that lead to it. To link
the source to any other node closes no cycle and doubles no link. -/

namespace Forail.Visualizer

open Relation Acyclicity

section Search

variable {parents : ℕ → List ℕ}

/-- An edge to a parent. -/
def Parent (parents : ℕ → List ℕ) (a b : ℕ) : Prop := b ∈ parents a

/-- The ancestors of a traversed node have been found. -/
def Search.Good (parents : ℕ → List ℕ) (st : Search) : Prop :=
  ∀ id ∈ st.traversed, ∀ p, TransGen (Parent parents) id p → p ∈ st.found

/-- What the search of the ancestors of `id` adds. -/
structure Traced (parents : ℕ → List ℕ) (id : ℕ) (st st' : Search) : Prop where
  good : st'.Good parents
  kept : st.found ⊆ st'.found
  found : ∀ p, TransGen (Parent parents) id p → p ∈ st'.found

/-- The search of one parent after the other. -/
theorem foldlM_traced {f : Search → ℕ → Option Search} {ps : List ℕ}
    (hf : ∀ p ∈ ps, ∀ st : Search, st.Good parents →
      ∃ st', f st p = some st' ∧ p ∈ st'.found ∧ Traced parents p st st')
    (st : Search) (hst : st.Good parents) :
    ∃ st', ps.foldlM f st = some st' ∧ st'.Good parents ∧ st.found ⊆ st'.found ∧
      ∀ p ∈ ps, p ∈ st'.found ∧ ∀ q, TransGen (Parent parents) p q → q ∈ st'.found := by
  induction ps generalizing st with
  | nil => exact ⟨st, rfl, hst, List.Subset.refl _, by simp⟩
  | cons p ps ih =>
    obtain ⟨st₁, h₁, hp, htraced⟩ := hf p List.mem_cons_self st hst
    obtain ⟨st₂, h₂, hgood, hkept, hall⟩ :=
      ih (fun q hq => hf q (List.mem_cons_of_mem _ hq)) st₁ htraced.good
    refine ⟨st₂, ?_, hgood, fun x hx => hkept (htraced.kept hx), fun q hq => ?_⟩
    · rw [List.foldlM_cons, h₁]
      exact h₂
    · rcases List.mem_cons.mp hq with rfl | hq
      · exact ⟨hkept hp, fun r hr => hkept (htraced.found r hr)⟩
      · exact hall q hq

/-- Fuel above the height of a node suffices for the search of its ancestors. -/
theorem getAncestors_spec {nodes : List ℕ} (hac : Acyclic (Parent parents))
    (hmem : ∀ id, ∀ p ∈ parents id, p ∈ nodes) (fuel id : ℕ) (st : Search)
    (hf : height (Parent parents) nodes id < fuel) (hst : st.Good parents) :
    ∃ st', getAncestors parents fuel id st = some st' ∧ Traced parents id st st' := by
  induction fuel generalizing id st with
  | zero => omega
  | succ fuel ih =>
    rw [getAncestors]
    split_ifs with hdone
    · refine ⟨st, rfl, hst, List.Subset.refl _, fun p hp => ?_⟩
      rcases (Bool.or_eq_true _ _).mp hdone with hnone | htraversed
      · obtain ⟨q, hq, -⟩ := TransGen.head'_iff.mp hp
        rw [Parent, List.isEmpty_iff.mp hnone] at hq
        cases hq
      · exact hst id (of_decide_eq_true htraversed) p hp
    · have hstep : ∀ p ∈ parents id, ∀ st : Search, st.Good parents → ∃ st',
          getAncestors parents fuel p { st with found := st.found ++ [p] } = some st' ∧
            p ∈ st'.found ∧ Traced parents p st st' := by
        intro p hp st hst
        have hlt : height (Parent parents) nodes p < fuel :=
          lt_of_lt_of_le (height_lt hac (hmem id p hp) hp) (Nat.lt_succ_iff.mp hf)
        have hgood : Search.Good parents { st with found := st.found ++ [p] } :=
          fun i hi q hq => List.mem_append_left _ (hst i hi q hq)
        obtain ⟨st', h', htraced⟩ := ih p _ hlt hgood
        refine ⟨st', h', htraced.kept (List.mem_append_right _ List.mem_cons_self), htraced.good,
          fun q hq => htraced.kept (List.mem_append_left _ hq), htraced.found⟩
      obtain ⟨st', h', hgood, hkept, hall⟩ := foldlM_traced hstep st hst
      have hfound : ∀ p, TransGen (Parent parents) id p → p ∈ st'.found := by
        intro p hp
        obtain ⟨q, hq, hqp⟩ := TransGen.head'_iff.mp hp
        rcases reflTransGen_iff_eq_or_transGen.mp hqp with rfl | hqp
        · exact (hall p hq).1
        · exact (hall q hq).2 p hqp
      refine ⟨{ st' with traversed := st'.traversed ++ [id] }, ?_, ?_, hkept, hfound⟩
      · rw [h']
        rfl
      · intro i hi p hp
        rcases List.mem_append.mp hi with hi | hi
        · exact hgood i hi p hp
        · rw [List.mem_singleton.mp hi] at hp
          exact hfound p hp

end Search

variable {s s' : State} {links : List Link}

theorem parent_realParents {a b : ℕ} :
    Parent (realParents links) a b ↔ Edge links b a ∧ b ≠ 1 := by
  rw [Parent, realParents, mem_parentsOf]
  simp only [edge_iff, List.mem_filter, decide_eq_true_eq]
  constructor
  · rintro ⟨l, ⟨hl, hne⟩, rfl, rfl⟩
    exact ⟨⟨l, hl, rfl, rfl⟩, hne⟩
  · rintro ⟨⟨l, hl, rfl, rfl⟩, hne⟩
    exact ⟨l, ⟨hl, hne⟩, rfl, rfl⟩

/-- No link leads from `a` to `t`, and no path back. -/
structure Linkable (links : List Link) (a t : ℕ) : Prop where
  noEdge : ¬ Edge links a t
  noPath : ¬ ReflTransGen (Edge links) t a

/-- The selection of a source succeeds, and what it leaves unmarked can be linked. -/
theorem Chart.selectSource (h : Chart s) {a : ℕ} (ha : a ≠ 1) :
    ∃ s' f, selectSourceForLinking s a = some s' ∧
      s' = { s with addLinkSourceNode := some a, addingLink := true, nodes := s.nodes.map f } ∧
      (∀ node, (f node).id = node.id ∧ (f node).isDeleted = node.isDeleted) ∧
      ∀ node ∈ s.nodes, (f node).isInvalidLinkTarget = false → node.id ≠ a → node.id ≠ 1 →
        Linkable s.links a node.id := by
  set children := (s.links.filter fun link => link.source ≠ 1 ∧ link.source = a).map Link.target
    with hchildren
  have hac : Acyclic (Parent (realParents s.links)) := by
    refine Acyclic.mono h.graph.acyclic.swap fun x y hxy => ?_
    exact (parent_realParents.mp hxy).1
  have hmem : ∀ id, ∀ p ∈ realParents s.links id, p ∈ s.links.map Link.source := by
    intro id p hp
    obtain ⟨l, hl, rfl, -⟩ := edge_iff.mp (parent_realParents.mp hp).1
    exact List.mem_map_of_mem hl
  have hfuel : height (Parent (realParents s.links)) (s.links.map Link.source) a <
      s.links.length + 1 := by
    have hle := height_le_length (R := Parent (realParents s.links)) (s.links.map Link.source) a
    rw [List.length_map] at hle
    exact Nat.lt_succ_of_le hle
  obtain ⟨search, hsearch, htraced⟩ := getAncestors_spec hac hmem (s.links.length + 1) a
    ⟨[], children⟩ hfuel fun _ hid => absurd hid List.not_mem_nil
  refine ⟨_, fun node => if node.id ∈ search.found then { node with isInvalidLinkTarget := true }
    else node, ?_, rfl, ?_, ?_⟩
  · rw [selectSourceForLinking, ← hchildren, hsearch]
    rfl
  · intro node
    dsimp only
    split_ifs <;> exact ⟨rfl, rfl⟩
  · intro node _ hmark hne hroot
    have hnot : node.id ∉ search.found := by
      intro hin
      dsimp only at hmark
      rw [if_pos hin] at hmark
      cases hmark
    refine ⟨fun hedge => hnot (htraced.kept ?_), fun hpath => ?_⟩
    · obtain ⟨l, hl, hsource, htarget⟩ := edge_iff.mp hedge
      refine List.mem_map.mpr ⟨l, List.mem_filter.mpr ⟨hl, decide_eq_true ?_⟩, htarget⟩
      exact ⟨fun h1 => ha (hsource.symm.trans h1), hsource⟩
    · rcases reflTransGen_iff_eq_or_transGen.mp hpath with heq | hpath
      · exact hne heq.symm
      · -- the path does not come through the start node, so the search followed it backwards
        have hreal : TransGen (fun x y => Parent (realParents s.links) y x) node.id a := by
          refine path_of_root h.graph.not_target_root (fun x y hxy => ?_) hpath hroot
          by_cases hx : x = 1
          · exact .inr hx
          · exact .inl (parent_realParents.mpr ⟨hxy, hx⟩)
        exact hnot (htraced.found _ (transGen_swap.mp hreal))

end Forail.Visualizer
