import Forail.Ui.ChartGraph

/-! What new and deleted nodes do to the drawn graph. -/

namespace Forail.Visualizer

open Relation Acyclicity

variable {s s' : State}

/-! ### A new node -/

theorem live_append {nodes : List Node} {node : Node} (hd : node.isDeleted = false)
    (hne : node.id ≠ 1) {n : ℕ} : Live (nodes ++ [node]) n ↔ Live nodes n ∨ n = node.id := by
  constructor
  · rintro ⟨x, hmem, hx, hxd, hn⟩
    rcases List.mem_append.mp hmem with hmem | hmem
    · exact .inl ⟨x, hmem, hx, hxd, hn⟩
    · rw [List.mem_singleton.mp hmem] at hx
      exact .inr hx.symm
  · rintro (⟨x, hmem, hx, hxd, hn⟩ | rfl)
    · exact ⟨x, List.mem_append_left _ hmem, hx, hxd, hn⟩
    · exact ⟨node, by simp, rfl, hd, hne⟩

theorem Chart.createNode (h : Chart s) {a : ℕ} (ha : s.addNodeSource = some a)
    (hlive : a = 1 ∨ Live s.nodes a) (htarget : ∀ b, s.addNodeTarget = some b → Edge s.links a b)
    {node : NewNode} (h' : createNode s node = some s') : Chart s' := by
  have hnext := h.not_live_next
  have hne : s.nextNodeId ≠ 1 := Nat.ne_of_gt h.next
  have hfresh : ∀ x, ¬ Edge s.links x s.nextNodeId := fun x hx => hnext (h.graph.target x _ hx)
  have hfresh' : ∀ y, ¬ Edge s.links s.nextNodeId y := fun y hy =>
    (h.graph.source _ y hy).elim hne hnext
  rw [Visualizer.createNode, ha] at h'
  cases h'
  set linkType : LinkType := if a = 1 then .always else node.linkType
  have hnodes : Live (s.nodes ++ [⟨s.nextNodeId, none, node.isApprovalTemplate, false, false, false⟩])
      = fun v => Live s.nodes v ∨ v = s.nextNodeId := by
    funext v
    rw [live_append rfl hne]
  have hunique : ((s.links ++ [(⟨a, s.nextNodeId, linkType, false⟩ : Link)]).map Link.ends).Nodup := by
    rw [List.map_append, List.map_singleton]
    refine List.nodup_append.mpr ⟨h.unique, List.nodup_singleton _, fun e he e' he' heq => ?_⟩
    rw [List.mem_singleton.mp he'] at heq
    rw [heq] at he
    exact hfresh a he
  have hids : ((s.nodes ++ [(⟨s.nextNodeId, none, node.isApprovalTemplate, false, false, false⟩ :
      Node)]).map Node.id).Nodup := by
    rw [List.map_append, List.map_singleton]
    refine List.nodup_append.mpr ⟨h.ids, List.nodup_singleton _, fun i hi j hj hij => ?_⟩
    obtain ⟨x, hx, rfl⟩ := List.mem_map.mp hi
    rw [List.mem_singleton.mp hj] at hij
    exact Nat.ne_of_lt (h.issued x hx) hij
  have hissued : ∀ x ∈ s.nodes ++ [(⟨s.nextNodeId, none, node.isApprovalTemplate, false, false,
      false⟩ : Node)], x.id < s.nextNodeId + 1 := by
    intro x hx
    rcases List.mem_append.mp hx with hx | hx
    · exact Nat.lt_succ_of_lt (h.issued x hx)
    · rw [List.mem_singleton.mp hx]
      exact Nat.lt_succ_self _
  cases ht : s.addNodeTarget with
  | none =>
    refine ⟨?_, hunique, hids, hissued, Nat.lt_succ_of_lt h.next⟩
    have hedge : Edge (s.links ++ [⟨a, s.nextNodeId, linkType, false⟩]) =
        withEdge (Edge s.links) a s.nextNodeId := by
      funext x y
      rw [edge_append, edge_singleton]
      rfl
    change RootedDag 1 (Live (s.nodes ++ [_])) (Edge (s.links ++ [_]))
    rw [hnodes, hedge]
    exact h.graph.addLeaf hlive hnext hne
  | some b =>
    have hab := htarget b ht
    have hedge : ∀ x y, Edge ((s.links ++ [(⟨a, s.nextNodeId, linkType, false⟩ : Link)]).map
        fun link => if link.source = a ∧ link.target = b then { link with source := s.nextNodeId }
        else link) x y ↔ (Edge s.links x y ∧ ¬(x = a ∧ y = b)) ∨ (x = a ∧ y = s.nextNodeId) ∨
          (x = s.nextNodeId ∧ y = b) := by
      intro x y
      have hnb : s.nextNodeId ≠ b := fun he => hfresh a (he ▸ hab)
      simp only [edge_iff, List.mem_map, List.mem_append, List.mem_singleton]
      constructor
      · rintro ⟨l, ⟨k, hk | rfl, rfl⟩, hx, hy⟩
        · split_ifs at hx hy with hkab
          · exact .inr (.inr ⟨hx.symm, by rw [← hy, ← hkab.2]⟩)
          · exact .inl ⟨⟨k, hk, hx, hy⟩, by rw [← hx, ← hy]; exact hkab⟩
        · rw [if_neg fun hc => hnb hc.2] at hx hy
          exact .inr (.inl ⟨hx.symm, hy.symm⟩)
      · rintro (⟨⟨k, hk, rfl, rfl⟩, hne'⟩ | ⟨rfl, rfl⟩ | ⟨rfl, rfl⟩)
        · exact ⟨k, ⟨k, .inl hk, if_neg hne'⟩, rfl, rfl⟩
        · exact ⟨_, ⟨_, .inr rfl, if_neg fun hc => hnb hc.2⟩, rfl, rfl⟩
        · obtain ⟨k, hk, hka, hkb⟩ := edge_iff.mp hab
          exact ⟨_, ⟨k, .inl hk, if_pos ⟨hka, hkb⟩⟩, rfl, hkb⟩
    refine ⟨?_, ?_, hids, hissued, Nat.lt_succ_of_lt h.next⟩
    · have heq : Edge ((s.links ++ [(⟨a, s.nextNodeId, linkType, false⟩ : Link)]).map
          fun link => if link.source = a ∧ link.target = b then { link with source := s.nextNodeId }
          else link) = fun x y => (Edge s.links x y ∧ ¬(x = a ∧ y = b)) ∨
          (x = a ∧ y = s.nextNodeId) ∨ (x = s.nextNodeId ∧ y = b) := by
        funext x y
        rw [hedge]
      change RootedDag 1 (Live (s.nodes ++ [_])) (Edge ((s.links ++ [_]).map _))
      rw [hnodes, heq]
      exact h.graph.subdivide hab hnext hne
    · -- the moved link starts from the new node, which had no link to this target
      change (((s.links ++ [_]).map _).map Link.ends).Nodup
      rw [List.map_map]
      have hnb : s.nextNodeId ≠ b := fun he => hfresh a (he ▸ hab)
      have hsource : ∀ l ∈ s.links ++ [(⟨a, s.nextNodeId, linkType, false⟩ : Link)],
          l.source ≠ s.nextNodeId := by
        intro l hl he
        rcases List.mem_append.mp hl with hl | hl
        · exact hfresh' l.target (he ▸ Edge.of_mem hl)
        · rw [List.mem_singleton.mp hl] at he
          exact hlive.elim (fun ha1 => hne (he ▸ ha1)) fun hla => hnext (he ▸ hla)
      refine List.Nodup.map_on ?_ hunique.of_map
      intro l hl l' hl' heq
      refine List.inj_on_of_nodup_map hunique hl hl' ?_
      simp only [Function.comp] at heq
      split_ifs at heq with hc hc' hc'
      · rw [Link.ends, Link.ends, hc.1, hc.2, hc'.1, hc'.2]
      · exact absurd (congrArg Prod.fst heq).symm (hsource l' hl')
      · exact absurd (congrArg Prod.fst heq) (hsource l hl)
      · exact heq

/-! ### A deleted node -/

theorem ids_markDeleted (n : ℕ) (nodes : List Node) :
    (markDeleted n nodes).map Node.id = nodes.map Node.id := by
  induction nodes with
  | nil => rfl
  | cons node nodes ih =>
    rw [markDeleted]
    split_ifs
    · rfl
    · rw [List.map_cons, List.map_cons, ih]

theorem live_markDeleted {n : ℕ} {nodes : List Node} (h : (nodes.map Node.id).Nodup) {v : ℕ} :
    Live (markDeleted n nodes) v ↔ Live nodes v ∧ v ≠ n := by
  have hmem : ∀ node, node.isDeleted = false →
      (node ∈ markDeleted n nodes ↔ node ∈ nodes ∧ node.id ≠ n) := by
    intro node hd
    induction nodes with
    | nil => simp [markDeleted]
    | cons x nodes ih =>
      rw [List.map_cons, List.nodup_cons] at h
      rw [markDeleted]
      split_ifs with hx
      · constructor
        · intro hm
          rcases List.mem_cons.mp hm with rfl | hm
          · cases hd
          · refine ⟨List.mem_cons_of_mem _ hm, fun hn => h.1 ?_⟩
            rw [hx, ← hn]
            exact List.mem_map_of_mem hm
        · rintro ⟨hm, hn⟩
          rcases List.mem_cons.mp hm with rfl | hm
          · exact absurd hx hn
          · exact List.mem_cons_of_mem _ hm
      · rw [List.mem_cons, List.mem_cons, ih h.2]
        constructor
        · rintro (rfl | ⟨hm, hn⟩)
          · exact ⟨.inl rfl, hx⟩
          · exact ⟨.inr hm, hn⟩
        · rintro ⟨rfl | hm, hn⟩
          · exact .inl rfl
          · exact .inr ⟨hm, hn⟩
  constructor
  · rintro ⟨node, hm, rfl, hd, hne⟩
    obtain ⟨hm, hn⟩ := (hmem node hd).mp hm
    exact ⟨⟨node, hm, rfl, hd, hne⟩, hn⟩
  · rintro ⟨⟨node, hm, rfl, hd, hne⟩, hn⟩
    exact ⟨node, (hmem node hd).mpr ⟨hm, hn⟩, rfl, hd, hne⟩

section Delete

variable {n : ℕ} {links : List Link}

theorem edge_reverse {a b : ℕ} : Edge links.reverse a b ↔ Edge links a b := by
  rw [Edge, List.map_reverse, List.mem_reverse]
  rfl

theorem edge_newLinks {x y : ℕ} : Edge (removeLinksFromDeletedNode n links).newLinks x y ↔
    Edge links x y ∧ x ≠ n ∧ y ≠ n := by
  simp only [removeLinksFromDeletedNode, edge_iff, List.mem_filter, decide_eq_true_eq, not_or]
  constructor
  · rintro ⟨l, ⟨hl, hne⟩, rfl, rfl⟩
    exact ⟨⟨l, hl, rfl, rfl⟩, hne⟩
  · rintro ⟨⟨l, hl, rfl, rfl⟩, hne⟩
    exact ⟨l, ⟨hl, hne⟩, rfl, rfl⟩

theorem mem_parents {x : ℕ} : x ∈ (removeLinksFromDeletedNode n links).parents ↔
    Edge links x n ∧ x ≠ n := by
  simp only [removeLinksFromDeletedNode, edge_iff, List.mem_map, List.mem_filter, List.mem_reverse,
    decide_eq_true_eq]
  constructor
  · rintro ⟨l, ⟨hl, hs, ht⟩, rfl⟩
    exact ⟨⟨l, hl, rfl, ht⟩, hs⟩
  · rintro ⟨⟨l, hl, rfl, ht⟩, hs⟩
    exact ⟨l, ⟨hl, hs, ht⟩, rfl⟩

theorem mem_children {y : ℕ} :
    (∃ child ∈ (removeLinksFromDeletedNode n links).children, child.id = y) ↔ Edge links n y := by
  simp only [removeLinksFromDeletedNode, edge_iff, List.mem_map, List.mem_filter, List.mem_reverse,
    decide_eq_true_eq]
  constructor
  · rintro ⟨_, ⟨l, ⟨hl, hs⟩, rfl⟩, rfl⟩
    exact ⟨l, hl, hs, rfl⟩
  · rintro ⟨l, hl, hs, rfl⟩
    exact ⟨_, ⟨l, ⟨hl, hs⟩, rfl⟩, rfl⟩

theorem mem_linkParentMapping {x y : ℕ} :
    x ∈ (removeLinksFromDeletedNode n links).linkParentMapping y ↔ Edge links x y :=
  mem_parentsOf.trans edge_reverse

/-- A link to a child, where the code makes one. -/
theorem linkToChild_eq_some {m : ℕ → List ℕ} {p : ℕ} {child : Child} {l : Link}
    (h : linkToChild m p child = some l) :
    l.ends = (p, child.id) ∧
      (p = 1 ∧ (m child.id).length = 1 ∨ p ≠ 1 ∧ p ∉ m child.id) := by
  unfold linkToChild at h
  split_ifs at h with hp hlen hmem
  · cases h
    exact ⟨rfl, .inl ⟨hp, hlen⟩⟩
  · cases h
    exact ⟨rfl, .inr ⟨hp, hmem⟩⟩

theorem linkToChild_isSome {m : ℕ → List ℕ} {p : ℕ} {child : Child}
    (h : p = 1 ∧ (m child.id).length = 1 ∨ p ≠ 1 ∧ p ∉ m child.id) :
    ∃ l, linkToChild m p child = some l ∧ l.ends = (p, child.id) := by
  unfold linkToChild
  rcases h with ⟨hp, hlen⟩ | ⟨hp, hmem⟩
  · exact ⟨_, by rw [if_pos hp, if_pos hlen], rfl⟩
  · exact ⟨_, by rw [if_neg hp, if_pos hmem], rfl⟩

/-- The links that are made lead to some of the children, in their order. -/
theorem targets_sublist (m : ℕ → List ℕ) (p : ℕ) (children : List Child) :
    ((children.filterMap (linkToChild m p)).map (Prod.snd ∘ Link.ends)).Sublist
      (children.map Child.id) := by
  induction children with
  | nil => exact .slnil
  | cons child children ih =>
    cases hl : linkToChild m p child with
    | none =>
      rw [List.filterMap_cons_none hl, List.map_cons]
      exact ih.cons _
    | some l =>
      have hid : (Prod.snd ∘ Link.ends) l = child.id := by
        rw [Function.comp, (linkToChild_eq_some hl).1]
      rw [List.filterMap_cons_some hl, List.map_cons, List.map_cons, hid]
      exact ih.cons_cons _

end Delete

theorem Chart.deleteNode (h : Chart s) {n : ℕ} (hn : s.nodeToDelete = some n)
    (hlive : Live s.nodes n) (h' : deleteNode s = some s') : Chart s' := by
  rw [Visualizer.deleteNode, hn, Option.bind_some, if_pos hlive.mem_ids] at h'
  cases h'
  set r := removeLinksFromDeletedNode n s.links with hr
  have hrev : (s.links.reverse.map Link.ends).Nodup := by
    rw [List.map_reverse]
    exact List.nodup_reverse.mpr h.unique
  have hchildren : (r.children.map Child.id).Nodup := by
    have heq : r.children.map Child.id =
        (s.links.reverse.filter fun link => link.source = n).map Link.target := by
      rw [hr, removeLinksFromDeletedNode, List.map_map]
      rfl
    rw [heq]
    refine List.Nodup.map_on ?_ (hrev.of_map.filter _)
    intro l hl l' hl' heq
    obtain ⟨hmem, hs⟩ := List.mem_filter.mp hl
    obtain ⟨hmem', hs'⟩ := List.mem_filter.mp hl'
    refine List.inj_on_of_nodup_map hrev hmem hmem' ?_
    rw [Link.ends, Link.ends, heq, of_decide_eq_true hs, of_decide_eq_true hs']
  have hparents : r.parents.Nodup := by
    refine List.Nodup.map_on ?_ (hrev.of_map.filter _)
    intro l hl l' hl' heq
    obtain ⟨hmem, hs⟩ := List.mem_filter.mp hl
    obtain ⟨hmem', hs'⟩ := List.mem_filter.mp hl'
    refine List.inj_on_of_nodup_map hrev hmem hmem' ?_
    rw [Link.ends, Link.ends, heq, (of_decide_eq_true hs).2, (of_decide_eq_true hs').2]
  -- a child without another parent is one that all its links come from the deleted node
  have hlength : ∀ {y}, Edge s.links n y →
      ((r.linkParentMapping y).length = 1 ↔ ∀ p, Edge s.links p y → p = n) := by
    intro y hy
    rw [show r.linkParentMapping y = parentsOf s.links.reverse y from rfl,
      parentsOf_length_eq_one hrev (edge_reverse.mpr hy)]
    exact forall_congr' fun p => by rw [edge_reverse]
  have hadded : ∀ x y, Edge (r.parents.flatMap fun p =>
      r.children.filterMap (linkToChild r.linkParentMapping p)) x y ↔
      Edge s.links x n ∧ x ≠ n ∧ Edge s.links n y ∧
        (x = 1 ∧ (∀ p, Edge s.links p y → p = n) ∨ x ≠ 1 ∧ ¬ Edge s.links x y) := by
    intro x y
    rw [edge_iff]
    constructor
    · rintro ⟨l, hl, rfl, rfl⟩
      obtain ⟨p, hp, hl⟩ := List.mem_flatMap.mp hl
      obtain ⟨child, hchild, hl⟩ := List.mem_filterMap.mp hl
      obtain ⟨hends, hcond⟩ := linkToChild_eq_some hl
      have hsource : l.source = p := congrArg Prod.fst hends
      have htarget : l.target = child.id := congrArg Prod.snd hends
      have hny : Edge s.links n child.id := mem_children.mp ⟨child, hchild, rfl⟩
      rw [hsource, htarget]
      rw [hlength hny, mem_linkParentMapping] at hcond
      exact ⟨(mem_parents.mp hp).1, (mem_parents.mp hp).2, hny, hcond⟩
    · rintro ⟨hxn, hne, hny, hcond⟩
      obtain ⟨child, hchild, rfl⟩ := mem_children.mpr hny
      rw [← hlength hny, ← mem_linkParentMapping (n := n)] at hcond
      obtain ⟨l, hl, hends⟩ := linkToChild_isSome hcond
      refine ⟨l, List.mem_flatMap.mpr ⟨x, mem_parents.mpr ⟨hxn, hne⟩,
        List.mem_filterMap.mpr ⟨child, hchild, hl⟩⟩, ?_, ?_⟩
      · exact congrArg Prod.fst hends
      · exact congrArg Prod.snd hends
  refine ⟨?_, ?_, ?_, fun node hmem => ?_, h.next⟩
  · have hnodes : Live (markDeleted n s.nodes) = fun v => Live s.nodes v ∧ v ≠ n := by
      funext v
      rw [live_markDeleted h.ids]
    have hedge : Edge (addLinksFromParentsToChildren r) = fun x y =>
        (Edge s.links x y ∧ x ≠ n ∧ y ≠ n) ∨ (Edge s.links x n ∧ Edge s.links n y ∧ x ≠ 1) ∨
          (x = 1 ∧ Edge s.links 1 n ∧ Edge s.links n y ∧ ∀ p, Edge s.links p y → p = n) := by
      funext x y
      have hirr : ∀ a, ¬ Edge s.links a a := h.graph.acyclic.irrefl
      rw [addLinksFromParentsToChildren, eq_iff_iff, edge_append, edge_newLinks, hadded]
      constructor
      · rintro (hkept | ⟨hxn, -, hny, ⟨rfl, hall⟩ | ⟨hx1, -⟩⟩)
        · exact .inl hkept
        · exact .inr (.inr ⟨rfl, hxn, hny, hall⟩)
        · exact .inr (.inl ⟨hxn, hny, hx1⟩)
      · rintro (hkept | ⟨hxn, hny, hx1⟩ | ⟨rfl, h1n, hny, hall⟩)
        · exact .inl hkept
        · have hxne : x ≠ n := fun he => hirr n (he ▸ hxn)
          have hyne : y ≠ n := fun he => hirr n (he ▸ hny)
          by_cases hxy : Edge s.links x y
          · exact .inl ⟨hxy, hxne, hyne⟩
          · exact .inr ⟨hxn, hxne, hny, .inr ⟨hx1, hxy⟩⟩
        · exact .inr ⟨h1n, fun he => hirr n (he ▸ h1n), hny, .inl ⟨rfl, hall⟩⟩
    change RootedDag 1 (Live (markDeleted n s.nodes)) (Edge (addLinksFromParentsToChildren r))
    rw [hnodes, hedge]
    exact h.graph.removeVertex hlive
  · change ((addLinksFromParentsToChildren r).map Link.ends).Nodup
    rw [addLinksFromParentsToChildren, List.map_append]
    refine List.nodup_append.mpr ⟨h.unique.sublist (List.filter_sublist.map _), ?_, ?_⟩
    · rw [List.map_flatMap, List.nodup_flatMap]
      have hends : ∀ {p e}, e ∈ (r.children.filterMap (linkToChild r.linkParentMapping p)).map
          Link.ends → e.1 = p := by
        intro p e he
        obtain ⟨l, hl, rfl⟩ := List.mem_map.mp he
        obtain ⟨child, -, hl⟩ := List.mem_filterMap.mp hl
        rw [(linkToChild_eq_some hl).1]
      refine ⟨fun p _ => ?_, hparents.imp fun {p q} hpq => ?_⟩
      · refine List.Nodup.of_map Prod.snd ?_
        refine List.Nodup.sublist ?_ hchildren
        rw [List.map_map]
        exact targets_sublist r.linkParentMapping p r.children
      · intro e hp hq
        exact hpq ((hends hp).symm.trans (hends hq))
    · rintro ⟨x, y⟩ hkept e hadd rfl
      obtain ⟨hxy, -, hyn⟩ := edge_newLinks.mp hkept
      obtain ⟨-, hxn, -, ⟨-, hall⟩ | ⟨-, hnot⟩⟩ := (hadded x y).mp hadd
      · exact hxn (hall x hxy)
      · exact hnot hxy
  · change ((markDeleted n s.nodes).map Node.id).Nodup
    rw [ids_markDeleted]
    exact h.ids
  · have hid : node.id ∈ (markDeleted n s.nodes).map Node.id := List.mem_map_of_mem hmem
    rw [ids_markDeleted] at hid
    obtain ⟨node', hmem', heq⟩ := List.mem_map.mp hid
    rw [← heq]
    exact h.issued node' hmem'

/-- Nothing stays but the start node. -/
theorem Chart.deleteAllNodes (h : Chart s) : Chart (deleteAllNodes s) where
  graph := by
    have hnodes : Live (Visualizer.deleteAllNodes s).nodes = fun _ => False := by
      funext n
      refine eq_false ?_
      rintro ⟨node, hmem, rfl, hd, hne⟩
      obtain ⟨node', -, rfl⟩ := List.mem_map.mp hmem
      by_cases hid : node'.id = 1
      · rw [if_neg (not_not.mpr hid)] at hne
        exact hne hid
      · rw [if_pos hid] at hd
        cases hd
    have hedge : Edge (Visualizer.deleteAllNodes s).links = fun _ _ => False := by
      funext x y
      exact eq_false (List.not_mem_nil (a := (x, y)))
    rw [hnodes, hedge]
    exact RootedDag.empty
  unique := List.nodup_nil
  ids := by
    have hids : (Visualizer.deleteAllNodes s).nodes.map Node.id = s.nodes.map Node.id := by
      rw [Visualizer.deleteAllNodes, List.map_map]
      refine List.map_congr_left fun node _ => ?_
      rw [Function.comp]
      split_ifs <;> rfl
    rw [hids]
    exact h.ids
  issued node hmem := by
    obtain ⟨node', hmem', rfl⟩ := List.mem_map.mp hmem
    split_ifs <;> exact h.issued node' hmem'
  next := h.next

end Forail.Visualizer
