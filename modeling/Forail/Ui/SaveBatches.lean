import Forail.Ui.SaveSteps

/-! What follows when a batch has been served: which rows are given up, and which are added. -/

namespace Forail.Visualizer

open Relation Acyclicity Api Scheduler

/-- A list that has all its results has just these. -/
theorem exists_mapM {α β : Type} {f : α → Option β} {l : List α} (h : ∀ x ∈ l, ∃ y, f x = some y) :
    ∃ ys, l.mapM f = some ys ∧ ∀ y, y ∈ ys ↔ ∃ x ∈ l, f x = some y := by
  induction l with
  | nil => exact ⟨[], rfl, by simp⟩
  | cons x l ih =>
    obtain ⟨y, hy⟩ := h x List.mem_cons_self
    obtain ⟨ys, hys, hmem⟩ := ih fun x' hx' => h x' (List.mem_cons_of_mem _ hx')
    refine ⟨y :: ys, ?_, fun z => ?_⟩
    · rw [List.mapM_cons, hy, hys]
      rfl
    · rw [List.mem_cons, hmem]
      constructor
      · rintro (rfl | ⟨x', hx', hz⟩)
        · exact ⟨x, List.mem_cons_self, hy⟩
        · exact ⟨x', List.mem_cons_of_mem _ hx', hz⟩
      · rintro ⟨x', hx', hz⟩
        rcases List.mem_cons.mp hx' with rfl | hx'
        · exact .inl (Option.some.inj (hz.symm.trans hy))
        · exact .inr ⟨x', hx', hz⟩

variable {links : List Link} {a : Attempt}

/-- When the requests for nodes have been served, the server has the nodes that are drawn. -/
theorem NodesPhase.complete (hp : NodesPhase a) (h : Sane links a) (hnil : a.pending = []) :
    Complete a where
  entered k hk := by
    rcases hp.created k hk with ⟨i, hi⟩ | ⟨b, hb⟩
    · exact hp.entered k i hk hi
    · rw [hnil] at hb
      exact absurd hb List.not_mem_nil
  live n hn := by
    obtain ⟨k, node, hmem, hk, o, ho, rfl⟩ := h.core.saveable.known n hn
    cases hdel : node.isDeleted with
    | false => exact h.core.saveable.drawn.liveId_of_mem hmem ho hdel
    | true =>
      rcases hp.destroyed o.id ⟨node, hmem, hdel, o, ho, rfl⟩ with hpend | hgone
      · rw [hnil] at hpend
        exact absurd hpend List.not_mem_nil
      · exact absurd hn hgone

section LinkMap

variable (h : Sane links a) (hc : Complete a)

include h hc

theorem exists_lookUp {k : ℕ} (hk : Live a.nodes k) : ∃ e, lookUp a.originalLinkMap k = some e ∧
    (k, e) ∈ a.originalLinkMap ∧ HasId a.nodes k e.id := by
  obtain ⟨e, he, hek⟩ := hc.entered k hk
  obtain ⟨e', he'⟩ : ∃ e', a.originalLinkMap.find? (fun entry => entry.1 = k) = some e' := by
    rw [← Option.isSome_iff_exists, List.find?_isSome]
    exact ⟨e, he, decide_eq_true hek⟩
  have hmem := List.mem_of_find?_eq_some he'
  have hkey := List.find?_some he'
  simp only [decide_eq_true_eq] at hkey
  subst hkey
  exact ⟨e'.2, by rw [lookUp, he']; rfl, hmem, (h.core.entries e' hmem).2⟩

/-- Both ends of a link that does not leave the start node have their entries. -/
theorem exists_realEnds {l : Link} (hl : l ∈ links) (hne : l.source ≠ 1) :
    ∃ source target, realEnds a.originalLinkMap l = some (source, target, l) ∧
      (l.source, source) ∈ a.originalLinkMap ∧ HasId a.nodes l.source source.id ∧
        HasId a.nodes l.target target.id := by
  have hgraph := h.core.saveable.drawn.graph
  obtain ⟨source, hs, hsmem, hsid⟩ := exists_lookUp h hc
    ((hgraph.source _ _ (Edge.of_mem hl)).resolve_left hne)
  obtain ⟨target, ht, -, htid⟩ := exists_lookUp h hc (hgraph.target _ _ (Edge.of_mem hl))
  refine ⟨source, target, ?_, hsmem, hsid, htid⟩
  rw [realEnds, hs, ht]
  rfl

/-- The link map tells what is drawn, and the new links what the chart has no record of. -/
theorem generate_spec : ∃ linkMap newLinks,
    generateLinkMapAndNewLinks a.originalLinkMap links = some (linkMap, newLinks) ∧
      (∀ t x y, linked linkMap x y = some t ↔ Drawn a.nodes links t x y) ∧
      (∀ l ∈ newLinks, l ∈ links ∧ l.source ≠ 1) ∧
      ∀ t x y, Drawn a.nodes links t x y → Recorded a.originalLinkMap t x y ∨
        ∃ l ∈ newLinks, l.linkType = t ∧ HasId a.nodes l.source x ∧ HasId a.nodes l.target y := by
  have hd := h.core.saveable.drawn
  have hreal : ∀ l ∈ links.filter fun link => link.source ≠ 1, ∃ ends,
      realEnds a.originalLinkMap l = some ends := by
    intro l hl
    obtain ⟨hl, hne⟩ := List.mem_filter.mp hl
    obtain ⟨source, target, hends, -⟩ := exists_realEnds h hc hl (of_decide_eq_true hne)
    exact ⟨_, hends⟩
  obtain ⟨real, hmapM, hmem⟩ := exists_mapM hreal
  -- the entries of a link, from the link and back
  have hmem' : ∀ source target l, (source, target, l) ∈ real → l ∈ links ∧ l.source ≠ 1 ∧
      (l.source, source) ∈ a.originalLinkMap ∧ HasId a.nodes l.source source.id ∧
        HasId a.nodes l.target target.id := by
    intro source target l hin
    obtain ⟨l', hl', heq⟩ := (hmem _).mp hin
    obtain ⟨hl', hne⟩ := List.mem_filter.mp hl'
    obtain ⟨s, t, hends, hrest⟩ := exists_realEnds h hc hl' (of_decide_eq_true hne)
    cases heq.symm.trans hends
    exact ⟨hl', of_decide_eq_true hne, hrest⟩
  have hdrawn : ∀ t x y, Drawn a.nodes links t x y → ∃ source target l,
      (source, target, l) ∈ real ∧ source.id = x ∧ target.id = y ∧ l.linkType = t := by
    rintro t x y ⟨l, hl, hne, rfl, hx, hy⟩
    obtain ⟨source, target, hends, -, hs, ht⟩ := exists_realEnds h hc hl hne
    refine ⟨source, target, l, (hmem _).mpr ⟨l, List.mem_filter.mpr ⟨hl, decide_eq_true hne⟩, hends⟩,
      hd.hasId_inj hs hx, hd.hasId_inj ht hy, rfl⟩
  refine ⟨_, _, by rw [generateLinkMapAndNewLinks, hmapM]; rfl, fun t x y => ?_, fun l hl => ?_,
    fun t x y hdt => ?_⟩
  · have hentry : ∀ e ∈ real.map fun e =>
        (e.1.id, e.2.1.id, e.2.2.linkType), Drawn a.nodes links e.2.2 e.1 e.2.1 := by
      intro e he
      obtain ⟨⟨source, target, l⟩, hin, rfl⟩ := List.mem_map.mp he
      obtain ⟨hl, hne, -, hs, ht⟩ := hmem' source target l hin
      exact ⟨l, hl, hne, rfl, hs, ht⟩
    rw [linked]
    constructor
    · intro hfind
      obtain ⟨e, he, rfl⟩ := Option.map_eq_some_iff.mp hfind
      have hkey := List.find?_some he
      simp only [decide_eq_true_eq] at hkey
      obtain ⟨rfl, rfl⟩ := hkey
      exact hentry e (List.mem_reverse.mp (List.mem_of_find?_eq_some he))
    · intro hdt
      obtain ⟨source, target, l, hin, hx, hy, hlt⟩ := hdrawn t x y hdt
      obtain ⟨e, he⟩ : ∃ e, (real.map fun e =>
          (e.1.id, e.2.1.id, e.2.2.linkType)).reverse.find?
            (fun entry => entry.1 = x ∧ entry.2.1 = y) = some e := by
        rw [← Option.isSome_iff_exists, List.find?_isSome]
        exact ⟨_, List.mem_reverse.mpr (List.mem_map_of_mem hin), decide_eq_true ⟨hx, hy⟩⟩
      have hin' := hentry e (List.mem_reverse.mp (List.mem_of_find?_eq_some he))
      have hkey := List.find?_some he
      simp only [decide_eq_true_eq] at hkey
      obtain ⟨rfl, rfl⟩ := hkey
      rw [he, Option.map_some, hd.drawn_unique hin' hdt]
  · obtain ⟨⟨source, target, l'⟩, hin, rfl⟩ := List.mem_map.mp hl
    obtain ⟨hl', hne, -⟩ := hmem' source target l' (List.mem_filter.mp hin).1
    exact ⟨hl', hne⟩
  · obtain ⟨source, target, l, hin, rfl, rfl, rfl⟩ := hdrawn t x y hdt
    obtain ⟨-, -, hsmem, hs, ht⟩ := hmem' source target l hin
    by_cases hrec : target.id ∈ source.nodes l.linkType
    · exact .inl ⟨_, hsmem, rfl, hrec⟩
    · refine .inr ⟨l, List.mem_map.mpr ⟨(source, target, l), List.mem_filter.mpr ⟨hin, ?_⟩, rfl⟩, rfl,
        hs, ht⟩
      exact decide_eq_true hrec

end LinkMap

theorem mem_disassociateNodes {originalLinkMap : List (ℕ × OriginalLinks)} {deletedNodeIds : List ℕ}
    {linkMap : List (ℕ × ℕ × LinkType)} {r : Request} :
    r ∈ disassociateNodes originalLinkMap deletedNodeIds linkMap ↔
      ∃ t x y, r = .disassociate t x y ∧ Recorded originalLinkMap t x y ∧ y ∉ deletedNodeIds ∧
        linked linkMap x y ≠ some t := by
  simp only [disassociateNodes, List.mem_flatMap, List.mem_map, List.mem_filter, decide_eq_true_eq]
  constructor
  · rintro ⟨⟨k, e⟩, he, t, -, y, ⟨hy, hdel, hlinked⟩, rfl⟩
    exact ⟨t, e.id, y, rfl, ⟨(k, e), he, rfl, hy⟩, hdel, hlinked⟩
  · rintro ⟨t, x, y, rfl, ⟨⟨k, e⟩, he, rfl, hy⟩, hdel, hlinked⟩
    exact ⟨(k, e), he, t, by cases t <;> simp, y, ⟨hy, hdel, hlinked⟩, rfl⟩

/-- No request of a batch for rows creates or deletes a node. -/
theorem once_of_rows {pending : List Request} (h : ∀ r ∈ pending, r.key = none) :
    (pending.filterMap Request.key).Nodup := by
  rw [List.filterMap_eq_nil_iff.mpr h]
  exact List.nodup_nil

/-- From the nodes to the rows that go. -/
theorem Sane.proceed_nodes (h : Sane links a) (hnil : a.pending = []) (hphase : a.phase = .nodes) :
    Sane links (a.proceed links) ∧ (a.proceed links).phase = .disassociating ∧
      ∀ r ∈ (a.proceed links).pending, r.key = none := by
  have hp : NodesPhase a := by
    have hp := h.progress
    rw [Progress, hphase] at hp
    exact hp
  have hc := hp.complete h hnil
  have hd := h.core.saveable.drawn
  obtain ⟨linkMap, newLinks, hgen, hlinked, hnew, hmissing⟩ := generate_spec h hc
  rw [Attempt.proceed, hphase, hgen]
  dsimp only
  have hkey : ∀ r ∈ disassociateNodes a.originalLinkMap a.deletedNodeIds linkMap,
      r.key = none := by
    intro r hr
    obtain ⟨t, x, y, rfl, -⟩ := mem_disassociateNodes.mp hr
    rfl
  refine ⟨⟨h.core, fun r hr => ?_, once_of_rows hkey, fun t x y hr => ?_, ?_⟩, rfl, hkey⟩
  · obtain ⟨t, x, y, rfl, hrec, hdel, hnot⟩ := mem_disassociateNodes.mp hr
    obtain ⟨e, he, rfl, hy⟩ := hrec
    obtain ⟨hlive, hid⟩ := h.core.entries e he
    obtain ⟨-, k, node, hmem, hk, o, ho, rfl⟩ := h.core.covers.known t e.2.id y ⟨e, he, rfl, hy⟩
    refine ⟨⟨e.1, hlive, hid⟩, hd.liveId_of_mem hmem ho ?_, fun hdt => hnot ((hlinked _ _ _).mpr hdt)⟩
    refine Bool.eq_false_iff.mpr fun htrue => hdel ?_
    exact (h.core.deleted o.id).mpr ⟨node, hmem, htrue, o, ho, rfl⟩
  · obtain ⟨t', x', y', heq, -⟩ := mem_disassociateNodes.mp hr
    cases heq
  · refine ⟨⟨hc.entered, hc.live⟩, fun t x y hs => ?_, fun t x y hdt => ?_, hnew⟩
    · have hmem := a.server.template.edges_nodes _ _ hs
      rcases h.core.covers.recorded t x y hs (hc.live x hmem.1) with hrec | hdt
      · by_cases hdt : Drawn a.nodes links t x y
        · exact .inl hdt
        · refine .inr (mem_disassociateNodes.mpr ⟨t, x, y, rfl, hrec, fun hdel => ?_,
            fun hl => hdt ((hlinked t x y).mp hl)⟩)
          obtain ⟨node, hnode, htrue, o, ho, rfl⟩ := (h.core.deleted y).mp hdel
          exact hd.not_liveId hnode ho htrue (hc.live o.id hmem.2)
      · exact .inl hdt
    · rcases hmissing t x y hdt with hrec | hl
      · exact .inl (h.core.covers.kept t x y hrec hdt)
      · exact .inr hl

theorem exists_associateNodes {newLinks : List Link} {originalLinkMap : List (ℕ × OriginalLinks)}
    (h : ∀ l ∈ newLinks, ∃ e, realEnds originalLinkMap l = some e) :
    ∃ requests, associateNodes newLinks originalLinkMap = some requests ∧ ∀ r, r ∈ requests ↔
      ∃ l ∈ newLinks, ∃ e, realEnds originalLinkMap l = some e ∧
        r = .associate l.linkType e.1.id e.2.1.id := by
  obtain ⟨requests, hmapM, hmem⟩ := exists_mapM (f := fun l => (realEnds originalLinkMap l).bind
    fun e => some (Request.associate l.linkType e.1.id e.2.1.id)) fun l hl => by
      obtain ⟨e, he⟩ := h l hl
      exact ⟨_, by rw [he]; rfl⟩
  refine ⟨requests, hmapM, fun r => (hmem r).trans ?_⟩
  simp only [Option.bind_eq_some_iff, Option.some.injEq, eq_comm (a := r)]

/-- From the rows that go to those that come. -/
theorem Sane.proceed_disassociating (h : Sane links a) (hnil : a.pending = [])
    (hphase : a.phase = .disassociating) :
    Sane links (a.proceed links) ∧ (a.proceed links).phase = .associating ∧
      ∀ r ∈ (a.proceed links).pending, r.key = none := by
  have hp : Disassociating links a := by
    have hp := h.progress
    rw [Progress, hphase] at hp
    exact hp
  have hc := hp.toComplete
  have hd := h.core.saveable.drawn
  have hremoved : ∀ t x y, Stored a.server t x y → Drawn a.nodes links t x y := by
    intro t x y hs
    rcases hp.removed t x y hs with hdt | hpend
    · exact hdt
    · rw [hnil] at hpend
      exact absurd hpend List.not_mem_nil
  have hrequest : ∀ l ∈ a.newLinks, ∃ source target, realEnds a.originalLinkMap l = some (source, target, l) ∧
      HasId a.nodes l.source source.id ∧ HasId a.nodes l.target target.id := by
    intro l hl
    obtain ⟨hl, hne⟩ := hp.newLinks l hl
    obtain ⟨source, target, hends, -, hs, ht⟩ := exists_realEnds h hc hl hne
    exact ⟨source, target, hends, hs, ht⟩
  obtain ⟨requests, hassoc, hmem⟩ := exists_associateNodes fun l hl => by
    obtain ⟨source, target, heq, -⟩ := hrequest l hl
    exact ⟨_, heq⟩
  have hvalid : ∀ r ∈ requests, ∃ t x y, r = .associate t x y ∧ Drawn a.nodes links t x y := by
    intro r hr
    obtain ⟨l, hl, e, heq, rfl⟩ := (hmem r).mp hr
    obtain ⟨source, target, heq', hs, ht⟩ := hrequest l hl
    obtain ⟨hl, hne⟩ := hp.newLinks l hl
    rw [heq] at heq'
    cases heq'
    exact ⟨_, _, _, rfl, l, hl, hne, rfl, hs, ht⟩
  rw [Attempt.proceed, hphase, hassoc]
  dsimp only
  have hkey : ∀ r ∈ requests, r.key = none := by
    intro r hr
    obtain ⟨t, x, y, rfl, -⟩ := hvalid r hr
    rfl
  refine ⟨⟨h.core, fun r hr => ?_, once_of_rows hkey, fun _ _ _ _ => hremoved, ?_⟩, rfl, hkey⟩
  · obtain ⟨t, x, y, rfl, hdt⟩ := hvalid r hr
    exact hdt
  · refine ⟨⟨hc.entered, hc.live⟩, hremoved, fun t x y hdt => ?_⟩
    refine (hp.missing t x y hdt).imp_right ?_
    rintro ⟨l, hl, rfl, hx, hy⟩
    obtain ⟨source, target, heq, hs, ht⟩ := hrequest l hl
    rw [hd.hasId_inj hx hs, hd.hasId_inj hy ht]
    exact (hmem _).mpr ⟨l, hl, _, heq, rfl⟩

theorem Sane.proceed_associating (h : Sane links a) (hnil : a.pending = [])
    (hphase : a.phase = .associating) :
    Sane links (a.proceed links) ∧ (a.proceed links).phase = .finishing ∧
      (a.proceed links).pending = [] := by
  have hp : Associating links a := by
    have hp := h.progress
    rw [Progress, hphase] at hp
    exact hp
  rw [Attempt.proceed, hphase]
  dsimp only
  refine ⟨⟨h.core, h.valid, h.once, h.settled, ?_⟩, rfl, hnil⟩
  refine ⟨⟨hp.entered, hp.live⟩, fun t x y => ⟨hp.removed t x y, fun hdt => ?_⟩, hnil⟩
  rcases hp.added t x y hdt with hs | hpend
  · exact hs
  · rw [hnil] at hpend
    exact absurd hpend List.not_mem_nil

theorem Sane.proceed_finishing (h : Sane links a) (hphase : a.phase = .finishing) :
    Sane links (a.proceed links) ∧ (a.proceed links).phase = .done ∧
      (a.proceed links).pending = [] := by
  have hp : Finished links a := by
    have hp := h.progress
    rw [Progress, hphase] at hp
    exact hp
  rw [Attempt.proceed, hphase]
  dsimp only
  exact ⟨⟨h.core, h.valid, h.once, h.settled, ⟨hp.entered, hp.live⟩, hp.rows, hp.none⟩, rfl,
    hp.none⟩

theorem Sane.proceed (h : Sane links a) (hnil : a.pending = []) (hdone : a.phase ≠ .done)
    (hfailed : a.phase ≠ .failed) : Sane links (a.proceed links) ∧
      (a.proceed links).phase ≠ .failed ∧ ∀ r ∈ (a.proceed links).pending, r.key = none := by
  cases hphase : a.phase with
  | nodes =>
    obtain ⟨hs, hp, hkey⟩ := h.proceed_nodes hnil hphase
    exact ⟨hs, (by rw [hp]; rintro ⟨⟩), hkey⟩
  | disassociating =>
    obtain ⟨hs, hp, hkey⟩ := h.proceed_disassociating hnil hphase
    exact ⟨hs, (by rw [hp]; rintro ⟨⟩), hkey⟩
  | associating =>
    obtain ⟨hs, hp, hnone⟩ := h.proceed_associating hnil hphase
    exact ⟨hs, (by rw [hp]; rintro ⟨⟩), hnone ▸ fun r hr => absurd hr List.not_mem_nil⟩
  | finishing =>
    obtain ⟨hs, hp, hnone⟩ := h.proceed_finishing hphase
    exact ⟨hs, (by rw [hp]; rintro ⟨⟩), hnone ▸ fun r hr => absurd hr List.not_mem_nil⟩
  | done => exact absurd hphase hdone
  | failed => exact absurd hphase hfailed

end Forail.Visualizer
