import Forail.Ui.EventLevels
import Mathlib.Data.Finset.Card

/-! Arrivals of a job's events. Whatever the order and the batches in which they arrive, an event is put under
its parent or waits for it, and those that wait for a new event are put below it. When all have arrived the tree
has them all and none waits. -/

namespace Forail.JobEvents

namespace Node

mutual

def preorder : Node → List Node
  | mk eventIndex isCollapsed children => mk eventIndex isCollapsed children :: preorderAll children

def preorderAll : List Node → List Node
  | [] => []
  | node :: rest => preorder node ++ preorderAll rest

end

theorem preorder_eq (node : Node) : node.preorder = node :: preorderAll node.children := by
  cases node
  rw [preorder, children]

theorem preorderAll_eq (nodes : List Node) : preorderAll nodes = nodes.flatMap preorder := by
  induction nodes with
  | nil => rw [preorderAll, List.flatMap_nil]
  | cons node nodes ih => rw [preorderAll, ih, List.flatMap_cons]

theorem mem_preorderAll {node : Node} {nodes : List Node} :
    node ∈ preorderAll nodes ↔ ∃ n ∈ nodes, node = n ∨ node ∈ preorderAll n.children := by
  simp only [preorderAll_eq nodes, List.mem_flatMap, preorder_eq, List.mem_cons]

end Node

open Node

variable {υ : Type}

mutual

theorem mem_of_getNodeByIndex {index : ℕ} {found : Node} :
    ∀ {nodes : List Node}, getNodeByIndex index nodes = some found → found ∈ preorderAll nodes
  | [], h => by simp [getNodeByIndex] at h
  | node :: rest, h => by
    rw [getNodeByIndex] at h
    rw [preorderAll, List.mem_append]
    split_ifs at h
    · obtain rfl : node = found := Option.some.inj h
      exact .inl (preorder_eq node ▸ List.mem_cons_self)
    · exact .inl (mem_of_getNodeBelow h)
    · exact .inr (mem_of_getNodeByIndex h)

theorem mem_of_getNodeBelow {index : ℕ} {found : Node} :
    ∀ {node : Node}, getNodeBelow index node = some found → found ∈ preorder node
  | .mk _ _ _, h => by
    rw [getNodeBelow] at h
    rw [preorder]
    exact List.mem_cons_of_mem _ (mem_of_getNodeByIndex h)

end

namespace Shows

variable {E P : Set (Event υ)} {parent : Option υ} {nodes : List Node}

/-- Below a level are the events that are in the subtrees of its events. -/
theorem mem_preorder_iff (hP : P ⊆ E) (hclosed : ∀ f ∈ P, ∀ y, InSubtree E y f → y ∈ P)
    (h : Shows P parent nodes) (c : ℕ) : c ∈ (preorderAll nodes).map eventIndex ↔
      ∃ x ∈ P, x.parentUuid = parent ∧ ∃ e ∈ P, InSubtree E x e ∧ e.counter = c := by
  induction h with
  | intro sorted exact _ ih =>
    rename_i parent nodes
    rw [List.mem_map]
    constructor
    · rintro ⟨node, hnode, rfl⟩
      obtain ⟨n, hn, hcase⟩ := mem_preorderAll.mp hnode
      obtain ⟨x, hx, hparent, hcounter⟩ := (exact n.eventIndex).mp (List.mem_map_of_mem hn)
      refine ⟨x, hx, hparent, ?_⟩
      obtain rfl | hbelow := hcase
      · exact ⟨x, hx, .refl, hcounter⟩
      · obtain ⟨y, hy, hyparent, e, he, hsub, heq⟩ := (ih n hn x hx hcounter).mp (List.mem_map_of_mem hbelow)
        exact ⟨e, he, .head ⟨hP hx, hP hy, hyparent⟩ hsub, heq⟩
    · rintro ⟨x, hx, hparent, e, he, hsub, rfl⟩
      obtain ⟨n, hn, hcounter⟩ := List.mem_map.mp ((exact x.counter).mpr ⟨x, hx, hparent, rfl⟩)
      obtain rfl | ⟨y, hstep, hrest⟩ := hsub.cases_head
      · exact ⟨n, mem_preorderAll.mpr ⟨n, hn, .inl rfl⟩, hcounter⟩
      · have hmem := (ih n hn x hx hcounter.symm).mpr ⟨y, hclosed e he y hrest, hstep.2.2, e, he, hrest, rfl⟩
        obtain ⟨node, hnode, heq⟩ := List.mem_map.mp hmem
        exact ⟨node, mem_preorderAll.mpr ⟨n, hn, .inr hnode⟩, heq⟩

/-- The whole tree is in the order of the counters. -/
theorem pairwise_preorder (hE : IsForest E) (hP : P ⊆ E) (hclosed : ∀ f ∈ P, ∀ y, InSubtree E y f → y ∈ P)
    (h : Shows P parent nodes) : ((preorderAll nodes).map eventIndex).Pairwise (· < ·) := by
  induction h with
  | intro sorted exact below ih =>
    rename_i parent nodes
    have hbelow : ∀ n ∈ nodes, ∀ d ∈ preorderAll n.children, ∃ x ∈ P, x.parentUuid = parent ∧
        x.counter = n.eventIndex ∧ ∃ e ∈ P, InSubtree E x e ∧ x ≠ e ∧ e.counter = d.eventIndex := by
      intro n hn d hd
      obtain ⟨x, hx, hparent, hcounter⟩ := (exact n.eventIndex).mp (List.mem_map_of_mem hn)
      have hmem := (below n hn x hx hcounter).mem_preorder_iff hP hclosed d.eventIndex
      obtain ⟨y, hy, hyparent, e, he, hsub, heq⟩ := hmem.mp (List.mem_map_of_mem hd)
      have hstep : IsParent E x y := ⟨hP hx, hP hy, hyparent⟩
      refine ⟨x, hx, hparent, hcounter, e, he, .head hstep hsub, ?_, heq⟩
      rintro rfl
      have hlt := hE.lt_of_parent hstep
      have hle := hE.le_of_inSubtree hsub
      omega
    rw [List.pairwise_map, preorderAll_eq, List.pairwise_flatMap]
    constructor
    · intro n hn
      obtain ⟨x, hx, -, hcounter⟩ := (exact n.eventIndex).mp (List.mem_map_of_mem hn)
      rw [preorder_eq, List.pairwise_cons]
      refine ⟨fun d hd => ?_, List.pairwise_map.mp (ih n hn x hx hcounter)⟩
      obtain ⟨x, hx, -, hcounter, e, he, hsub, hne, heq⟩ := hbelow n hn d hd
      have hle := hE.le_of_inSubtree hsub
      have hdiff : x.counter ≠ e.counter := fun heq => hne (hE.counter_inj x (hP hx) e (hP he) heq)
      omega
    · refine (List.pairwise_map.mp sorted).imp_of_mem fun {n₁ n₂} hn₁ hn₂ hlt d₁ hd₁ d₂ hd₂ => ?_
      have hle : n₂.eventIndex ≤ d₂.eventIndex := by
        rw [preorder_eq, List.mem_cons] at hd₂
        obtain rfl | hd₂ := hd₂
        · exact le_rfl
        · obtain ⟨x, hx, -, hcounter, e, he, hsub, -, heq⟩ := hbelow n₂ hn₂ d₂ hd₂
          have hle := hE.le_of_inSubtree hsub
          omega
      have hlt : d₁.eventIndex < n₂.eventIndex := by
        rw [preorder_eq, List.mem_cons] at hd₁
        obtain rfl | hd₁ := hd₁
        · exact hlt
        · obtain ⟨x, hx, hparent, hcounter, e, he, hsub, -, heq⟩ := hbelow n₁ hn₁ d₁ hd₁
          obtain ⟨y, hy, hyparent, hycounter⟩ := (exact n₂.eventIndex).mp (List.mem_map_of_mem hn₂)
          have hsame : x.parentUuid = y.parentUuid := hparent.trans hyparent.symm
          have hlt := hE.lt_of_siblings hsub (hP he) (hP hy) hsame (by omega)
          omega
      omega

end Shows

namespace State

variable [DecidableEq υ]

/-- The tree has the events of `P`, and those that wait do so for an event that has not arrived. -/
structure Holds (E P : Set (Event υ)) (state : State υ) : Prop where
  sub : P ⊆ E
  closed : ∀ f ∈ P, ∀ y, InSubtree E y f → y ∈ P
  tree : Shows P none state.tree
  events : ∀ c, (state.events.get? c).isSome = true ↔ ∃ e ∈ P, e.counter = c
  uuidMap : ∀ u c, state.uuidMap.get? u = some c ↔ ∃ e ∈ P, e.uuid = u ∧ e.counter = c
  missing : ∀ u l, state.eventsWithoutParents.get? u = some l → ∃ p ∈ E, p ∉ P ∧ p.uuid = u
  waiting : ∀ u l, state.eventsWithoutParents.get? u = some l → ∀ e ∈ l, e ∈ E ∧ e.parentUuid = some u
  assigned : ∀ e ∈ E, state.withParent e = e

/-- An event is in the tree or waits. -/
def Has (state : State υ) (P : Set (Event υ)) (e : Event υ) : Prop :=
  e ∈ P ∨ ∃ u l, state.eventsWithoutParents.get? u = some l ∧ e ∈ l

/-- No event gets lost. -/
structure Extends (state : State υ) (P : Set (Event υ)) (state' : State υ) (P' : Set (Event υ)) : Prop where
  sub : P ⊆ P'
  has : ∀ e, state.Has P e → state'.Has P' e
  metaEventParentUuid : state'.metaEventParentUuid = state.metaEventParentUuid

theorem Extends.refl (state : State υ) (P : Set (Event υ)) : Extends state P state P :=
  ⟨subset_rfl, fun _ h => h, rfl⟩

theorem Extends.trans {state₁ state₂ state₃ : State υ} {P₁ P₂ P₃ : Set (Event υ)}
    (h₁₂ : Extends state₁ P₁ state₂ P₂) (h₂₃ : Extends state₂ P₂ state₃ P₃) : Extends state₁ P₁ state₃ P₃ where
  sub := h₁₂.sub.trans h₂₃.sub
  has e he := h₂₃.has e (h₁₂.has e he)
  metaEventParentUuid := h₂₃.metaEventParentUuid.trans h₁₂.metaEventParentUuid

/-- The number of parents that events wait for. -/
def numMissing (state : State υ) : ℕ := state.eventsWithoutParents.keys.length

/-- Without the events that wait for a parent. -/
def forget (state : State υ) (uuid : υ) : State υ :=
  { state with eventsWithoutParents := state.eventsWithoutParents.erase uuid }

omit [DecidableEq υ] in
theorem withParent_congr {state state' : State υ}
    (h : state'.metaEventParentUuid = state.metaEventParentUuid) (event : Event υ) :
    state'.withParent event = state.withParent event := by
  rw [withParent, withParent, h]

namespace Holds

variable {E P : Set (Event υ)} {state : State υ} {e p : Event υ}

theorem forget (h : Holds E P state) (uuid : υ) : Holds E P (state.forget uuid) where
  __ := h
  missing u l hl := by
    rw [State.forget, Dict.get?_erase] at hl
    split_ifs at hl
    exact h.missing u l hl
  waiting u l hl := by
    rw [State.forget, Dict.get?_erase] at hl
    split_ifs at hl
    exact h.waiting u l hl

/-- Nothing waits for an event of the tree. -/
theorem get?_none (h : Holds E P state) (hE : IsForest E) (he : e ∈ P) :
    state.eventsWithoutParents.get? e.uuid = none := by
  by_contra hne
  obtain ⟨l, hl⟩ := Option.ne_none_iff_exists'.mp hne
  obtain ⟨p, hp, hnot, hu⟩ := h.missing _ l hl
  exact hnot (hE.uuid_inj p hp e (h.sub he) hu ▸ he)

theorem indexOf_eq (h : Holds E P state) (hE : IsForest E) (he : e ∈ P) : state.indexOf e.uuid = some e.counter := by
  have hget : state.uuidMap.get? e.uuid = some e.counter := (h.uuidMap _ _).mpr ⟨e, he, rfl, rfl⟩
  have hpos := hE.pos e (h.sub he)
  rw [indexOf, hget, Option.filter_some, if_pos (by simpa using (by omega : e.counter ≠ 0))]

theorem indexOf_eq_none (h : Holds E P state) (hE : IsForest E) (hp : p ∈ E) (hnot : p ∉ P) :
    state.indexOf p.uuid = none := by
  have hget : state.uuidMap.get? p.uuid = none := by
    by_contra hne
    obtain ⟨c, hc⟩ := Option.ne_none_iff_exists'.mp hne
    obtain ⟨f, hf, hu, -⟩ := (h.uuidMap _ c).mp hc
    exact hnot (hE.uuid_inj f (h.sub hf) p hp hu ▸ hf)
  rw [indexOf, hget]
  rfl

/-- The root above an event. -/
theorem exists_root (h : Holds E P state) (hE : IsForest E) (he : e ∈ P) :
    ∃ x ∈ P, x.parentUuid = none ∧ InSubtree E x e := by
  induction hc : e.counter using Nat.strong_induction_on generalizing e with
  | _ c ih =>
    subst hc
    cases hparent : e.parentUuid with
    | none => exact ⟨e, he, hparent, .refl⟩
    | some u =>
      obtain ⟨p, hp, rfl, hlt⟩ := hE.parent e (h.sub he) u hparent
      have hstep : IsParent E p e := ⟨hp, h.sub he, hparent⟩
      obtain ⟨x, hx, hroot, hsub⟩ := ih p.counter hlt (h.closed e he p (.single hstep)) rfl
      exact ⟨x, hx, hroot, hsub.tail hstep⟩

theorem getNodeByUuid_eq (h : Holds E P state) (hE : IsForest E) (he : e ∈ P) :
    ∃ node, state.getNodeByUuid e.uuid = some node ∧ getNodeByIndex e.counter state.tree = some node ∧
      node.eventIndex = e.counter ∧ Shows P (some e.uuid) node.children := by
  obtain ⟨x, hx, hroot, hsub⟩ := h.exists_root hE he
  obtain ⟨node, hnode, hindex, hbelow⟩ := h.tree.getNodeByIndex_eq hE h.sub hx hroot (h.closed e he) hsub
  refine ⟨node, ?_, hnode, hindex, hbelow⟩
  rw [getNodeByUuid, h.indexOf_eq hE he]
  exact hnode

/-- A new event whose parent has arrived is in the tree, and what waits for it is about to be added. -/
theorem store (h : Holds E P state) (hE : IsForest E) (he : e ∈ E) (hparent : ∀ q, IsParent E q e → q ∈ P)
    {tree : List Node} (htree : Shows (insert e P) none tree) :
    Holds E (insert e P) (({ state with tree := tree }.store e).forget e.uuid) where
  sub := Set.insert_subset he h.sub
  closed f hf y hsub := by
    obtain rfl | hf := hf
    · obtain rfl | ⟨q, hrest, hstep⟩ := hsub.cases_tail
      · exact Set.mem_insert _ P
      · exact Set.mem_insert_of_mem _ (h.closed q (hparent q hstep) y hrest)
    · exact Set.mem_insert_of_mem e (h.closed f hf y hsub)
  tree := htree
  events c := by
    rw [State.forget, State.store, Dict.get?_set]
    split_ifs with hc
    · exact ⟨fun _ => ⟨e, Set.mem_insert e P, hc.symm⟩, fun _ => rfl⟩
    · rw [h.events]
      constructor
      · rintro ⟨f, hf, hcounter⟩
        exact ⟨f, Set.mem_insert_of_mem e hf, hcounter⟩
      · rintro ⟨f, rfl | hf, hcounter⟩
        · exact absurd hcounter.symm hc
        · exact ⟨f, hf, hcounter⟩
  uuidMap u c := by
    rw [State.forget, State.store, Dict.get?_set]
    split_ifs with hu
    · subst hu
      constructor
      · intro hc
        exact ⟨e, Set.mem_insert e P, rfl, Option.some.inj hc⟩
      · rintro ⟨f, hf, hfu, rfl⟩
        have hfE : f ∈ E := Set.insert_subset he h.sub hf
        rw [hE.uuid_inj f hfE e he hfu]
    · rw [h.uuidMap]
      constructor
      · rintro ⟨f, hf, hrest⟩
        exact ⟨f, Set.mem_insert_of_mem e hf, hrest⟩
      · rintro ⟨f, rfl | hf, hfu, hcounter⟩
        · exact absurd hfu.symm hu
        · exact ⟨f, hf, hfu, hcounter⟩
  missing u l hl := by
    rw [State.forget, State.store, Dict.get?_erase] at hl
    split_ifs at hl with hu
    obtain ⟨p, hp, hnot, rfl⟩ := h.missing u l hl
    refine ⟨p, hp, ?_, rfl⟩
    rintro (rfl | hin)
    · exact hu rfl
    · exact hnot hin
  waiting u l hl := by
    rw [State.forget, State.store, Dict.get?_erase] at hl
    split_ifs at hl
    exact h.waiting u l hl
  assigned f hf := (withParent_congr rfl f).trans (h.assigned f hf)

end Holds

/-! ### Adding events -/

variable {E P : Set (Event υ)} {state : State υ} {e p q : Event υ}

theorem has_forget (h : state.Has P e) {uuid : υ} (hnot : ∀ l, state.eventsWithoutParents.get? uuid = some l → e ∉ l) :
    (state.forget uuid).Has P e := by
  obtain he | ⟨u, l, hl, he⟩ := h
  · exact .inl he
  · refine .inr ⟨u, l, ?_, he⟩
    rw [State.forget, Dict.get?_erase, if_neg, hl]
    rintro rfl
    exact hnot l hl he

theorem numMissing_forget_le (state : State υ) (uuid : υ) : (state.forget uuid).numMissing ≤ state.numMissing := by
  rw [numMissing, State.forget, Dict.keys_erase]
  exact List.length_filter_le _ _

theorem numMissing_forget_lt {uuid : υ} {l : List (Event υ)}
    (hl : state.eventsWithoutParents.get? uuid = some l) : (state.forget uuid).numMissing < state.numMissing := by
  rw [numMissing, State.forget, Dict.keys_erase, numMissing]
  apply List.length_filter_lt_length_iff_exists.mpr
  exact ⟨uuid, Dict.mem_keys_of_get? hl, by simp⟩

/-- What a function that gathers the events of a new parent does. -/
def Gathers (E : Set (Event υ)) (fuel : ℕ) (gather : State υ → υ → Option (State υ)) : Prop :=
  ∀ (P : Set (Event υ)) (state : State υ) (q : Event υ), q ∈ P → Holds E P (state.forget q.uuid) →
    (∀ l, state.eventsWithoutParents.get? q.uuid = some l → ∀ e ∈ l, e ∈ E ∧ e.parentUuid = some q.uuid) →
    state.numMissing < fuel → ∃ state' P', gather state q.uuid = some state' ∧ Holds E P' state' ∧
      Extends state P state' P' ∧ state'.numMissing ≤ state.numMissing

variable {fuel : ℕ} {gather : State υ → υ → Option (State υ)}

theorem addEvent_of_some (hassigned : state.withParent e = e) (hget : (state.events.get? e.counter).isSome = true) :
    addEvent false gather state e = gather { state with events := state.events.set e.counter e } e.uuid := by
  unfold addEvent
  rw [hassigned]
  exact if_pos hget

theorem addEvent_root (hassigned : state.withParent e = e) (hget : ¬(state.events.get? e.counter).isSome = true)
    (hparent : e.parentUuid = none) : addEvent false gather state e = gather (state.addRootLevelEvent e) e.uuid := by
  simp only [addEvent, hassigned, hparent]
  exact if_neg hget

theorem addEvent_nested (hassigned : state.withParent e = e) (hget : ¬(state.events.get? e.counter).isSome = true)
    {u : υ} (hparent : e.parentUuid = some u) :
    addEvent false gather state e = (state.addNestedLevelEvent e u).bind fun result =>
      if result.2 then gather result.1 e.uuid else some (result.1.addEventWithoutParent e u) := by
  simp only [addEvent, hassigned, hparent]
  exact if_neg hget

/-- A new event whose parent has arrived is put under it. -/
theorem addEvent_new (hE : IsForest E) (hgather : Gathers E fuel gather) (h : Holds E P state) (he : e ∈ E)
    (hnew : e ∉ P) (hparent : ∀ q, IsParent E q e → q ∈ P) (hfuel : state.numMissing < fuel) :
    ∃ state' P', addEvent false gather state e = some state' ∧ Holds E P' state' ∧ Extends state P state' P' ∧
      state'.numMissing ≤ state.numMissing ∧ e ∈ P' := by
  have hevents : ¬(state.events.get? e.counter).isSome = true := by
    rw [h.events]
    rintro ⟨f, hf, hcounter⟩
    exact hnew (hE.counter_inj f (h.sub hf) e he hcounter ▸ hf)
  -- Both ways to add the event differ in the new tree only.
  have hstored : ∀ tree, Shows (insert e P) none tree → ∃ state' P',
      gather ({ state with tree := tree }.store e) e.uuid = some state' ∧ Holds E P' state' ∧
        Extends state P state' P' ∧ state'.numMissing ≤ state.numMissing ∧ e ∈ P' := by
    intro tree htree
    obtain ⟨state', P', hsome, hholds, hext, hle⟩ := hgather (insert e P) ({ state with tree := tree }.store e) e
      (Set.mem_insert e P) (h.store hE he hparent htree) (fun l hl => h.waiting e.uuid l hl) hfuel
    refine ⟨state', P', hsome, hholds, ⟨(Set.subset_insert e P).trans hext.sub, fun f hf => ?_, ?_⟩, hle,
      hext.sub (Set.mem_insert e P)⟩
    · apply hext.has f
      exact hf.imp_left fun hf => Set.mem_insert_of_mem e hf
    · exact hext.metaEventParentUuid
  cases hcase : e.parentUuid with
  | none =>
    rw [addEvent_root (h.assigned e he) hevents hcase]
    apply hstored
    have htree := h.tree
    rw [← hcase] at htree ⊢
    exact htree.insert_level hE h.sub he hnew h.closed state.isAllCollapsed
  | some u =>
    obtain ⟨q, hq, rfl, -⟩ := hE.parent e he u hcase
    have hstep : IsParent E q e := ⟨hq, he, hcase⟩
    have hqP : q ∈ P := hparent q hstep
    obtain ⟨node, hnode, hget, -, hbelow⟩ := h.getNodeByUuid_eq hE hqP
    obtain ⟨x, hx, hroot, hsub⟩ := h.exists_root hE hqP
    have hfresh := hbelow.counter_not_mem hE h.sub he hnew
    have hlevel := hbelow
    rw [← hcase] at hlevel
    have hlevel := hlevel.insert_level hE h.sub he hnew h.closed state.isAllCollapsed
    rw [hcase, ← findIdx?_le_eq e.counter node.children hfresh] at hlevel
    obtain ⟨update, hdef⟩ : ∃ update : Node → Node, update = fun n => .mk n.eventIndex n.isCollapsed
        (splice (node.children.findIdx? fun m => e.counter ≤ m.eventIndex) (.mk e.counter state.isAllCollapsed [])
          n.children) := ⟨_, rfl⟩
    have hupdate : ∀ n, getNodeByIndex q.counter state.tree = some n →
        (update n).eventIndex = n.eventIndex ∧ Shows (insert e P) (some q.uuid) (update n).children := by
      intro n hn
      obtain rfl : n = node := Option.some.inj (hn.symm.trans hget)
      rw [hdef]
      exact ⟨rfl, hlevel⟩
    obtain ⟨tree, htree, hshows⟩ := h.tree.updateNodeByIndex_eq hE h.sub he hnew hx hroot (h.closed q hqP) hsub hstep
      hupdate
    rw [hdef] at htree
    have hadd : state.addNestedLevelEvent e q.uuid = some ({ state with tree := tree }.store e, true) := by
      simp only [addNestedLevelEvent, hnode, updateNodeByUuid, h.indexOf_eq hE hqP, Option.bind_eq_bind,
        Option.bind_some, htree]
    rw [addEvent_nested (h.assigned e he) hevents hcase, hadd]
    exact hstored tree hshows

/-- An event that is there already is replaced by itself. -/
theorem addEvent_old (hgather : Gathers E fuel gather) (h : Holds E P state) (he : e ∈ P)
    (hfuel : state.numMissing < fuel) :
    ∃ state' P', addEvent false gather state e = some state' ∧ Holds E P' state' ∧ Extends state P state' P' ∧
      state'.numMissing ≤ state.numMissing ∧ e ∈ P' := by
  have hevents : (state.events.get? e.counter).isSome = true := (h.events _).mpr ⟨e, he, rfl⟩
  have hset : Holds E P { state with events := state.events.set e.counter e } :=
    { h with
      events := fun c => by
        rw [Dict.get?_set]
        split_ifs with hc
        · exact ⟨fun _ => ⟨e, he, hc.symm⟩, fun _ => rfl⟩
        · exact h.events c
      assigned := fun f hf => (withParent_congr rfl f).trans (h.assigned f hf) }
  obtain ⟨state', P', hsome, hholds, hext, hle⟩ := hgather P _ e he (hset.forget e.uuid)
    (fun l hl => h.waiting e.uuid l hl) hfuel
  refine ⟨state', P', ?_, hholds, ⟨hext.sub, hext.has, hext.metaEventParentUuid⟩, hle, hext.sub he⟩
  rw [addEvent_of_some (h.assigned e (h.sub he)) hevents]
  exact hsome

theorem addEvent_arrived (hE : IsForest E) (hgather : Gathers E fuel gather) (h : Holds E P state) (he : e ∈ E)
    (hparent : ∀ q, IsParent E q e → q ∈ P) (hfuel : state.numMissing < fuel) :
    ∃ state' P', addEvent false gather state e = some state' ∧ Holds E P' state' ∧ Extends state P state' P' ∧
      state'.numMissing ≤ state.numMissing ∧ e ∈ P' := by
  by_cases hold : e ∈ P
  · exact addEvent_old hgather h hold hfuel
  · exact addEvent_new hE hgather h he hold hparent hfuel

/-- The events of a parent in the tree are added one by one. -/
theorem foldlM_addEvent (hE : IsForest E) (hgather : Gathers E fuel gather) (h : Holds E P state) (hq : q ∈ P)
    {l : List (Event υ)} (hl : ∀ e ∈ l, e ∈ E ∧ e.parentUuid = some q.uuid) (hfuel : state.numMissing < fuel) :
    ∃ state' P', l.foldlM (addEvent false gather) state = some state' ∧ Holds E P' state' ∧
      Extends state P state' P' ∧ state'.numMissing ≤ state.numMissing ∧ ∀ e ∈ l, e ∈ P' := by
  induction l generalizing P state with
  | nil => exact ⟨state, P, rfl, h, .refl state P, le_rfl, by simp⟩
  | cons e l ih =>
    obtain ⟨he, hparent⟩ := hl e List.mem_cons_self
    have harrived : ∀ q', IsParent E q' e → q' ∈ P := by
      intro q' hq'
      rwa [hE.parent_unique hq' ⟨h.sub hq, he, hparent⟩]
    obtain ⟨state₁, P₁, hsome₁, hholds₁, hext₁, hle₁, hin₁⟩ := addEvent_arrived hE hgather h he harrived hfuel
    obtain ⟨state₂, P₂, hsome₂, hholds₂, hext₂, hle₂, hin₂⟩ := ih hholds₁ (hext₁.sub hq)
      (fun f hf => hl f (List.mem_cons_of_mem e hf)) (by omega)
    refine ⟨state₂, P₂, ?_, hholds₂, hext₁.trans hext₂, hle₂.trans hle₁, fun f hf => ?_⟩
    · rw [List.foldlM_cons, hsome₁]
      exact hsome₂
    · obtain rfl | hf := List.mem_cons.mp hf
      · exact hext₂.sub hin₁
      · exact hin₂ f hf

theorem gathers (hE : IsForest E) (fuel : ℕ) : Gathers E fuel (gatherEventsForNewParent false fuel) := by
  induction fuel with
  | zero =>
    intro P state q _ _ _ hfuel
    omega
  | succ fuel ih =>
    intro P state q hq h hwaiting hfuel
    cases hget : state.eventsWithoutParents.get? q.uuid with
    | none =>
      refine ⟨state, P, by rw [gatherEventsForNewParent, hget], ?_, .refl state P, le_rfl⟩
      have hforget : state.forget q.uuid = state := by
        rw [State.forget, Dict.erase_of_get?_none hget]
      rwa [hforget] at h
    | some l =>
      have hlt := numMissing_forget_lt hget
      obtain ⟨state', P', hsome, hholds, hext, hle, hin⟩ := foldlM_addEvent hE ih h hq (hwaiting l hget) (by omega)
      refine ⟨state', P', ?_, hholds, ⟨hext.sub, fun e he => ?_, hext.metaEventParentUuid⟩, by omega⟩
      · rw [gatherEventsForNewParent, hget]
        exact hsome
      · by_cases hel : e ∈ l
        · exact .inl (hin e hel)
        · apply hext.has e
          apply has_forget he
          intro l' hl'
          obtain rfl : l = l' := Option.some.inj (hget.symm.trans hl')
          exact hel

/-- An event whose parent has not arrived waits for it. -/
theorem addEvent_waiting (gather : State υ → υ → Option (State υ)) (hE : IsForest E) (h : Holds E P state) (he : e ∈ E) (hp : IsParent E p e) (hnot : p ∉ P) :
    ∃ state', addEvent false gather state e = some state' ∧ Holds E P state' ∧ Extends state P state' P ∧
      state'.Has P e := by
  have hnew : e ∉ P := fun hin => hnot (h.closed e hin p (.single hp))
  have hevents : ¬(state.events.get? e.counter).isSome = true := by
    rw [h.events]
    rintro ⟨f, hf, hcounter⟩
    exact hnew (hE.counter_inj f (h.sub hf) e he hcounter ▸ hf)
  have hadd : state.addNestedLevelEvent e p.uuid = some (state, false) := by
    rw [addNestedLevelEvent, getNodeByUuid, h.indexOf_eq_none hE hp.1 hnot]
    rfl
  have hget : ∀ u, (state.addEventWithoutParent e p.uuid).eventsWithoutParents.get? u =
      if u = p.uuid then some (state.eventsWithoutParents.getD p.uuid [] ++ [e])
      else state.eventsWithoutParents.get? u := fun u => Dict.get?_set ..
  have hold : ∀ f ∈ state.eventsWithoutParents.getD p.uuid [],
      ∃ l, state.eventsWithoutParents.get? p.uuid = some l ∧ f ∈ l := by
    intro f hf
    rw [Dict.getD] at hf
    cases hl : state.eventsWithoutParents.get? p.uuid with
    | none => simp [hl] at hf
    | some l => exact ⟨l, rfl, by simpa [hl] using hf⟩
  refine ⟨state.addEventWithoutParent e p.uuid, ?_, ?_, ⟨subset_rfl, fun f hf => ?_, rfl⟩, ?_⟩
  · rw [addEvent_nested (h.assigned e he) hevents hp.2.2, hadd]
    rfl
  · refine { h with missing := fun u l hl => ?_, waiting := fun u l hl f hf => ?_, assigned := fun f hf => ?_ }
    · rw [hget] at hl
      split_ifs at hl with hu
      · exact ⟨p, hp.1, hnot, hu.symm⟩
      · exact h.missing u l hl
    · rw [hget] at hl
      split_ifs at hl with hu
      · subst hu
        obtain rfl := Option.some.inj hl
        obtain hf | hf := List.mem_append.mp hf
        · obtain ⟨l, hl, hfl⟩ := hold f hf
          exact h.waiting _ l hl f hfl
        · obtain rfl := List.mem_singleton.mp hf
          exact ⟨he, hp.2.2⟩
      · exact h.waiting u l hl f hf
    · exact (withParent_congr rfl f).trans (h.assigned f hf)
  · obtain hf | ⟨u, l, hl, hf⟩ := hf
    · exact .inl hf
    · by_cases hu : u = p.uuid
      · subst hu
        refine .inr ⟨p.uuid, _, (hget _).trans (if_pos rfl), List.mem_append_left _ ?_⟩
        simpa [Dict.getD, hl] using hf
      · exact .inr ⟨u, l, (hget u).trans ((if_neg hu).trans hl), hf⟩
  · exact .inr ⟨p.uuid, _, (hget _).trans (if_pos rfl), by simp⟩

omit [DecidableEq υ] in
theorem withParent_withParent (state : State υ) (event : Event υ) :
    state.withParent (state.withParent event) = state.withParent event := by
  unfold withParent
  cases hparent : event.parentUuid with
  | some u => simp [hparent]
  | none => cases state.metaEventParentUuid.get? event.counter <;> simp

theorem addEvent_withParent (gather : State υ → υ → Option (State υ)) (state : State υ) (event : Event υ) :
    addEvent false gather state event = addEvent false gather state (state.withParent event) := by
  unfold addEvent
  rw [withParent_withParent]

/-- One delivered event, on any state. -/
theorem addEvent_spec (hE : IsForest E) (hgather : Gathers E fuel gather) (h : Holds E P state)
    (he : state.withParent e ∈ E) (hfuel : state.numMissing < fuel) :
    ∃ state' P', addEvent false gather state e = some state' ∧ Holds E P' state' ∧ Extends state P state' P' ∧
      state'.Has P' (state.withParent e) := by
  rw [addEvent_withParent]
  by_cases harrived : ∀ q, IsParent E q (state.withParent e) → q ∈ P
  · obtain ⟨state', P', hsome, hholds, hext, -, hin⟩ := addEvent_arrived hE hgather h he harrived hfuel
    exact ⟨state', P', hsome, hholds, hext, .inl hin⟩
  · push Not at harrived
    obtain ⟨p, hp, hnot⟩ := harrived
    obtain ⟨state', hsome, hholds, hext, hhas⟩ := addEvent_waiting gather hE h he hp hnot
    exact ⟨state', P, hsome, hholds, hext, hhas⟩

/-- There are no more missing parents than events. -/
theorem Holds.numMissing_le {E : Finset (Event υ)} (h : Holds ↑E P state) : state.numMissing ≤ E.card := by
  have hsub : state.eventsWithoutParents.keys.toFinset ⊆ E.image Event.uuid := by
    intro u hu
    obtain ⟨l, hl⟩ := Dict.get?_of_mem_keys (List.mem_toFinset.mp hu)
    obtain ⟨p, hp, -, rfl⟩ := h.missing u l hl
    exact Finset.mem_image_of_mem _ hp
  calc state.numMissing = state.eventsWithoutParents.keys.toFinset.card :=
        (List.toFinset_card_of_nodup state.eventsWithoutParents.nodup).symm
    _ ≤ (E.image Event.uuid).card := Finset.card_le_card hsub
    _ ≤ E.card := Finset.card_image_le

/-- One action. -/
theorem addEvents_spec {E : Finset (Event υ)} (hE : IsForest (E : Set (Event υ))) (hfuel : E.card < fuel)
    (h : Holds ↑E P state) {newEvents : List (Event υ)} (hnew : ∀ e ∈ newEvents, state.withParent e ∈ E) :
    ∃ state' P', state.addEvents false fuel newEvents = some state' ∧ Holds ↑E P' state' ∧
      Extends state P state' P' ∧ ∀ e ∈ newEvents, state'.Has P' (state.withParent e) := by
  rw [addEvents]
  induction newEvents generalizing P state with
  | nil => exact ⟨state, P, rfl, h, .refl state P, by simp⟩
  | cons e newEvents ih =>
    have hle := h.numMissing_le
    obtain ⟨state₁, P₁, hsome₁, hholds₁, hext₁, hhas₁⟩ := addEvent_spec hE (gathers hE fuel) h
      (hnew e List.mem_cons_self) (by omega)
    have hsame := fun f => withParent_congr hext₁.metaEventParentUuid f
    obtain ⟨state₂, P₂, hsome₂, hholds₂, hext₂, hhas₂⟩ := ih hholds₁ fun f hf => by
      rw [hsame]
      exact hnew f (List.mem_cons_of_mem e hf)
    refine ⟨state₂, P₂, ?_, hholds₂, hext₁.trans hext₂, fun f hf => ?_⟩
    · rw [List.foldlM_cons, hsome₁]
      exact hsome₂
    · obtain rfl | hf := List.mem_cons.mp hf
      · exact hext₂.has _ hhas₁
      · rw [← hsame]
        exact hhas₂ f hf

/-- A run of actions. -/
theorem run_spec {E : Finset (Event υ)} (hE : IsForest (E : Set (Event υ))) (hfuel : E.card < fuel)
    (h : Holds ↑E P state) {actions : List (List (Event υ))}
    (hactions : ∀ newEvents ∈ actions, ∀ e ∈ newEvents, state.withParent e ∈ E) :
    ∃ state' P', actions.foldlM (addEvents false fuel) state = some state' ∧ Holds ↑E P' state' ∧
      Extends state P state' P' ∧ ∀ newEvents ∈ actions, ∀ e ∈ newEvents, state'.Has P' (state.withParent e) := by
  induction actions generalizing P state with
  | nil => exact ⟨state, P, rfl, h, .refl state P, by simp⟩
  | cons newEvents actions ih =>
    obtain ⟨state₁, P₁, hsome₁, hholds₁, hext₁, hhas₁⟩ := addEvents_spec hE hfuel h
      (hactions newEvents List.mem_cons_self)
    have hsame := fun f => withParent_congr hext₁.metaEventParentUuid f
    obtain ⟨state₂, P₂, hsome₂, hholds₂, hext₂, hhas₂⟩ := ih hholds₁ fun l hl f hf => by
      rw [hsame]
      exact hactions l (List.mem_cons_of_mem newEvents hl) f hf
    refine ⟨state₂, P₂, ?_, hholds₂, hext₁.trans hext₂, fun l hl f hf => ?_⟩
    · rw [List.foldlM_cons, hsome₁]
      exact hsome₂
    · obtain rfl | hl := List.mem_cons.mp hl
      · exact hext₂.has _ (hhas₁ f hf)
      · rw [← hsame]
        exact hhas₂ l hl f hf

/-- When every event has come none waits, since the first that did would wait for an earlier one. -/
theorem Holds.complete (h : Holds E P state) (hE : IsForest E) (hall : ∀ e ∈ E, state.Has P e) : P = E := by
  apply subset_antisymm h.sub
  intro e he
  induction hc : e.counter using Nat.strong_induction_on generalizing e with
  | _ c ih =>
    subst hc
    obtain hin | ⟨u, l, hl, hel⟩ := hall e he
    · exact hin
    · obtain ⟨p, hp, hnot, rfl⟩ := h.missing u l hl
      have hstep : IsParent E p e := ⟨hp, he, (h.waiting _ l hl e hel).2⟩
      exact absurd (ih p.counter (hE.lt_of_parent hstep) hp rfl) hnot

omit [DecidableEq υ] in
theorem Shows.empty : Shows (∅ : Set (Event υ)) none [] :=
  ⟨List.Pairwise.nil, fun c => by simp, fun n hn => absurd hn List.not_mem_nil⟩

/-- Whatever the order and the batches in which a job's events are delivered, the tree has each of them once,
under its parent and in the order of the counters, none waits, and each is found by its uuid. -/
theorem addEvents_exact (childrenSummary : Dict ℕ ℕ) (metaEventParentUuid : Dict ℕ υ) (E : Finset (Event υ))
    (hE : IsForest (E : Set (Event υ))) (actions : List (List (Event υ)))
    (hactions : ∀ e, e ∈ E ↔ ∃ newEvents ∈ actions, ∃ d ∈ newEvents,
      (initialState.setChildrenSummary childrenSummary metaEventParentUuid).withParent d = e)
    (fuel : ℕ) (hfuel : E.card < fuel) :
    ∃ state, actions.foldlM (addEvents false fuel)
        (initialState.setChildrenSummary childrenSummary metaEventParentUuid) = some state ∧
      Shows (E : Set (Event υ)) none state.tree ∧
      ((preorderAll state.tree).map eventIndex).Pairwise (· < ·) ∧
      (∀ c, c ∈ (preorderAll state.tree).map eventIndex ↔ ∃ e ∈ E, e.counter = c) ∧
      state.eventsWithoutParents = .empty ∧
      ∀ e ∈ E, ∃ node, state.getNodeByUuid e.uuid = some node ∧ node ∈ preorderAll state.tree ∧
        node.eventIndex = e.counter ∧ Shows ↑E (some e.uuid) node.children := by
  have hstart : Holds ↑E ∅ (initialState.setChildrenSummary childrenSummary metaEventParentUuid) := by
    refine ⟨Set.empty_subset _, by simp, Shows.empty, by simp [initialState, setChildrenSummary],
      by simp [initialState, setChildrenSummary], by simp [initialState, setChildrenSummary],
      by simp [initialState, setChildrenSummary], fun e he => ?_⟩
    obtain ⟨_, -, d, -, rfl⟩ := (hactions e).mp he
    exact withParent_withParent _ d
  obtain ⟨state, P, hsome, hholds, -, hhas⟩ := run_spec hE hfuel hstart fun newEvents hn d hd =>
    (hactions _).mpr ⟨newEvents, hn, d, hd, rfl⟩
  obtain rfl : P = (E : Set (Event υ)) := hholds.complete hE fun e he => by
    obtain ⟨newEvents, hn, d, hd, rfl⟩ := (hactions e).mp he
    exact hhas newEvents hn d hd
  refine ⟨state, hsome, hholds.tree, hholds.tree.pairwise_preorder hE hholds.sub hholds.closed, fun c => ?_, ?_,
    fun e he => ?_⟩
  · rw [hholds.tree.mem_preorder_iff hholds.sub hholds.closed]
    constructor
    · rintro ⟨x, -, -, e, he, -, hcounter⟩
      exact ⟨e, he, hcounter⟩
    · rintro ⟨e, he, hcounter⟩
      obtain ⟨x, hx, hroot, hsub⟩ := hholds.exists_root hE he
      exact ⟨x, hx, hroot, e, he, hsub, hcounter⟩
  · apply Dict.eq_empty_of_get?
    intro u
    by_contra hne
    obtain ⟨l, hl⟩ := Option.ne_none_iff_exists'.mp hne
    obtain ⟨p, hp, hnot, -⟩ := hholds.missing u l hl
    exact hnot hp
  · obtain ⟨node, hnode, hget, hindex, hbelow⟩ := hholds.getNodeByUuid_eq hE he
    exact ⟨node, hnode, mem_of_getNodeByIndex hget, hindex, hbelow⟩

def play : Event String := ⟨1, "play", none, 0⟩

def task : Event String := ⟨2, "task", some "play", 1⟩

theorem isForest_play_task : IsForest (({play, task} : Finset (Event String)) : Set (Event String)) := by
  have hmem : ∀ e, e ∈ (({play, task} : Finset (Event String)) : Set (Event String)) ↔ e = play ∨ e = task := by
    simp
  have hplay := (hmem play).mpr (.inl rfl)
  have htask := (hmem task).mpr (.inr rfl)
  refine ⟨fun e he => ?_, fun e he f hf h => ?_, fun e he f hf h => ?_, fun e he u hu => ?_,
    fun p hp e _ f hf _ hle _ => ?_⟩
  · obtain rfl | rfl := (hmem e).mp he <;> decide
  · obtain rfl | rfl := (hmem e).mp he <;> obtain rfl | rfl := (hmem f).mp hf <;> first | rfl | cases h
  · obtain rfl | rfl := (hmem e).mp he <;> obtain rfl | rfl := (hmem f).mp hf <;> first | rfl | simp [play, task] at h
  · obtain rfl | rfl := (hmem e).mp he
    · cases hu
    · exact ⟨play, hplay, Option.some.inj hu, by decide⟩
  · obtain rfl | rfl := (hmem p).mp hp <;> obtain rfl | rfl := (hmem f).mp hf
    · exact .refl
    · exact .single ⟨hplay, htask, rfl⟩
    · exact absurd hle (by decide)
    · exact .refl

/-- A task that comes before its play, which the server has assigned to it. -/
theorem addEvents_exact_task_first :
    ∃ state, [[{ task with parentUuid := none }], [play]].foldlM (addEvents false 3)
        (initialState.setChildrenSummary .empty (Dict.empty.set 2 "play")) = some state ∧
      state.eventsWithoutParents = .empty ∧
      ∀ c, c ∈ (preorderAll state.tree).map eventIndex ↔ ∃ e ∈ ({play, task} : Finset (Event String)), e.counter = c := by
  have hactions : ∀ e, e ∈ ({play, task} : Finset (Event String)) ↔
      ∃ newEvents ∈ [[{ task with parentUuid := none }], [play]], ∃ d ∈ newEvents,
        (initialState.setChildrenSummary .empty (Dict.empty.set 2 "play")).withParent d = e := by
    intro e
    have hplay : (initialState.setChildrenSummary .empty (Dict.empty.set 2 "play")).withParent play = play := by decide
    have htask : (initialState.setChildrenSummary .empty (Dict.empty.set 2 "play")).withParent
        { task with parentUuid := none } = task := by decide
    simp [hplay, htask, eq_comm, or_comm]
  obtain ⟨state, hrun, -, -, hmem, hempty, -⟩ := addEvents_exact .empty (Dict.empty.set 2 "play") {play, task}
    isForest_play_task _ hactions 3 (by decide)
  exact ⟨state, hrun, hempty, hmem⟩

end State

end Forail.JobEvents
