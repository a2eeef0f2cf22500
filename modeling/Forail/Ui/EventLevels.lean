import Forail.Ui.JobEvents
import Mathlib.Data.List.Sort
import Mathlib.Logic.Relation
import Mathlib.Tactic.Common

/-! Levels of the tree of a job's events. The events are a forest with contiguous subtrees; a level has the
events of one parent in the order of their counters, and below each of them the level of its children. So the
search by counters finds a node, and a new event keeps the levels when it is put under its parent. -/

namespace Forail.JobEvents

variable {υ : Type}

def IsParent (E : Set (Event υ)) (p e : Event υ) : Prop := p ∈ E ∧ e ∈ E ∧ e.parentUuid = some p.uuid

/-- An event is another one or below it. -/
def InSubtree (E : Set (Event υ)) (p e : Event υ) : Prop := Relation.ReflTransGen (IsParent E) p e

/-- Events with distinct positive counters and distinct uuids, whose parents precede them and whose subtrees are
contiguous in the order of the counters. -/
structure IsForest (E : Set (Event υ)) : Prop where
  pos : ∀ e ∈ E, 1 ≤ e.counter
  counter_inj : ∀ e ∈ E, ∀ f ∈ E, e.counter = f.counter → e = f
  uuid_inj : ∀ e ∈ E, ∀ f ∈ E, e.uuid = f.uuid → e = f
  parent : ∀ e ∈ E, ∀ u, e.parentUuid = some u → ∃ p ∈ E, p.uuid = u ∧ p.counter < e.counter
  contiguous : ∀ p ∈ E, ∀ e ∈ E, ∀ f ∈ E, InSubtree E p e → p.counter ≤ f.counter → f.counter ≤ e.counter →
    InSubtree E p f

/-- The nodes are the events of `P` with a parent, each once and in the order of the counters, and so are the
children of each node. -/
inductive Shows (P : Set (Event υ)) : Option υ → List Node → Prop
  | intro {parent : Option υ} {nodes : List Node}
      (sorted : (nodes.map Node.eventIndex).Pairwise (· < ·))
      (exact : ∀ c, c ∈ nodes.map Node.eventIndex ↔ ∃ e ∈ P, e.parentUuid = parent ∧ e.counter = c)
      (below : ∀ node ∈ nodes, ∀ e ∈ P, e.counter = node.eventIndex → Shows P (some e.uuid) node.children) :
      Shows P parent nodes

namespace IsForest

variable {E : Set (Event υ)} {p q e f : Event υ}

theorem lt_of_parent (h : IsForest E) (hp : IsParent E p e) : p.counter < e.counter := by
  obtain ⟨q, hq, hu, hlt⟩ := h.parent e hp.2.1 p.uuid hp.2.2
  have heq : q = p := h.uuid_inj q hq p hp.1 hu
  exact heq ▸ hlt

theorem parent_unique (h : IsForest E) (hp : IsParent E p e) (hq : IsParent E q e) : p = q := by
  have hu : some p.uuid = some q.uuid := hp.2.2.symm.trans hq.2.2
  exact h.uuid_inj p hp.1 q hq.1 (Option.some.inj hu)

theorem le_of_inSubtree (h : IsForest E) (hp : InSubtree E p e) : p.counter ≤ e.counter := by
  induction hp with
  | refl => exact le_rfl
  | tail _ hstep ih =>
    have hlt := h.lt_of_parent hstep
    omega

theorem mem_of_inSubtree (hp : InSubtree E p e) (he : e ∈ E) : p ∈ E := by
  induction hp using Relation.ReflTransGen.head_induction_on with
  | refl => exact he
  | head hstep => exact hstep.1

/-- Nothing is below its own sibling. -/
theorem eq_of_siblings (h : IsForest E) (hsub : InSubtree E p e) (hsame : p.parentUuid = e.parentUuid) : p = e := by
  cases hsub with
  | refl => rfl
  | tail hrest hstep =>
    rename_i q
    have hp : p ∈ E := mem_of_inSubtree hrest hstep.1
    have hlt := h.lt_of_parent ⟨hstep.1, hp, hsame.trans hstep.2.2⟩
    have hle := h.le_of_inSubtree hrest
    omega

/-- Of two siblings, what is below the one precedes the other. -/
theorem lt_of_siblings (h : IsForest E) {x y : Event υ} (hsub : InSubtree E x e) (he : e ∈ E) (hy : y ∈ E)
    (hsame : x.parentUuid = y.parentUuid) (hlt : x.counter < y.counter) : e.counter < y.counter := by
  by_contra hle
  have hx : x ∈ E := mem_of_inSubtree hsub he
  have hxy : InSubtree E x y := h.contiguous x hx e he y hy hsub (by omega) (by omega)
  have heq := h.eq_of_siblings hxy hsame
  rw [heq] at hlt
  exact absurd hlt (lt_irrefl _)

/-- An event is below one of its siblings' events at most. -/
theorem sibling_unique (h : IsForest E) {x y : Event υ} (hx : InSubtree E x e) (hy : InSubtree E y e) (he : e ∈ E)
    (hsame : x.parentUuid = y.parentUuid) : x = y := by
  have hxE : x ∈ E := mem_of_inSubtree hx he
  have hyE : y ∈ E := mem_of_inSubtree hy he
  have hxle := h.le_of_inSubtree hx
  have hyle := h.le_of_inSubtree hy
  obtain hlt | heq | hlt := lt_trichotomy x.counter y.counter
  · have hlt := h.lt_of_siblings hx he hyE hsame hlt
    omega
  · exact h.counter_inj x hxE y hyE heq
  · have hlt := h.lt_of_siblings hy he hxE hsame.symm hlt
    omega

end IsForest

/-! ### The search -/

theorem isLastBefore_append {target : ℕ} (l₁ : List Node) (node : Node) (l₂ : List Node)
    (hl : ∀ n ∈ l₁, n.eventIndex ≤ target) (hn : node.eventIndex ≤ target) :
    isLastBefore target (l₁ ++ node :: l₂) = false := by
  cases l₁ with
  | nil => simpa [isLastBefore] using hn
  | cons n l₁ => simpa [isLastBefore] using hl n List.mem_cons_self

theorem isLastBefore_of_forall {target : ℕ} {l : List Node} (h : ∀ n ∈ l, target < n.eventIndex) :
    isLastBefore target l = true := by
  cases l with
  | nil => rfl
  | cons n l => simpa [isLastBefore] using h n List.mem_cons_self

/-- A node between those that precede the target and those behind it. -/
structure Splits (target : ℕ) (l₁ : List Node) (node : Node) (l₂ : List Node) : Prop where
  before : ∀ n ∈ l₁, n.eventIndex < node.eventIndex
  le : node.eventIndex ≤ target
  behind : ∀ n ∈ l₂, target < n.eventIndex

theorem Splits.of_cons {target : ℕ} {n : Node} {l₁ : List Node} {node : Node} {l₂ : List Node}
    (h : Splits target (n :: l₁) node l₂) : Splits target l₁ node l₂ where
  before m hm := h.before m (List.mem_cons_of_mem n hm)
  le := h.le
  behind := h.behind

theorem getNodeByIndex_split {target : ℕ} {l₁ : List Node} {node : Node} {l₂ : List Node}
    (h : Splits target l₁ node l₂) : getNodeByIndex target (l₁ ++ node :: l₂) =
      if node.eventIndex = target then some node else getNodeByIndex target node.children := by
  induction l₁ with
  | nil =>
    have hle := h.le
    rw [List.nil_append, getNodeByIndex, if_neg (by omega : ¬target < node.eventIndex),
      if_pos (isLastBefore_of_forall h.behind)]
    cases node
    rw [getNodeBelow, Node.children]
  | cons n l₁ ih =>
    have hlt := h.before n List.mem_cons_self
    have hle := h.le
    have hnot : isLastBefore target (l₁ ++ node :: l₂) = false := by
      apply isLastBefore_append _ _ _ _ hle
      intro m hm
      have hm := h.of_cons.before m hm
      omega
    rw [List.cons_append, getNodeByIndex, if_neg (by omega : ¬n.eventIndex = target),
      if_neg (by omega : ¬target < n.eventIndex), if_neg (by simp [hnot]), ih h.of_cons]

theorem updateNodeByIndex_split {target : ℕ} {l₁ : List Node} {node : Node} {l₂ : List Node} (update : Node → Node)
    (h : Splits target l₁ node l₂) : updateNodeByIndex target update (l₁ ++ node :: l₂) =
      (updateNode target update node).map fun n => l₁ ++ n :: l₂ := by
  induction l₁ with
  | nil =>
    have hle := h.le
    rw [List.nil_append, updateNodeByIndex, if_neg (by omega : ¬target < node.eventIndex),
      if_pos (isLastBefore_of_forall h.behind)]
    rfl
  | cons n l₁ ih =>
    have hlt := h.before n List.mem_cons_self
    have hle := h.le
    have hnot : isLastBefore target (l₁ ++ node :: l₂) = false := by
      apply isLastBefore_append _ _ _ _ hle
      intro m hm
      have hm := h.of_cons.before m hm
      omega
    rw [List.cons_append, updateNodeByIndex, if_neg (by omega : ¬target < n.eventIndex), if_neg (by simp [hnot]),
      ih h.of_cons, Option.map_map]
    rfl

theorem updateNode_eq (target : ℕ) (update : Node → Node) (node : Node) : updateNode target update node =
    if node.eventIndex = target then some (update node)
    else (updateNodeByIndex target update node.children).map fun children =>
      .mk node.eventIndex node.isCollapsed children := by
  cases node
  rw [updateNode]
  rfl

namespace Shows

variable {E P : Set (Event υ)} {parent : Option υ} {nodes : List Node}

/-- The node of a level at or above an event is the last one that does not exceed it. -/
theorem exists_split (hE : IsForest E) (hP : P ⊆ E) (h : Shows P parent nodes) {x t : Event υ} (hx : x ∈ P)
    (hparent : x.parentUuid = parent) (ht : t ∈ E) (hsub : InSubtree E x t) :
    ∃ l₁ node l₂, nodes = l₁ ++ node :: l₂ ∧ node.eventIndex = x.counter ∧ Splits t.counter l₁ node l₂ ∧
      Shows P (some x.uuid) node.children := by
  cases h with
  | intro sorted exact below =>
    have hmem : x.counter ∈ nodes.map Node.eventIndex := (exact _).mpr ⟨x, hx, hparent, rfl⟩
    obtain ⟨node, hnode, heq⟩ := List.mem_map.mp hmem
    obtain ⟨l₁, l₂, rfl⟩ := List.append_of_mem hnode
    rw [List.map_append, List.map_cons, List.pairwise_append, List.pairwise_cons] at sorted
    obtain ⟨-, ⟨hbehind, -⟩, hbefore⟩ := sorted
    refine ⟨l₁, node, l₂, rfl, heq, ⟨fun n hn => ?_, ?_, fun n hn => ?_⟩, below node hnode x hx heq.symm⟩
    · exact hbefore _ (List.mem_map_of_mem hn) _ List.mem_cons_self
    · rw [heq]
      exact hE.le_of_inSubtree hsub
    · have hlt := hbehind _ (List.mem_map_of_mem hn)
      obtain ⟨y, hy, hyparent, hycounter⟩ := (exact n.eventIndex).mp (List.mem_map_of_mem (by simp [hn]))
      rw [← hycounter]
      exact hE.lt_of_siblings hsub ht (hP hy) (hparent.trans hyparent.symm) (by omega)

/-- The search finds the node of an event, with the level below it. -/
theorem getNodeByIndex_eq (hE : IsForest E) (hP : P ⊆ E) (h : Shows P parent nodes) {x t : Event υ} (hx : x ∈ P)
    (hparent : x.parentUuid = parent) (hclosed : ∀ y, InSubtree E y t → y ∈ P) (hsub : InSubtree E x t) :
    ∃ node, getNodeByIndex t.counter nodes = some node ∧ node.eventIndex = t.counter ∧
      Shows P (some t.uuid) node.children := by
  have ht : t ∈ E := hP (hclosed t .refl)
  induction hsub using Relation.ReflTransGen.head_induction_on generalizing parent nodes with
  | refl =>
    obtain ⟨l₁, node, l₂, rfl, heq, hsplits, hbelow⟩ := h.exists_split hE hP hx hparent ht .refl
    refine ⟨node, ?_, heq, hbelow⟩
    rw [getNodeByIndex_split hsplits, if_pos heq]
  | head hstep hrest ih =>
    rename_i x y
    have hsub : InSubtree E x t := Relation.ReflTransGen.head hstep hrest
    obtain ⟨l₁, node, l₂, rfl, heq, hsplits, hbelow⟩ := h.exists_split hE hP hx hparent ht hsub
    have hlt := hE.lt_of_parent hstep
    have hle := hE.le_of_inSubtree hrest
    rw [getNodeByIndex_split hsplits, if_neg (by omega)]
    exact ih hbelow (hclosed y hrest) hstep.2.2

/-! ### New events -/

/-- Levels that a new event is not below are kept. -/
theorem insert_of_not_below (hE : IsForest E) (hP : P ⊆ E) {e : Event υ} (he : e ∈ E) (hnew : e ∉ P)
    (h : Shows P parent nodes) {y : Event υ} (hy : y ∈ P) (hparent : parent = some y.uuid)
    (hnot : ¬InSubtree E y e) : Shows (insert e P) parent nodes := by
  induction h generalizing y with
  | intro sorted exact _ ih =>
    rename_i parent nodes
    refine ⟨sorted, fun c => ?_, fun node hnode f hf hcounter => ?_⟩
    · rw [exact]
      constructor
      · rintro ⟨f, hf, hrest⟩
        exact ⟨f, Set.mem_insert_of_mem e hf, hrest⟩
      · rintro ⟨f, rfl | hf, hfparent, hcounter⟩
        · exact absurd (.single ⟨hP hy, he, hfparent.trans hparent⟩) hnot
        · exact ⟨f, hf, hfparent, hcounter⟩
    · obtain ⟨g, hg, hgparent, hgcounter⟩ := (exact node.eventIndex).mp (List.mem_map_of_mem hnode)
      have hfE : f ∈ E := hf.elim (fun hfe => hfe ▸ he) fun hf => hP hf
      obtain rfl : g = f := hE.counter_inj g (hP hg) f hfE (hgcounter.trans hcounter.symm)
      refine ih node hnode g hg hcounter hg rfl fun hsub => hnot ?_
      exact .head ⟨hP hy, hfE, hgparent.trans hparent⟩ hsub

/-- A node is replaced by one with the new event below it. -/
theorem replace (hE : IsForest E) (hP : P ⊆ E) {e : Event υ} (he : e ∈ E) (hnew : e ∉ P) {l₁ l₂ : List Node}
    {node node' : Node} (h : Shows P parent (l₁ ++ node :: l₂)) {x : Event υ} (hx : x ∈ P)
    (hparent : x.parentUuid = parent) (hnode : node.eventIndex = x.counter) (hsub : InSubtree E x e)
    (hindex : node'.eventIndex = node.eventIndex) (hbelow : Shows (insert e P) (some x.uuid) node'.children) :
    Shows (insert e P) parent (l₁ ++ node' :: l₂) := by
  have hmap : (l₁ ++ node' :: l₂).map Node.eventIndex = (l₁ ++ node :: l₂).map Node.eventIndex := by
    simp [hindex]
  cases h with
  | intro sorted exact below =>
    refine ⟨by rwa [hmap], fun c => ?_, fun n hn f hf hcounter => ?_⟩
    · rw [hmap, exact]
      constructor
      · rintro ⟨f, hf, hrest⟩
        exact ⟨f, Set.mem_insert_of_mem e hf, hrest⟩
      · rintro ⟨f, rfl | hf, hfparent, hcounter⟩
        · have heq := hE.eq_of_siblings hsub (hparent.trans hfparent.symm)
          exact absurd (heq ▸ hx) hnew
        · exact ⟨f, hf, hfparent, hcounter⟩
    · have hmem : n.eventIndex ∈ (l₁ ++ node :: l₂).map Node.eventIndex := hmap ▸ List.mem_map_of_mem hn
      obtain ⟨g, hg, hgparent, hgcounter⟩ := (exact n.eventIndex).mp hmem
      have hfE : f ∈ E := hf.elim (fun hfe => hfe ▸ he) fun hf => hP hf
      obtain rfl : g = f := hE.counter_inj g (hP hg) f hfE (hgcounter.trans hcounter.symm)
      by_cases hgx : g = x
      · subst hgx
        obtain rfl : n = node' := by
          rw [← hmap] at sorted
          apply List.inj_on_of_nodup_map (sorted.imp fun hlt => Nat.ne_of_lt hlt) hn (by simp)
          rw [← hgcounter, hindex, hnode]
        exact hbelow
      · have hold : n ∈ l₁ ++ node :: l₂ := by
          rw [List.mem_append, List.mem_cons] at hn ⊢
          obtain hn | rfl | hn := hn
          · exact .inl hn
          · have heq := hE.counter_inj g (hP hg) x (hP hx) (by omega)
            exact absurd heq hgx
          · exact .inr (.inr hn)
        refine insert_of_not_below hE hP he hnew (below n hold g hg hcounter) hg rfl fun hgsub => hgx ?_
        exact hE.sibling_unique hgsub hsub he (hgparent.trans hparent.symm)

/-- The new event is put under its parent. -/
theorem updateNodeByIndex_eq (hE : IsForest E) (hP : P ⊆ E) {e : Event υ} (he : e ∈ E) (hnew : e ∉ P)
    (h : Shows P parent nodes) {x t : Event υ} (hx : x ∈ P) (hparent : x.parentUuid = parent)
    (hclosed : ∀ y, InSubtree E y t → y ∈ P) (hsub : InSubtree E x t) (hte : IsParent E t e) {update : Node → Node}
    (hupdate : ∀ node, getNodeByIndex t.counter nodes = some node →
      (update node).eventIndex = node.eventIndex ∧ Shows (insert e P) (some t.uuid) (update node).children) :
    ∃ nodes', updateNodeByIndex t.counter update nodes = some nodes' ∧ Shows (insert e P) parent nodes' := by
  have ht : t ∈ E := hte.1
  induction hsub using Relation.ReflTransGen.head_induction_on generalizing parent nodes with
  | refl =>
    obtain ⟨l₁, node, l₂, rfl, heq, hsplits, -⟩ := h.exists_split hE hP hx hparent ht .refl
    obtain ⟨hindex, hbelow⟩ := hupdate node (by rw [getNodeByIndex_split hsplits, if_pos heq])
    refine ⟨l₁ ++ update node :: l₂, ?_, ?_⟩
    · rw [updateNodeByIndex_split _ hsplits, updateNode_eq, if_pos heq, Option.map_some]
    · exact h.replace hE hP he hnew hx hparent heq (.single hte) hindex hbelow
  | head hstep hrest ih =>
    rename_i x y
    have hsub : InSubtree E x t := Relation.ReflTransGen.head hstep hrest
    obtain ⟨l₁, node, l₂, rfl, heq, hsplits, hbelow⟩ := h.exists_split hE hP hx hparent ht hsub
    have hlt := hE.lt_of_parent hstep
    have hle := hE.le_of_inSubtree hrest
    rw [getNodeByIndex_split hsplits, if_neg (by omega)] at hupdate
    obtain ⟨children, hchildren, hshows⟩ := ih hbelow (hclosed y hrest) hstep.2.2 hupdate
    refine ⟨l₁ ++ .mk node.eventIndex node.isCollapsed children :: l₂, ?_, ?_⟩
    · rw [updateNodeByIndex_split _ hsplits, updateNode_eq, if_neg (by omega), hchildren]
      rfl
    · exact h.replace hE hP he hnew hx hparent heq (hsub.tail hte) rfl hshows

end Shows

/-- A node is put between those of lower and of greater indices. -/
theorem exists_splice (newNode : Node) (nodes : List Node) (sorted : (nodes.map Node.eventIndex).Pairwise (· < ·)) :
    ∃ l₁ l₂, nodes = l₁ ++ l₂ ∧
      splice (nodes.findIdx? fun n => newNode.eventIndex < n.eventIndex) newNode nodes = l₁ ++ newNode :: l₂ ∧
      (∀ n ∈ l₁, n.eventIndex ≤ newNode.eventIndex) ∧ ∀ n ∈ l₂, newNode.eventIndex < n.eventIndex := by
  induction nodes with
  | nil => exact ⟨[], [], rfl, rfl, by simp, by simp⟩
  | cons n nodes ih =>
    rw [List.map_cons, List.pairwise_cons] at sorted
    rw [List.findIdx?_cons]
    by_cases hlt : newNode.eventIndex < n.eventIndex
    · refine ⟨[], n :: nodes, rfl, by simp [hlt, splice], by simp, fun m hm => ?_⟩
      obtain rfl | hm := List.mem_cons.mp hm
      · exact hlt
      · exact hlt.trans (sorted.1 _ (List.mem_map_of_mem hm))
    · obtain ⟨l₁, l₂, rfl, hsplice, hl₁, hl₂⟩ := ih sorted.2
      refine ⟨n :: l₁, l₂, rfl, ?_, ?_, hl₂⟩
      · rw [if_neg (by simpa using hlt), List.cons_append, ← hsplice]
        cases (l₁ ++ l₂).findIdx? fun n => decide (newNode.eventIndex < n.eventIndex) <;> rfl
      · intro m hm
        obtain rfl | hm := List.mem_cons.mp hm
        · omega
        · exact hl₁ m hm

theorem findIdx?_le_eq (c : ℕ) (nodes : List Node) (hc : c ∉ nodes.map Node.eventIndex) :
    (nodes.findIdx? fun n => c ≤ n.eventIndex) = nodes.findIdx? fun n => c < n.eventIndex := by
  induction nodes with
  | nil => rfl
  | cons n nodes ih =>
    rw [List.map_cons, List.mem_cons, not_or] at hc
    have hiff : c ≤ n.eventIndex ↔ c < n.eventIndex := by omega
    rw [List.findIdx?_cons, List.findIdx?_cons, ih hc.2, decide_eq_decide.mpr hiff]

namespace Shows

variable {E P : Set (Event υ)} {parent : Option υ} {nodes : List Node}

theorem counter_not_mem (hE : IsForest E) (hP : P ⊆ E) {e : Event υ} (he : e ∈ E) (hnew : e ∉ P)
    (h : Shows P parent nodes) : e.counter ∉ nodes.map Node.eventIndex := by
  cases h with
  | intro _ exact _ =>
    intro hmem
    obtain ⟨g, hg, -, hcounter⟩ := (exact _).mp hmem
    exact hnew (hE.counter_inj g (hP hg) e he hcounter ▸ hg)

/-- The new event is put into its level. -/
theorem insert_level (hE : IsForest E) (hP : P ⊆ E) {e : Event υ} (he : e ∈ E) (hnew : e ∉ P)
    (hclosed : ∀ f ∈ P, ∀ y, InSubtree E y f → y ∈ P) (h : Shows P e.parentUuid nodes) (isCollapsed : Bool) :
    Shows (insert e P) e.parentUuid
      (splice (nodes.findIdx? fun n => e.counter < n.eventIndex) (.mk e.counter isCollapsed []) nodes) := by
  have hfresh := h.counter_not_mem hE hP he hnew
  cases h with
  | intro sorted exact below =>
    obtain ⟨l₁, l₂, rfl, hsplice, hl₁, hl₂⟩ := exists_splice (.mk e.counter isCollapsed []) nodes sorted
    rw [Node.eventIndex] at hsplice hl₁ hl₂
    rw [hsplice]
    refine ⟨?_, fun c => ?_, fun n hn f hf hcounter => ?_⟩
    · rw [List.map_append, List.pairwise_append] at sorted
      rw [List.map_append, List.map_cons, List.pairwise_append, List.pairwise_cons, Node.eventIndex]
      refine ⟨sorted.1, ⟨?_, sorted.2.1⟩, fun a ha b hb => ?_⟩
      · rintro b hb
        obtain ⟨n, hn, rfl⟩ := List.mem_map.mp hb
        exact hl₂ n hn
      · obtain ⟨n, hn, rfl⟩ := List.mem_map.mp ha
        obtain rfl | hb := List.mem_cons.mp hb
        · apply lt_of_le_of_ne (hl₁ n hn)
          rintro heq
          exact hfresh (heq ▸ List.mem_map_of_mem (List.mem_append_left _ hn))
        · exact sorted.2.2 _ ha b hb
    · have hiff : c ∈ (l₁ ++ Node.mk e.counter isCollapsed [] :: l₂).map Node.eventIndex ↔
          c = e.counter ∨ c ∈ (l₁ ++ l₂).map Node.eventIndex := by
        simp only [List.map_append, List.map_cons, List.mem_append, List.mem_cons, Node.eventIndex]
        tauto
      rw [hiff, exact]
      constructor
      · rintro (rfl | ⟨f, hf, hrest⟩)
        · exact ⟨e, Set.mem_insert e P, rfl, rfl⟩
        · exact ⟨f, Set.mem_insert_of_mem e hf, hrest⟩
      · rintro ⟨f, rfl | hf, hparent, hcounter⟩
        · exact .inl hcounter.symm
        · exact .inr ⟨f, hf, hparent, hcounter⟩
    · obtain rfl | hf := hf
      · -- Nothing has arrived that is below the new event.
        obtain rfl : n = .mk f.counter isCollapsed [] := by
          rw [List.mem_append, List.mem_cons] at hn
          obtain hn | rfl | hn := hn
          · exact absurd (List.mem_map.mpr ⟨n, List.mem_append_left _ hn, hcounter.symm⟩) hfresh
          · rfl
          · exact absurd (List.mem_map.mpr ⟨n, List.mem_append_right _ hn, hcounter.symm⟩) hfresh
        refine ⟨List.Pairwise.nil, fun c => ?_, fun n hn => absurd hn List.not_mem_nil⟩
        simp only [Node.children, List.map_nil, List.not_mem_nil, false_iff]
        rintro ⟨g, rfl | hg, hparent, -⟩
        · have hlt := hE.lt_of_parent ⟨he, he, hparent⟩
          omega
        · exact hnew (hclosed g hg f (.single ⟨he, hP hg, hparent⟩))
      · have hold : n ∈ l₁ ++ l₂ := by
          rw [List.mem_append, List.mem_cons] at hn
          obtain hn | rfl | hn := hn
          · exact List.mem_append_left _ hn
          · exact absurd (hE.counter_inj f (hP hf) e he hcounter ▸ hf) hnew
          · exact List.mem_append_right _ hn
        obtain ⟨g, hg, hgparent, hgcounter⟩ := (exact n.eventIndex).mp (List.mem_map_of_mem hold)
        obtain rfl : g = f := hE.counter_inj g (hP hg) f (hP hf) (hgcounter.trans hcounter.symm)
        refine insert_of_not_below hE hP he hnew (below n hold g hf hcounter) hf rfl fun hsub => hnew ?_
        exact hE.eq_of_siblings hsub hgparent ▸ hf

end Shows

end Forail.JobEvents
