import Forail.Scheduler.DagSimple
import Mathlib.Data.List.Induction
import Mathlib.Order.Basic

/-! Sequences of `addNode` and `addEdge` calls on a new graph, with the calls that raise. The maps mirror each
other whatever is called; the root set is exact, and a raising call without effect, if and only if no call
names a root as target and an unknown source. -/

namespace Forail.Scheduler.SimpleDAG

variable {α β : Type*} [DecidableEq α] [DecidableEq β]

inductive Call (α β : Type*)
  | addNode (obj : α)
  | addEdge (fromObj toObj : α) (label : β)

/-- The graph after a call, and the error that the call raises. -/
def call (g : SimpleDAG α β) : Call α β → SimpleDAG α β × Option (LookupError α)
  | .addNode obj => (g.addNode obj, none)
  | .addEdge fromObj toObj label => g.addEdge fromObj toObj label

/-- The graph after calls on a new one; a caller may catch what a call raises. -/
def after (calls : List (Call α β)) : SimpleDAG α β := calls.foldl (fun g c => (g.call c).1) empty

theorem after_append_singleton (calls : List (Call α β)) (c : Call α β) :
    after (calls ++ [c]) = ((after calls).call c).1 := by
  rw [after, List.foldl_append]
  rfl

/-- What holds of the four structures whatever is called: the stored indices are valid, those of the objects
are the places in `nodes`, and the edge maps mirror each other. Roots have no incoming edge. -/
structure Consistent (g : SimpleDAG α β) : Prop where
  nodes_nodup : g.nodes.Nodup
  index : ∀ x i, g.findOrd x = some i ↔ g.nodes[i]? = some x
  mirror : ∀ l i j, (edgesAt g.nodeFromEdgesByLabel l i).count j =
    (edgesAt g.nodeToEdgesByLabel l j).count i
  bound : ∀ l i j, j ∈ edgesAt g.nodeFromEdgesByLabel l i →
    i < g.nodes.length ∧ j < g.nodes.length
  from_keys : ∀ l i, i ∈ (g.nodeFromEdgesByLabel.getD l .empty).keys → i < g.nodes.length
  to_keys : ∀ l j, j ∈ (g.nodeToEdgesByLabel.getD l .empty).keys → j < g.nodes.length
  roots : ∀ i ∈ g.rootNodes, i < g.nodes.length ∧ ∀ l, edgesAt g.nodeToEdgesByLabel l i = []
  roots_nodup : g.rootNodes.Nodup

/-- The roots are exactly the nodes without an incoming edge. -/
def RootsExact (g : SimpleDAG α β) : Prop :=
  ∀ i, i ∈ g.rootNodes ↔ i < g.nodes.length ∧ ∀ l, edgesAt g.nodeToEdgesByLabel l i = []

/-- The call takes a root from the set and then raises, as its source is unknown. -/
def Uproots (g : SimpleDAG α β) : Call α β → Prop
  | .addNode _ => False
  | .addEdge fromObj toObj _ => g.findOrd fromObj = none ∧ ∃ j ∈ g.rootNodes, g.findOrd toObj = some j

/-! ### One call -/

omit [DecidableEq β] in
theorem addNode_withRoots (g : SimpleDAG α β) (r : List ℕ) (obj : α) :
    ({ g with rootNodes := r } : SimpleDAG α β).addNode obj =
      { g.addNode obj with rootNodes := if (g.findOrd obj).isSome then r else r ++ [g.nodes.length] } := by
  have hfind : ({ g with rootNodes := r } : SimpleDAG α β).findOrd obj = g.findOrd obj := rfl
  unfold addNode
  rw [hfind]
  cases g.findOrd obj <;> rfl

omit [DecidableEq β] in
theorem addNode_rootNodes (g : SimpleDAG α β) (obj : α) : (g.addNode obj).rootNodes =
    if (g.findOrd obj).isSome then g.rootNodes else g.rootNodes ++ [g.nodes.length] := by
  unfold addNode
  cases g.findOrd obj <;> rfl

omit [DecidableEq β] in
theorem addNode_edges (g : SimpleDAG α β) (obj : α) :
    (g.addNode obj).nodeFromEdgesByLabel = g.nodeFromEdgesByLabel ∧
      (g.addNode obj).nodeToEdgesByLabel = g.nodeToEdgesByLabel := by
  unfold addNode
  cases g.findOrd obj <;> exact ⟨rfl, rfl⟩

omit [DecidableEq β] in
theorem length_le_addNode (g : SimpleDAG α β) (obj : α) : g.nodes.length ≤ (g.addNode obj).nodes.length := by
  unfold addNode
  cases g.findOrd obj with
  | none => simp
  | some i => exact Nat.le_refl _

theorem mem_discard {roots : List ℕ} {o : Option ℕ} {i : ℕ} :
    i ∈ discard roots o ↔ i ∈ roots ∧ o ≠ some i := by
  cases o with
  | none => simp [discard]
  | some j =>
    rw [discard, List.mem_filter, decide_eq_true_eq, ne_eq, ne_eq, Option.some_inj, eq_comm]

theorem discard_nodup {roots : List ℕ} (h : roots.Nodup) (o : Option ℕ) : (discard roots o).Nodup := by
  cases o with
  | none => exact h
  | some j => exact h.filter _

/-- Only a source and a target that are stored get an edge. -/
theorem addEdge_cases (g : SimpleDAG α β) (p c : α) (l : β) :
    (∃ i j, g.findOrd p = some i ∧ g.findOrd c = some j ∧ (g.addEdge p c l).2 = none) ∨
      (g.findOrd p = none ∨ g.findOrd c = none) ∧ (g.addEdge p c l).2 ≠ none ∧
        (g.addEdge p c l).1 = { g with rootNodes := discard g.rootNodes (g.findOrd c) } := by
  unfold addEdge
  cases hp : g.findOrd p with
  | none =>
    cases hc : g.findOrd c with
    | none => exact .inr ⟨.inl rfl, Option.some_ne_none _, rfl⟩
    | some j => exact .inr ⟨.inl rfl, Option.some_ne_none _, rfl⟩
  | some i =>
    cases hc : g.findOrd c with
    | none => exact .inr ⟨.inr rfl, Option.some_ne_none _, rfl⟩
    | some j => exact .inl ⟨i, j, rfl, rfl, rfl⟩

theorem keys_appendEdge {m : Dict β (Dict ℕ (List ℕ))} {label l : β} {i j k : ℕ}
    (h : k ∈ ((appendEdge m label i j).getD l .empty).keys) : k ∈ (m.getD l .empty).keys ∨ k = i := by
  rw [appendEdge, Dict.getD_set] at h
  split_ifs at h with hl
  · subst hl
    rw [Dict.keys_set] at h
    split_ifs at h
    · exact .inl h
    · exact (List.mem_append.mp h).imp_right List.mem_singleton.mp
  · exact .inl h

namespace Consistent

variable {g : SimpleDAG α β}

theorem of_wellFormed (h : g.WellFormed)
    (hfrom : ∀ l i, i ∈ (g.nodeFromEdgesByLabel.getD l .empty).keys → i < g.nodes.length)
    (hto : ∀ l j, j ∈ (g.nodeToEdgesByLabel.getD l .empty).keys → j < g.nodes.length) : g.Consistent :=
  ⟨h.nodes_nodup, h.index, h.mirror, h.bound, hfrom, hto, fun i hi => (h.roots i).mp hi, h.roots_nodup⟩

theorem wellFormed (hg : g.Consistent) (hroots : g.RootsExact) : g.WellFormed :=
  ⟨hg.nodes_nodup, hg.index, hg.mirror, hg.bound, hroots, hg.roots_nodup⟩

theorem lt_of_findOrd (hg : g.Consistent) {x : α} {i : ℕ} (h : g.findOrd x = some i) :
    i < g.nodes.length :=
  (List.getElem?_eq_some_iff.mp ((hg.index x i).mp h)).1

/-- Fewer roots are as consistent. -/
theorem subset (hg : g.Consistent) {r : List ℕ} (hsub : r ⊆ g.rootNodes) (hr : r.Nodup) :
    ({ g with rootNodes := r } : SimpleDAG α β).Consistent :=
  { hg with
    roots := fun i hi => hg.roots i (hsub hi)
    roots_nodup := hr }

open Classical in
/-- With the missing roots added the graph is well-formed. -/
theorem exists_wellFormed (hg : g.Consistent) :
    ∃ r, g.rootNodes ⊆ r ∧ ({ g with rootNodes := r } : SimpleDAG α β).WellFormed := by
  refine ⟨(List.range g.nodes.length).filter fun i => ∀ l, edgesAt g.nodeToEdgesByLabel l i = [], ?_,
    hg.nodes_nodup, hg.index, hg.mirror, hg.bound, ?_, List.nodup_range.filter _⟩
  · intro i hi
    obtain ⟨hlt, hempty⟩ := hg.roots i hi
    exact List.mem_filter.mpr ⟨List.mem_range.mpr hlt, decide_eq_true hempty⟩
  · intro i
    rw [List.mem_filter, List.mem_range, decide_eq_true_eq]

theorem addNode (hg : g.Consistent) (obj : α) : (g.addNode obj).Consistent := by
  obtain ⟨r, hsub, hr⟩ := hg.exists_wellFormed
  have hwell := addNode_wellFormed hr obj
  rw [addNode_withRoots] at hwell
  obtain ⟨hfrom, hto⟩ := addNode_edges g obj
  have hlength := length_le_addNode g obj
  have hall := of_wellFormed hwell
    (fun l i hi => Nat.lt_of_lt_of_le (hg.from_keys l i (hfrom ▸ hi)) hlength)
    (fun l j hj => Nat.lt_of_lt_of_le (hg.to_keys l j (hto ▸ hj)) hlength)
  have hroots := addNode_rootNodes g obj
  refine hall.subset (r := (g.addNode obj).rootNodes) ?_ ?_
  · rw [hroots]
    dsimp only
    split_ifs
    · exact hsub
    · exact List.append_subset.mpr ⟨List.subset_append_of_subset_left _ hsub, List.subset_append_right _ _⟩
  · rw [hroots]
    split_ifs
    · exact hg.roots_nodup
    · refine List.nodup_append.mpr ⟨hg.roots_nodup, List.nodup_singleton _, ?_⟩
      rintro i hi _ hj rfl
      obtain rfl := List.mem_singleton.mp hj
      exact absurd (hg.roots _ hi).1 (Nat.lt_irrefl _)

theorem addEdge (hg : g.Consistent) (p c : α) (l : β) : (g.addEdge p c l).1.Consistent := by
  rcases addEdge_cases g p c l with ⟨i, j, hi, hj, -⟩ | ⟨-, -, heq⟩
  · obtain ⟨r, hsub, hr⟩ := hg.exists_wellFormed
    have hp : p ∈ g.nodes := hr.mem_nodes_iff.mpr ⟨i, hi⟩
    have hc : c ∈ g.nodes := hr.mem_nodes_iff.mpr ⟨j, hj⟩
    have hwell := addEdge_wellFormed hr hp hc l
    have hknown := addEdge_known (show ({ g with rootNodes := r } : SimpleDAG α β).findOrd p = some i from hi)
      hj l
    rw [hknown] at hwell
    rw [addEdge_known hi hj]
    have hall := of_wellFormed hwell
      (fun l' k hk => (keys_appendEdge hk).elim (hg.from_keys l' k) fun h => by
        rw [h]
        exact hg.lt_of_findOrd hi)
      (fun l' k hk => (keys_appendEdge hk).elim (hg.to_keys l' k) fun h => by
        rw [h]
        exact hg.lt_of_findOrd hj)
    exact hall.subset (List.filter_subset _ hsub) (hg.roots_nodup.filter _)
  · rw [heq]
    exact hg.subset (fun i hi => (mem_discard.mp hi).1) (discard_nodup hg.roots_nodup _)

theorem call (hg : g.Consistent) (c : Call α β) : (g.call c).1.Consistent := by
  cases c with
  | addNode obj => exact hg.addNode obj
  | addEdge fromObj toObj label => exact hg.addEdge fromObj toObj label

end Consistent

/-- A call that takes no root from the set and then raises keeps the roots exact, and has no effect if it
raises. -/
theorem call_of_not_uproots {g : SimpleDAG α β} (hg : g.WellFormed) {c : Call α β} (h : ¬ g.Uproots c) :
    (g.call c).1.RootsExact ∧ ((g.call c).2 ≠ none → (g.call c).1 = g) := by
  cases c with
  | addNode obj => exact ⟨(addNode_wellFormed hg obj).roots, fun hraise => absurd rfl hraise⟩
  | addEdge p c l =>
    rcases addEdge_cases g p c l with ⟨i, j, hi, hj, hnone⟩ | ⟨hunknown, hraise, heq⟩
    · have hp : p ∈ g.nodes := hg.mem_nodes_iff.mpr ⟨i, hi⟩
      have hc : c ∈ g.nodes := hg.mem_nodes_iff.mpr ⟨j, hj⟩
      exact ⟨(addEdge_wellFormed hg hp hc l).roots, fun hraise => absurd hnone hraise⟩
    · have hsame : discard g.rootNodes (g.findOrd c) = g.rootNodes := by
        cases hj : g.findOrd c with
        | none => rfl
        | some j =>
          have hp : g.findOrd p = none := hunknown.resolve_right (by rw [hj]; exact Option.some_ne_none j)
          refine List.filter_eq_self.mpr fun i hi => decide_eq_true fun hij => h ⟨hp, j, hij ▸ hi, hj⟩
      have hstate : (g.call (.addEdge p c l)).1 = g := by
        rw [call, heq, hsame]
      exact ⟨hstate.symm ▸ hg.roots, fun _ => hstate⟩

/-- A call that takes a root from the set and then raises has an effect. -/
theorem call_of_uproots {g : SimpleDAG α β} {c : Call α β} (h : g.Uproots c) :
    (g.call c).2 ≠ none ∧ (g.call c).1 ≠ g := by
  cases c with
  | addNode obj => exact h.elim
  | addEdge p c l =>
    obtain ⟨hp, j, hroot, hj⟩ := h
    rcases addEdge_cases g p c l with ⟨i, _, hi, -, -⟩ | ⟨-, hraise, heq⟩
    · rw [hp] at hi
      cases hi
    · refine ⟨hraise, fun hsame => ?_⟩
      have hroots : discard g.rootNodes (g.findOrd c) = g.rootNodes :=
        congrArg rootNodes (heq.symm.trans hsame)
      rw [← hroots, mem_discard] at hroot
      exact hroot.2 hj

/-! ### Sequences of calls -/

theorem empty_consistent : (empty : SimpleDAG α β).Consistent :=
  .of_wellFormed empty_wellFormed (fun _ _ h => absurd h List.not_mem_nil)
    (fun _ _ h => absurd h List.not_mem_nil)

theorem after_consistent (calls : List (Call α β)) : (after calls).Consistent := by
  induction calls using List.reverseRecOn with
  | nil => exact empty_consistent
  | append_singleton calls c ih =>
    rw [after_append_singleton]
    exact ih.call c

/-- Without such a call the roots are exact. -/
theorem after_rootsExact {calls : List (Call α β)}
    (h : ∀ front c, front ++ [c] <+: calls → ¬ (after front).Uproots c) : (after calls).RootsExact := by
  induction calls using List.reverseRecOn with
  | nil => exact empty_wellFormed.roots
  | append_singleton calls c ih =>
    have hroots := ih fun front c' hfront => h front c' (hfront.trans (List.prefix_append _ _))
    rw [after_append_singleton]
    exact (call_of_not_uproots ((after_consistent calls).wellFormed hroots)
      (h calls c (List.prefix_refl _))).1

/-- After every sequence of calls the structures are consistent; all its raising calls are without effect and
the roots are exact throughout if and only if no call takes a root from the set and then raises. -/
theorem representation_iff (calls : List (Call α β)) : (after calls).Consistent ∧
    ((∀ front c, front ++ [c] <+: calls → ((after front).call c).2 ≠ none →
        ((after front).call c).1 = after front) ∧ (∀ front, front <+: calls → (after front).RootsExact) ↔
      ∀ front c, front ++ [c] <+: calls → ¬ (after front).Uproots c) := by
  refine ⟨after_consistent calls, ⟨?_, ?_⟩⟩
  · rintro ⟨heffect, -⟩ front c hfront huproots
    obtain ⟨hraise, hchange⟩ := call_of_uproots huproots
    exact hchange (heffect front c hfront hraise)
  · intro hcalls
    have hroots : ∀ front, front <+: calls → (after front).RootsExact := fun front hfront =>
      after_rootsExact fun front' c hfront' => hcalls front' c (hfront'.trans hfront)
    refine ⟨fun front c hfront hraise => ?_, hroots⟩
    have hexact := hroots front ((List.prefix_append _ _).trans hfront)
    exact (call_of_not_uproots ((after_consistent front).wellFormed hexact) (hcalls front c hfront)).2 hraise

/-- An edge from an unknown object raises, and leaves its target, which has no parent, out of the roots. -/
theorem root_lost : ((after [.addNode 'a']).addEdge 'b' 'a' "success").2 = some (.fromObject 'b') ∧
    ((after [.addNode 'a']).addEdge 'b' 'a' "success").1.rootNodes = [] ∧
      (after [Call.addNode 'a', .addEdge 'b' 'a' "success"]).getParents 'a' none = [] ∧
        (after [Call.addNode 'a', .addEdge 'b' 'a' "success"]).getRootNodes = [] ∧
          ¬ (after [Call.addNode 'a', .addEdge 'b' 'a' "success"]).RootsExact := by
  refine ⟨by decide, by decide, by decide, by decide, fun h => ?_⟩
  have hmem := (h 0).mpr ⟨by decide, fun l => rfl⟩
  revert hmem
  decide

end Forail.Scheduler.SimpleDAG
