import Forail.Scheduler.HasCycle

/-! The recursive sort `sortNodesTopological`. A visit appends to the front of the
sorted list after all children have been visited; the fuel stands for the recursion
depth, which an acyclic graph bounds by its number of nodes. The result lists every
node once, with the children of a node after it. -/

namespace Forail.Scheduler

open Relation Acyclicity

structure SortState (α : Type*) where
  nodesSorted : List α
  objIdsProcessed : List α

section Visit
variable {α : Type*} [DecidableEq α]

/-- The inner function `visit`; out of fuel, the recursion has no result. -/
def visit (children : α → List α) : ℕ → α → SortState α → Option (SortState α)
  | 0, _, _ => none
  | fuel + 1, node, st =>
    if node ∈ st.objIdsProcessed then some st
    else do
      let st ← (children node).foldlM (fun st child => visit children fuel child st) st
      some ⟨node :: st.nodesSorted, node :: st.objIdsProcessed⟩

variable {children : α → List α}

/-- Every element stands before its children and occurs once. -/
def ChildrenLater (children : α → List α) : List α → Prop
  | [] => True
  | n :: l => n ∉ l ∧ (∀ c ∈ children n, c ∈ l) ∧ ChildrenLater children l

omit [DecidableEq α] in
theorem ChildrenLater.of_append {l m : List α} (h : ChildrenLater children (l ++ m)) :
    ChildrenLater children m := by
  induction l with
  | nil => exact h
  | cons a l ih => exact ih h.2.2

omit [DecidableEq α] in
theorem ChildrenLater.closed {l : List α} (h : ChildrenLater children l) {p c : α} (hp : p ∈ l)
    (hc : c ∈ children p) : c ∈ l := by
  induction l with
  | nil => exact absurd hp List.not_mem_nil
  | cons a l ih =>
    rcases List.mem_cons.mp hp with rfl | hp
    · exact List.mem_cons_of_mem _ (h.2.1 c hc)
    · exact List.mem_cons_of_mem _ (ih h.2.2 hp)

omit [DecidableEq α] in
theorem ChildrenLater.nodup {l : List α} (h : ChildrenLater children l) : l.Nodup := by
  induction l with
  | nil => exact List.nodup_nil
  | cons a l ih => exact List.nodup_cons.mpr ⟨h.1, ih h.2.2⟩

omit [DecidableEq α] in
/-- A listed parent stands before its child. -/
theorem ChildrenLater.parent_before (pre : List α) {post : List α} {n p : α}
    (h : ChildrenLater children (pre ++ n :: post)) (hp : p ∈ pre ++ n :: post)
    (hc : n ∈ children p) : p ∈ pre := by
  have hn := h.of_append
  rcases List.mem_append.mp hp with hp | hp
  · exact hp
  · refine absurd ?_ hn.1
    rcases List.mem_cons.mp hp with rfl | hp
    · exact hn.2.1 p hc
    · exact hn.2.2.closed hp hc

/-- What every visit keeps: one list of processed nodes, each before its children. -/
structure SortState.Good (children : α → List α) (st : SortState α) : Prop where
  processed : st.objIdsProcessed = st.nodesSorted
  later : ChildrenLater children st.nodesSorted

/-- `st'` extends `st` by descendants of `n`, and it holds `n`. -/
structure Visited (children : α → List α) (n : α) (st st' : SortState α) : Prop where
  good : st'.Good children
  extends' : ∃ new, st'.nodesSorted = new ++ st.nodesSorted ∧
    ∀ x ∈ new, ReflTransGen (Child children) n x
  mem : n ∈ st'.nodesSorted

omit [DecidableEq α] in
/-- Visiting a list of nodes one after the other. -/
theorem foldlM_visited {f : SortState α → α → Option (SortState α)} {ns : List α}
    (hf : ∀ n ∈ ns, ∀ st : SortState α, st.Good children →
      ∃ st', f st n = some st' ∧ Visited children n st st')
    (st : SortState α) (hst : st.Good children) :
    ∃ st', ns.foldlM f st = some st' ∧ st'.Good children ∧
      (∃ new, st'.nodesSorted = new ++ st.nodesSorted ∧
        ∀ x ∈ new, ∃ n ∈ ns, ReflTransGen (Child children) n x) ∧
      ∀ n ∈ ns, n ∈ st'.nodesSorted := by
  induction ns generalizing st with
  | nil => exact ⟨st, rfl, hst, ⟨[], rfl, by simp⟩, by simp⟩
  | cons n ns ih =>
    obtain ⟨st₁, h₁, v⟩ := hf n List.mem_cons_self st hst
    obtain ⟨new₁, hnew₁, hr₁⟩ := v.extends'
    obtain ⟨st₂, h₂, hg, ⟨new₂, hnew₂, hr₂⟩, hm⟩ :=
      ih (fun m hm => hf m (List.mem_cons_of_mem _ hm)) st₁ v.good
    refine ⟨st₂, ?_, hg, ⟨new₂ ++ new₁, ?_, fun x hx => ?_⟩, fun m hm' => ?_⟩
    · rw [List.foldlM_cons, h₁]; exact h₂
    · rw [hnew₂, hnew₁, List.append_assoc]
    · rcases List.mem_append.mp hx with hx | hx
      · obtain ⟨m, hm, hmx⟩ := hr₂ x hx
        exact ⟨m, List.mem_cons_of_mem _ hm, hmx⟩
      · exact ⟨n, List.mem_cons_self, hr₁ x hx⟩
    · rcases List.mem_cons.mp hm' with rfl | hm'
      · rw [hnew₂]; exact List.mem_append_right _ v.mem
      · exact hm m hm'

/-- Fuel above the height of a node suffices for its visit. -/
theorem visit_spec {nodes : List α} (hac : Acyclic (Child children))
    (hch : ∀ n, ∀ c ∈ children n, c ∈ nodes) (fuel : ℕ) (n : α) (st : SortState α)
    (hf : height (Child children) nodes n < fuel) (hst : st.Good children) :
    ∃ st', visit children fuel n st = some st' ∧ Visited children n st st' := by
  induction fuel generalizing n st with
  | zero => omega
  | succ fuel ih =>
    rw [visit]
    split_ifs with hn
    · exact ⟨st, rfl, hst, ⟨[], rfl, by simp⟩, hst.processed ▸ hn⟩
    · have hlt : ∀ c ∈ children n, height (Child children) nodes c < fuel := fun c hc =>
        lt_of_lt_of_le (height_lt hac (hch n c hc) hc) (Nat.lt_succ_iff.mp hf)
      obtain ⟨st', h', hg, ⟨new, hnew, hr⟩, hm⟩ :=
        foldlM_visited (fun c hc st hst => ih c st (hlt c hc) hst) st hst
      have hnot : n ∉ st'.nodesSorted := by
        rw [hnew, List.mem_append, not_or]
        refine ⟨fun hx => ?_, hst.processed ▸ hn⟩
        obtain ⟨c, hc, hcn⟩ := hr n hx
        exact hac n (TransGen.head' hc hcn)
      refine ⟨⟨n :: st'.nodesSorted, n :: st'.objIdsProcessed⟩, ?_, ⟨?_, ?_⟩, ?_, ?_⟩
      · rw [h']; rfl
      · rw [hg.processed]
      · exact ⟨hnot, hm, hg.later⟩
      · refine ⟨n :: new, by rw [hnew, List.cons_append], fun x hx => ?_⟩
        rcases List.mem_cons.mp hx with rfl | hx
        · exact .refl
        · obtain ⟨c, hc, hcx⟩ := hr x hx
          exact .head hc hcx
      · exact List.mem_cons_self

end Visit

namespace SimpleDAG

variable {α β : Type*} [DecidableEq α] [DecidableEq β]

def sortNodesTopological (g : SimpleDAG α β) : Option (List α) :=
  (g.nodes.foldlM (fun st node =>
      if node ∈ st.objIdsProcessed then some st
      else visit g.allChildren g.nodes.length node st)
    (⟨[], []⟩ : SortState α)).map SortState.nodesSorted

/-- On an acyclic graph the sort ends with every node, parents before children. -/
theorem sortNodesTopological_spec {g : SimpleDAG α β} (hg : g.WellFormed)
    (hac : Acyclic g.Parent) :
    ∃ l, g.sortNodesTopological = some l ∧ (∀ n, n ∈ l ↔ n ∈ g.nodes) ∧
      ChildrenLater g.allChildren l := by
  have hac' : Acyclic (Child g.allChildren) := by rwa [child_eq_parent hg]
  have hch : ∀ n, ∀ c ∈ g.allChildren n, c ∈ g.nodes := fun n c hc =>
    (hg.mem_getChildren.mp hc).nodes.2
  have hvisit : ∀ n ∈ g.nodes, ∀ st : SortState α, st.Good g.allChildren →
      ∃ st', (if n ∈ st.objIdsProcessed then some st
        else visit g.allChildren g.nodes.length n st) = some st' ∧
        Visited g.allChildren n st st' := by
    intro n hn st hst
    split_ifs with hp
    · exact ⟨st, rfl, hst, ⟨[], rfl, by simp⟩, hst.processed ▸ hp⟩
    · exact visit_spec hac' hch _ n st (height_lt_length hac' hn) hst
  obtain ⟨st, h, hst, ⟨new, hnew, hr⟩, hm⟩ :=
    foldlM_visited hvisit ⟨[], []⟩ ⟨rfl, trivial⟩
  refine ⟨st.nodesSorted, by rw [sortNodesTopological, h]; rfl, fun n => ⟨fun hn => ?_, hm n⟩,
    hst.later⟩
  rw [hnew, List.append_nil] at hn
  obtain ⟨m, hmn, hreach⟩ := hr n hn
  rcases ReflTransGen.cases_tail hreach with rfl | ⟨c, -, hc⟩
  · exact hmn
  · exact hch c n hc

end SimpleDAG

end Forail.Scheduler
