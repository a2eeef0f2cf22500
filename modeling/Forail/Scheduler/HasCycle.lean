import Forail.Base.Acyclicity
import Forail.Scheduler.DagSimple
import Mathlib.Algebra.GroupWithZero.Nat

/-! The iterative depth-first search `hasCycle`. The loop is stated over an
arbitrary child function. Its visited set stays closed under children and free of
cycles, which gives completeness; every entry of the path stays on the stack, with
only its proper descendants above it, which gives soundness. The search starts from
the root nodes, so it decides whether a cycle is reachable from a root. -/

namespace Forail.Scheduler

open Relation Acyclicity

section Loop
variable {α : Type*} [DecidableEq α]

/-- The `while stack` loop; the head of the list is the top of the stack. -/
def hasCycleLoop (children : α → List α) : ℕ → List α → List α → List α → Option Bool
  | 0, _, _, _ => none
  | _ + 1, [], _, _ => some false
  | fuel + 1, nodeObj :: stack, visited, path =>
    let childrenToAdd := (children nodeObj).filter (· ∉ visited)
    if childrenToAdd ≠ [] then
      if nodeObj ∈ path then some true
      else hasCycleLoop children fuel (childrenToAdd.reverse ++ nodeObj :: stack) visited
        (nodeObj :: path)
    else hasCycleLoop children fuel stack (visited.insert nodeObj) (path.filter (· ≠ nodeObj))

variable {children : α → List α}

/-- The edges followed by the search. -/
abbrev Child (children : α → List α) (a b : α) : Prop := b ∈ children a

/-- The visited set is closed under children and meets no cycle. -/
structure Settled (children : α → List α) (visited : List α) : Prop where
  closed : ∀ v ∈ visited, ∀ c ∈ children v, c ∈ visited
  acyclic : ∀ v ∈ visited, ¬ TransGen (Child children) v v

omit [DecidableEq α] in
theorem Settled.nil : Settled children [] := ⟨by simp, by simp⟩

omit [DecidableEq α] in
theorem Settled.reach {visited : List α} (h : Settled children visited) {a b : α}
    (ha : a ∈ visited) (hab : ReflTransGen (Child children) a b) : b ∈ visited := by
  induction hab with
  | refl => exact ha
  | tail _ hbc ih => exact h.closed _ ih _ hbc

/-- A vertex whose children are all visited may join the visited set. -/
theorem Settled.insert {visited : List α} (h : Settled children visited) {n : α}
    (hn : ∀ c ∈ children n, c ∈ visited) : Settled children (visited.insert n) where
  closed v hv c hc := by
    rcases List.mem_insert_iff.mp hv with rfl | hv
    · exact List.mem_insert_of_mem (hn c hc)
    · exact List.mem_insert_of_mem (h.closed v hv c hc)
  acyclic v hv hvv := by
    rcases List.mem_insert_iff.mp hv with rfl | hv
    · obtain ⟨c, hc, hcv⟩ := TransGen.head'_iff.mp hvv
      exact h.acyclic v (h.reach (hn c hc) hcv) hvv
    · exact h.acyclic v hv hvv

theorem filter_not_mem_eq_nil {l visited : List α} :
    l.filter (· ∉ visited) = [] ↔ ∀ c ∈ l, c ∈ visited := by
  simp [List.filter_eq_nil_iff]

/-- A cycle can be reached from `a`. -/
def Loops (children : α → List α) (a : α) : Prop :=
  ∃ b, ReflTransGen (Child children) a b ∧ TransGen (Child children) b b

/-- A search that answers `false` has no cycle below its stack. -/
theorem not_loops_of_false (fuel : ℕ) {stack visited path : List α}
    (hv : Settled children visited)
    (h : hasCycleLoop children fuel stack visited path = some false) :
    ∀ a ∈ stack, ¬ Loops children a := by
  induction fuel generalizing stack visited path with
  | zero => simp [hasCycleLoop] at h
  | succ fuel ih =>
    cases stack with
    | nil => simp
    | cons n stack =>
      rw [hasCycleLoop] at h
      split_ifs at h with hc hp
      · cases h
      · intro a ha
        exact ih hv h a (List.mem_append_right _ ha)
      · have hn := filter_not_mem_eq_nil.mp (of_not_not hc)
        have hv' := hv.insert hn
        intro a ha
        rcases List.mem_cons.mp ha with rfl | ha
        · rintro ⟨b, hab, hbb⟩
          exact hv'.acyclic b (hv'.reach List.mem_insert_self hab) hbb
        · exact ih hv' h a ha

/-- Every path entry is on the stack; above it lie proper descendants of it, among
them all its unvisited children. -/
def PathOnStack (children : α → List α) (stack visited path : List α) : Prop :=
  ∀ p ∈ path, ∃ above under, stack = above ++ p :: under ∧
    (∀ a ∈ above, TransGen (Child children) p a) ∧ ∀ c ∈ children p, c ∉ visited → c ∈ above

omit [DecidableEq α] in
/-- A path entry other than the top of the stack has the top above it. -/
theorem PathOnStack.top {n p : α} {stack visited path : List α}
    (h : PathOnStack children (n :: stack) visited path) (hp : p ∈ path) (hne : p ≠ n) :
    ∃ above under, stack = above ++ p :: under ∧ TransGen (Child children) p n ∧
      (∀ a ∈ above, TransGen (Child children) p a) ∧
      ∀ c ∈ children p, c ∉ visited → c = n ∨ c ∈ above := by
  obtain ⟨above, under, hs, ha, hc⟩ := h p hp
  cases above with
  | nil => exact absurd (List.cons.inj hs).1.symm hne
  | cons m above =>
    obtain ⟨rfl, rfl⟩ := List.cons.inj hs
    exact ⟨above, under, rfl, ha n List.mem_cons_self,
      fun a h => ha a (List.mem_cons_of_mem _ h), fun c h h' => List.mem_cons.mp (hc c h h')⟩

/-- An expanded vertex that is met again on the path lies on a cycle. -/
theorem PathOnStack.cycle {n : α} {stack visited path : List α}
    (h : PathOnStack children (n :: stack) visited path) (hn : n ∈ path)
    (hc : (children n).filter (· ∉ visited) ≠ []) : TransGen (Child children) n n := by
  obtain ⟨above, under, hs, ha, hch⟩ := h n hn
  cases above with
  | nil =>
    refine absurd (filter_not_mem_eq_nil.mpr fun c hc => ?_) hc
    by_contra hcv
    exact List.not_mem_nil (hch c hc hcv)
  | cons m above =>
    obtain ⟨rfl, -⟩ := List.cons.inj hs
    exact ha n List.mem_cons_self

/-- Pushing the unvisited children of the top keeps the path on the stack. -/
theorem PathOnStack.push {n : α} {stack visited path : List α}
    (h : PathOnStack children (n :: stack) visited path) (hn : n ∉ path) :
    PathOnStack children (((children n).filter (· ∉ visited)).reverse ++ n :: stack) visited
      (n :: path) := by
  intro p hp
  rcases List.mem_cons.mp hp with rfl | hp
  · refine ⟨_, stack, rfl, fun a ha => ?_, fun c hc hcv => ?_⟩
    · rw [List.mem_reverse, List.mem_filter] at ha
      exact .single ha.1
    · rw [List.mem_reverse, List.mem_filter]
      exact ⟨hc, by simpa using hcv⟩
  · obtain ⟨above, under, rfl, hpn, ha, hc⟩ := h.top hp (fun he => hn (he ▸ hp))
    refine ⟨((children n).filter (· ∉ visited)).reverse ++ n :: above, under, by simp, ?_, ?_⟩
    · intro a ha'
      rcases List.mem_append.mp ha' with ha' | ha'
      · rw [List.mem_reverse, List.mem_filter] at ha'
        exact hpn.tail ha'.1
      · rcases List.mem_cons.mp ha' with rfl | ha'
        · exact hpn
        · exact ha a ha'
    · intro c hc' hcv
      refine List.mem_append_right _ ?_
      rcases hc c hc' hcv with rfl | hm
      · exact List.mem_cons_self
      · exact List.mem_cons_of_mem _ hm

/-- Popping a finished top keeps the rest of the path on the stack. -/
theorem PathOnStack.pop {n : α} {stack visited path : List α}
    (h : PathOnStack children (n :: stack) visited path) :
    PathOnStack children stack (visited.insert n) (path.filter (· ≠ n)) := by
  intro p hp
  obtain ⟨hp, hne⟩ := List.mem_filter.mp hp
  obtain ⟨above, under, rfl, -, ha, hc⟩ := h.top hp (by simpa using hne)
  refine ⟨above, under, rfl, ha, fun c hc' hcv => ?_⟩
  have hcn : c ≠ n ∧ c ∉ visited := by simpa [List.mem_insert_iff] using hcv
  exact (hc c hc' hcn.2).resolve_left hcn.1

/-- A search that answers `true` has a cycle below its stack. -/
theorem loops_of_true (fuel : ℕ) {stack visited path : List α}
    (hp : PathOnStack children stack visited path)
    (h : hasCycleLoop children fuel stack visited path = some true) :
    ∃ a ∈ stack, Loops children a := by
  induction fuel generalizing stack visited path with
  | zero => simp [hasCycleLoop] at h
  | succ fuel ih =>
    cases stack with
    | nil => simp [hasCycleLoop] at h
    | cons n stack =>
      rw [hasCycleLoop] at h
      split_ifs at h with hc hn
      · exact ⟨n, List.mem_cons_self, n, .refl, hp.cycle hn hc⟩
      · obtain ⟨a, ha, hl⟩ := ih (hp.push hn) h
        rcases List.mem_append.mp ha with ha | ha
        · rw [List.mem_reverse, List.mem_filter] at ha
          obtain ⟨b, hab, hbb⟩ := hl
          exact ⟨n, List.mem_cons_self, b, .head ha.1 hab, hbb⟩
        · exact ⟨a, ha, hl⟩
      · obtain ⟨a, ha, hl⟩ := ih hp.pop h
        exact ⟨a, List.mem_cons_of_mem _ ha, hl⟩

/-- What the loop may still push: the children of vertices that are neither on the
path nor visited, and one second visit for each such vertex. -/
def pending (children : α → List α) (nodes visited path : List α) : ℕ :=
  ((nodes.filter fun n => n ∉ visited ∧ n ∉ path).map fun n => (children n).length + 1).sum

omit [DecidableEq α] in
theorem sum_filter_le {p q : α → Bool} (f : α → ℕ) (l : List α) (h : ∀ a, p a → q a) :
    ((l.filter p).map f).sum ≤ ((l.filter q).map f).sum := by
  induction l with
  | nil => simp
  | cons a l ih =>
    by_cases hp : p a
    · simpa [hp, h a hp] using ih
    · by_cases hq : q a <;> simp [hp, hq] <;> omega

omit [DecidableEq α] in
theorem sum_filter_lt {p q : α → Bool} (f : α → ℕ) {l : List α} {n : α} (hn : n ∈ l)
    (h : ∀ a, p a → q a) (hp : ¬ p n) (hq : q n) :
    ((l.filter p).map f).sum + f n ≤ ((l.filter q).map f).sum := by
  induction l with
  | nil => simp at hn
  | cons a l ih =>
    rcases List.mem_cons.mp hn with rfl | hn
    · have := sum_filter_le f l h
      simp [hp, hq]; omega
    · have ih := ih hn
      by_cases hpa : p a
      · simp [hpa, h a hpa]; omega
      · by_cases hqa : q a <;> simp [hpa, hqa] <;> omega

theorem pending_push (children : α → List α) {nodes visited path : List α} {n : α}
    (hn : n ∈ nodes) (hv : n ∉ visited) (hp : n ∉ path) :
    pending children nodes visited (n :: path) + ((children n).length + 1) ≤
      pending children nodes visited path := by
  refine sum_filter_lt (fun n => (children n).length + 1) hn (fun a ha => ?_) ?_ ?_
  · simp only [List.mem_cons, not_or, decide_eq_true_eq] at ha ⊢
    exact ⟨ha.1, ha.2.2⟩
  · simp
  · simpa using ⟨hv, hp⟩

theorem pending_pop (children : α → List α) (nodes visited path : List α) (n : α) :
    pending children nodes (visited.insert n) (path.filter (· ≠ n)) ≤
      pending children nodes visited path := by
  refine sum_filter_le _ nodes (fun a ha => ?_)
  simp only [List.mem_insert_iff, not_or, List.mem_filter, decide_eq_true_eq] at ha ⊢
  exact ⟨ha.1.2, fun h => ha.2 ⟨h, ha.1.1⟩⟩

/-- With fuel for everything still pending, the loop ends. -/
theorem hasCycleLoop_isSome (children : α → List α) {nodes : List α}
    (hch : ∀ n ∈ nodes, ∀ c ∈ children n, c ∈ nodes) (fuel : ℕ) {stack visited path : List α} (hv : Settled children visited)
    (hs : ∀ a ∈ stack, a ∈ nodes)
    (hf : pending children nodes visited path + stack.length < fuel) :
    (hasCycleLoop children fuel stack visited path).isSome := by
  induction fuel generalizing stack visited path with
  | zero => omega
  | succ fuel ih =>
    cases stack with
    | nil => rfl
    | cons n stack =>
      have hn := hs n List.mem_cons_self
      have hs' : ∀ a ∈ stack, a ∈ nodes := fun a ha => hs a (List.mem_cons_of_mem _ ha)
      rw [List.length_cons] at hf
      rw [hasCycleLoop]
      split_ifs with hc hp
      · rfl
      · have hnv : n ∉ visited := fun h => hc (filter_not_mem_eq_nil.mpr (hv.closed n h))
        have hpush := pending_push children hn hnv hp
        have hlen := List.length_filter_le (fun c => decide (c ∉ visited)) (children n)
        refine ih hv (fun a ha => ?_) ?_
        · rcases List.mem_append.mp ha with ha | ha
          · rw [List.mem_reverse, List.mem_filter] at ha
            exact hch n hn a ha.1
          · exact hs a ha
        · simp only [List.length_append, List.length_reverse, List.length_cons]
          omega
      · have hpop := pending_pop children nodes visited path n
        exact ih (hv.insert (filter_not_mem_eq_nil.mp (of_not_not hc))) hs' (by omega)

end Loop

namespace SimpleDAG

variable {α β : Type*} [DecidableEq α] [DecidableEq β]

/-- The children of a node over all labels. -/
abbrev allChildren (g : SimpleDAG α β) (n : α) : List α := g.getChildren n none

/-- Enough steps for every search on the graph. -/
def hasCycleFuel (g : SimpleDAG α β) : ℕ :=
  pending g.allChildren g.nodes [] [] + g.getRootNodes.length + 1

def hasCycle (g : SimpleDAG α β) : Option Bool :=
  let nodeObjs := g.getRootNodes
  if g.nodes.length ≠ 0 ∧ nodeObjs.length = 0 then some true
  else hasCycleLoop g.allChildren g.hasCycleFuel nodeObjs.reverse [] []

/-- A node on a cycle can be reached from `a`. -/
def ReachesCycle (g : SimpleDAG α β) (a : α) : Prop :=
  ∃ b, ReflTransGen g.Parent a b ∧ TransGen g.Parent b b

theorem child_eq_parent {g : SimpleDAG α β} (hg : g.WellFormed) :
    Child g.allChildren = g.Parent := by
  funext a b
  exact propext hg.mem_getChildren

/-- The search ends, and it answers `true` exactly when there are nodes but no root
nodes, or a cycle lies below some root node. -/
theorem hasCycle_eq {g : SimpleDAG α β} (hg : g.WellFormed) :
    ∃ b, g.hasCycle = some b ∧
      (b = true ↔ (g.nodes ≠ [] ∧ g.getRootNodes = []) ∨ ∃ r ∈ g.getRootNodes, g.ReachesCycle r) := by
  have hloops : ∀ a, Loops g.allChildren a ↔ g.ReachesCycle a := fun a => by
    simp only [Loops, ReachesCycle, child_eq_parent hg]
  simp only [hasCycle]
  split_ifs with h
  · refine ⟨true, rfl, ?_⟩
    simp only [List.length_eq_zero_iff, ne_eq] at h
    simp [h]
  · have hch : ∀ n ∈ g.nodes, ∀ c ∈ g.allChildren n, c ∈ g.nodes :=
      fun n _ c hc => (hg.mem_getChildren.mp hc).nodes.2
    have hroots : ∀ a ∈ g.getRootNodes.reverse, a ∈ g.nodes :=
      fun a ha => (hg.mem_getRootNodes.mp (List.mem_reverse.mp ha)).1
    have hfuel : pending g.allChildren g.nodes [] [] + g.getRootNodes.reverse.length <
        g.hasCycleFuel := by simp [hasCycleFuel]
    have hsome := hasCycleLoop_isSome g.allChildren hch g.hasCycleFuel Settled.nil hroots hfuel
    obtain ⟨b, hb⟩ := Option.isSome_iff_exists.mp hsome
    refine ⟨b, hb, ?_⟩
    simp only [List.length_eq_zero_iff, ne_eq] at h
    cases b with
    | true =>
      obtain ⟨a, ha, hl⟩ := loops_of_true _ (by intro p hp; simp at hp) hb
      simpa using Or.inr ⟨a, List.mem_reverse.mp ha, (hloops a).mp hl⟩
    | false =>
      have hno := not_loops_of_false _ Settled.nil hb
      simp only [Bool.false_eq_true, false_iff, not_or]
      exact ⟨h, fun ⟨r, hr, hc⟩ => hno r (List.mem_reverse.mpr hr) ((hloops r).mpr hc)⟩

/-- Where no node is without a parent, the parents run in a circle. -/
theorem not_acyclic_of_no_roots {g : SimpleDAG α β} (hg : g.WellFormed) (hn : g.nodes ≠ [])
    (hr : g.getRootNodes = []) : ¬ Acyclic g.Parent := by
  intro hac
  obtain ⟨a, ha⟩ := List.exists_mem_of_ne_nil _ hn
  obtain ⟨b, hbn, hb⟩ := exists_source_free hac g.nodes (fun _ _ hab => hab.nodes.1)
    (P := (· ∈ g.nodes)) ha (fun _ _ _ hab => hab.nodes.1)
  have hroot := hg.mem_getRootNodes.mpr ⟨hbn, hb⟩
  rw [hr] at hroot
  exact List.not_mem_nil hroot

theorem reachesCycle_of_hasCycle {g : SimpleDAG α β} (hg : g.WellFormed)
    (h : g.hasCycle = some true) : ¬ Acyclic g.Parent := by
  obtain ⟨b, hb, hiff⟩ := hasCycle_eq hg
  rcases hiff.mp (Option.some.inj (hb.symm.trans h)) with ⟨hn, hr⟩ | ⟨r, -, b, -, hbb⟩
  · exact not_acyclic_of_no_roots hg hn hr
  · exact fun hac => hac b hbb

/-! ### Graphs that are built node by node and edge by edge -/

/-- The graphs that calls can lead to that do not raise; the set of root nodes may come in any
order. -/
inductive Built : SimpleDAG α β → Prop
  | empty : Built empty
  | addNode {g : SimpleDAG α β} (obj : α) : Built g → Built (g.addNode obj)
  | addEdge {g : SimpleDAG α β} {fromObj toObj : α} {label : β} : Built g →
      (g.addEdge fromObj toObj label).2 = none → Built (g.addEdge fromObj toObj label).1
  | roots {g : SimpleDAG α β} {rootNodes : List ℕ} : Built g → g.rootNodes.Perm rootNodes →
      Built { g with rootNodes := rootNodes }

theorem nodes_of_addEdge {g : SimpleDAG α β} (hg : g.WellFormed) {p c : α} {l : β}
    (h : (g.addEdge p c l).2 = none) : p ∈ g.nodes ∧ c ∈ g.nodes := by
  rw [hg.mem_nodes_iff, hg.mem_nodes_iff]
  rw [addEdge] at h
  cases hp : g.findOrd p <;> cases hc : g.findOrd c <;> rw [hp, hc] at h
  · cases h
  · cases h
  · cases h
  · exact ⟨⟨_, rfl⟩, _, rfl⟩

theorem Built.wellFormed {g : SimpleDAG α β} (h : g.Built) : g.WellFormed := by
  induction h with
  | empty => exact empty_wellFormed
  | addNode obj _ ih => exact addNode_wellFormed ih obj
  | @addEdge g p c l _ hnone ih =>
    obtain ⟨hp, hc⟩ := nodes_of_addEdge ih hnone
    exact addEdge_wellFormed ih hp hc l
  | roots _ hperm ih =>
    exact ⟨ih.nodes_nodup, ih.index, ih.mirror, ih.bound,
      fun i => (hperm.mem_iff.symm).trans (ih.roots i), hperm.nodup_iff.mp ih.roots_nodup⟩

/-- Where every node lies below a root node, or there is no root node, the search ends and finds a
cycle exactly if there is one. -/
theorem hasCycle_iff_cycle {g : SimpleDAG α β} (hg : g.Built)
    (hroots : (∀ n ∈ g.nodes, ∃ r ∈ g.getRootNodes, ReflTransGen g.Parent r n) ∨
      g.getRootNodes = []) :
    ∃ b, g.hasCycle = some b ∧ (b = true ↔ ∃ n, TransGen g.Parent n n) := by
  have hwf := hg.wellFormed
  obtain ⟨b, hb, hiff⟩ := hasCycle_eq hwf
  refine ⟨b, hb, hiff.trans ⟨?_, ?_⟩⟩
  · rintro (⟨hn, hr⟩ | ⟨r, -, n, -, hnn⟩)
    · have hcycle := not_acyclic_of_no_roots hwf hn hr
      rw [Acyclic, not_forall] at hcycle
      exact hcycle.imp fun n hn => of_not_not hn
    · exact ⟨n, hnn⟩
  · rintro ⟨n, hnn⟩
    have hmem : n ∈ g.nodes := by
      obtain ⟨m, hnm, -⟩ := TransGen.head'_iff.mp hnn
      exact hnm.nodes.1
    rcases hroots with hbelow | hnone
    · obtain ⟨r, hr, hrn⟩ := hbelow n hmem
      exact .inr ⟨r, hr, n, hrn, hnn⟩
    · exact .inl ⟨List.ne_nil_of_mem hmem, hnone⟩

/-- Two ways lead from the first node to the last one, the last step of one of them by two labels. -/
def diamond : SimpleDAG ℕ Bool :=
  [(1, 2, true), (1, 3, true), (2, 4, true), (3, 4, true), (3, 4, false)].foldl
    (fun g (fromObj, toObj, label) => (g.addEdge fromObj toObj label).1)
    ([1, 2, 3, 4].foldl addNode empty)

theorem built_diamond : diamond.Built := by
  refine .addEdge (.addEdge (.addEdge (.addEdge (.addEdge (.addNode 4 (.addNode 3
    (.addNode 2 (.addNode 1 .empty)))) ?_) ?_) ?_) ?_) ?_
  all_goals decide

theorem hasCycle_iff_cycle_diamond :
    ∃ b, diamond.hasCycle = some b ∧ (b = true ↔ ∃ n, TransGen diamond.Parent n n) := by
  have hchild : ∀ {a b : ℕ}, b ∈ diamond.getChildren a none → diamond.Parent a b :=
    built_diamond.wellFormed.mem_getChildren.mp
  refine hasCycle_iff_cycle built_diamond (.inl fun n hn => ⟨1, by decide, ?_⟩)
  have hcases : n = 1 ∨ n = 2 ∨ n = 3 ∨ n = 4 := by
    simpa using (show n ∈ [1, 2, 3, 4] from hn)
  rcases hcases with rfl | rfl | rfl | rfl
  · exact .refl
  · exact .single (hchild (by decide))
  · exact .single (hchild (by decide))
  · exact .tail (.single (hchild (b := 2) (by decide))) (hchild (by decide))

end SimpleDAG

end Forail.Scheduler
