import Forail.Scheduler.MarkDnr
import Mathlib.Algebra.GroupWithZero.Nat

/-! The breadth-first search `bfsNodesToRun`. It visits exactly the nodes that can be
reached from a root along followed edges, each once, and returns those of them that
are ready: undecided, with a template, with finished parents and, for an
ALL-convergence node, with the criteria met. -/

namespace Forail.Scheduler.WorkflowDAG

/-- Reached by the search: a root, or followed from a reached node. -/
inductive Reached (g : WorkflowDAG) (objs : NodeStore) : NodeId → Prop
  | root {n : NodeId} : n ∈ g.getRootNodes → Reached g objs n
  | step {p n : NodeId} : Reached g objs p → g.Follows objs p n → Reached g objs n

/-- The search returns the node when it visits it. -/
def ready (g : WorkflowDAG) (objs : NodeStore) (n : NodeId) : Bool :=
  !(objs n).doNotRun && (objs n).job.isNone && (objs n).unifiedJobTemplate.isSome &&
    g.areRelevantParentsFinished objs n &&
    (!(objs n).allParentsMustConverge || g.allParentsMetConvergenceCriteria objs n)

/-- The nodes appended to the queue when a node is visited. -/
def pushed (g : WorkflowDAG) (objs : NodeStore) (n : NodeId) : List NodeId :=
  if !(objs n).doNotRun && ((objs n).job.isSome || (objs n).unifiedJobTemplate.isNone) then
    g.childrenToVisit objs n
  else []

theorem mem_pushed {g : WorkflowDAG} (hg : g.WellFormed) {objs : NodeStore} {p n : NodeId} :
    n ∈ g.pushed objs p ↔ g.Follows objs p n := by
  unfold pushed
  split_ifs with h
  · simp only [Bool.and_eq_true, Bool.not_eq_true', Bool.or_eq_true, Option.isNone_iff_eq_none] at h
    rw [mem_childrenToVisit hg]
    exact ⟨fun hl => ⟨h.1, h.2, hl⟩, fun hf => hf.leads⟩
  · refine iff_of_false List.not_mem_nil fun hf => h ?_
    simpa [hf.live] using hf.decided

/-- A visited node is either pushed on or tested, never both: the six branches of the
loop are one step. -/
theorem bfsLoop_visit (g : WorkflowDAG) (objs : NodeStore) (fuel : ℕ) (n : NodeId)
    (nodes visited found : List NodeId) (hn : n ∉ visited) :
    g.bfsLoop objs (fuel + 1) (n :: nodes) visited found =
      g.bfsLoop objs fuel (nodes ++ g.pushed objs n) (n :: visited)
        (if g.ready objs n then found ++ [n] else found) := by
  rw [bfsLoop, if_neg hn]
  unfold pushed ready
  cases (objs n).doNotRun with
  | true => simp
  | false =>
    cases (objs n).job with
    | some st => simp
    | none =>
      cases (objs n).unifiedJobTemplate with
      | none => simp
      | some t =>
        cases (objs n).allParentsMustConverge <;>
          cases g.areRelevantParentsFinished objs n <;>
          cases g.allParentsMetConvergenceCriteria objs n <;> simp

/-- The loop invariant: everything met so far is reached, and what is followed from a
visited node is visited or queued. -/
structure BfsInv (g : WorkflowDAG) (objs : NodeStore) (nodes visited found : List NodeId) :
    Prop where
  reached : ∀ n, n ∈ nodes ∨ n ∈ visited → g.Reached objs n
  closed : ∀ p ∈ visited, ∀ n, g.Follows objs p n → n ∈ visited ∨ n ∈ nodes
  roots : ∀ r ∈ g.getRootNodes, r ∈ visited ∨ r ∈ nodes
  mem_found : ∀ n, n ∈ found ↔ n ∈ visited ∧ g.ready objs n = true
  nodup : found.Nodup

theorem BfsInv.skip {g : WorkflowDAG} {objs : NodeStore} {n : NodeId}
    {nodes visited found : List NodeId} (h : BfsInv g objs (n :: nodes) visited found)
    (hn : n ∈ visited) : BfsInv g objs nodes visited found := by
  have hmem : ∀ m, m ∈ visited ∨ m ∈ n :: nodes → m ∈ visited ∨ m ∈ nodes := fun m hm => by
    rcases hm with hm | hm
    · exact .inl hm
    · rcases List.mem_cons.mp hm with rfl | hm
      · exact .inl hn
      · exact .inr hm
  exact ⟨fun m hm => h.reached m (hm.imp (List.mem_cons_of_mem _) id),
    fun p hp m hm => hmem m (h.closed p hp m hm), fun r hr => hmem r (h.roots r hr),
    h.mem_found, h.nodup⟩

theorem BfsInv.visit {g : WorkflowDAG} (hg : g.WellFormed) {objs : NodeStore} {n : NodeId}
    {nodes visited found : List NodeId} (h : BfsInv g objs (n :: nodes) visited found)
    (hn : n ∉ visited) : BfsInv g objs (nodes ++ g.pushed objs n) (n :: visited)
      (if g.ready objs n then found ++ [n] else found) := by
  have hreach : g.Reached objs n := h.reached n (.inl List.mem_cons_self)
  have hmem : ∀ m, m ∈ visited ∨ m ∈ n :: nodes →
      m ∈ n :: visited ∨ m ∈ nodes ++ g.pushed objs n := fun m hm => by
    rcases hm with hm | hm
    · exact .inl (List.mem_cons_of_mem _ hm)
    · rcases List.mem_cons.mp hm with rfl | hm
      · exact .inl List.mem_cons_self
      · exact .inr (List.mem_append_left _ hm)
  have hnf : n ∉ found := fun hf => hn ((h.mem_found n).mp hf).1
  refine ⟨fun m hm => ?_, fun p hp m hm => ?_, fun r hr => hmem r (h.roots r hr), fun m => ?_, ?_⟩
  · rcases hm with hm | hm
    · rcases List.mem_append.mp hm with hm | hm
      · exact h.reached m (.inl (List.mem_cons_of_mem _ hm))
      · exact .step hreach ((mem_pushed hg).mp hm)
    · rcases List.mem_cons.mp hm with rfl | hm
      · exact hreach
      · exact h.reached m (.inr hm)
  · rcases List.mem_cons.mp hp with rfl | hp
    · exact .inr (List.mem_append_right _ ((mem_pushed hg).mpr hm))
    · exact hmem m (h.closed p hp m hm)
  · by_cases hr : g.ready objs n = true
    · rw [if_pos hr, List.mem_append, List.mem_singleton, h.mem_found, List.mem_cons]
      constructor
      · rintro (⟨hv, hm⟩ | rfl)
        · exact ⟨.inr hv, hm⟩
        · exact ⟨.inl rfl, hr⟩
      · rintro ⟨rfl | hv, hm⟩
        · exact .inr rfl
        · exact .inl ⟨hv, hm⟩
    · rw [if_neg hr, h.mem_found, List.mem_cons]
      constructor
      · rintro ⟨hv, hm⟩
        exact ⟨.inr hv, hm⟩
      · rintro ⟨rfl | hv, hm⟩
        · exact absurd hm hr
        · exact ⟨hv, hm⟩
  · split_ifs
    · refine List.nodup_append.mpr ⟨h.nodup, by simp, fun a ha b hb hab => ?_⟩
      rw [List.mem_singleton] at hb
      exact hnf (hb ▸ hab ▸ ha)
    · exact h.nodup

/-- With nothing queued, the visited nodes are the reached ones. -/
theorem BfsInv.done {g : WorkflowDAG} {objs : NodeStore} {visited found : List NodeId}
    (h : BfsInv g objs [] visited found) (n : NodeId) :
    n ∈ found ↔ g.Reached objs n ∧ g.ready objs n = true := by
  have hvisited : ∀ m, g.Reached objs m → m ∈ visited := fun m hm => by
    induction hm with
    | root hr => exact (h.roots _ hr).resolve_right List.not_mem_nil
    | step _ hf ih => exact (h.closed _ ih _ hf).resolve_right List.not_mem_nil
  rw [h.mem_found]
  exact and_congr_left fun _ => ⟨fun hn => h.reached n (.inr hn), hvisited n⟩

/-- What the unvisited nodes may still push. -/
def pendingPushes (g : WorkflowDAG) (objs : NodeStore) (visited : List NodeId) : ℕ :=
  ((g.nodes.filter (· ∉ visited)).map fun n => (g.childrenToVisit objs n).length).sum

theorem pendingPushes_visit {g : WorkflowDAG} (objs : NodeStore) {n : NodeId}
    {visited : List NodeId} (hn : n ∈ g.nodes) (hv : n ∉ visited) :
    g.pendingPushes objs (n :: visited) + (g.pushed objs n).length ≤ g.pendingPushes objs visited := by
  have hlen : (g.pushed objs n).length ≤ (g.childrenToVisit objs n).length := by
    unfold pushed
    split_ifs <;> simp
  have hsum := sum_filter_lt (p := fun m => decide (m ∉ n :: visited))
    (q := fun m => decide (m ∉ visited)) (fun m => (g.childrenToVisit objs m).length) hn
    (fun m hm => by simp only [List.mem_cons, not_or, decide_eq_true_eq] at hm ⊢; exact hm.2)
    (by simp) (by simpa using hv)
  unfold pendingPushes
  omega

theorem bfsLoop_spec {g : WorkflowDAG} (hg : g.WellFormed) {objs : NodeStore} (fuel : ℕ)
    {nodes visited found : List NodeId} (h : BfsInv g objs nodes visited found)
    (hn : ∀ n ∈ nodes, n ∈ g.nodes) (hf : g.pendingPushes objs visited + nodes.length < fuel) :
    ∃ r, g.bfsLoop objs fuel nodes visited found = some r ∧ r.Nodup ∧
      ∀ n, n ∈ r ↔ g.Reached objs n ∧ g.ready objs n = true := by
  induction fuel generalizing nodes visited found with
  | zero => omega
  | succ fuel ih =>
    cases nodes with
    | nil => exact ⟨found, rfl, h.nodup, h.done⟩
    | cons n nodes =>
      have hn' : ∀ m ∈ nodes, m ∈ g.nodes := fun m hm => hn m (List.mem_cons_of_mem _ hm)
      rw [List.length_cons] at hf
      by_cases hv : n ∈ visited
      · rw [bfsLoop, if_pos hv]
        exact ih (h.skip hv) hn' (by omega)
      · rw [bfsLoop_visit g objs fuel n nodes visited found hv]
        have hpend := pendingPushes_visit objs (hn n List.mem_cons_self) hv
        refine ih (h.visit hg hv) (fun m hm => ?_) ?_
        · rcases List.mem_append.mp hm with hm | hm
          · exact hn' m hm
          · exact ((mem_pushed hg).mp hm).parent.nodes.2
        · rw [List.length_append]
          omega

/-- The search returns each reached and ready node once. -/
theorem bfsNodesToRun_spec {g : WorkflowDAG} (hg : g.WellFormed) (objs : NodeStore) :
    ∃ r, g.bfsNodesToRun objs = some r ∧ r.Nodup ∧
      ∀ n, n ∈ r ↔ g.Reached objs n ∧ g.ready objs n = true := by
  have hroots : ∀ n ∈ g.getRootNodes, n ∈ g.nodes := fun n hn => (hg.mem_getRootNodes.mp hn).1
  refine bfsLoop_spec hg _ ⟨fun n hn => ?_, by simp, fun r hr => .inr hr, by simp, List.nodup_nil⟩
    hroots ?_
  · exact .root (hn.resolve_right List.not_mem_nil)
  · simp [pendingPushes, bfsFuel]

theorem Reached.mem_nodes {g : WorkflowDAG} (hg : g.WellFormed) {objs : NodeStore} {n : NodeId}
    (h : g.Reached objs n) : n ∈ g.nodes := by
  cases h with
  | root hr => exact (hg.mem_getRootNodes.mp hr).1
  | step _ hf => exact hf.parent.nodes.2

end Forail.Scheduler.WorkflowDAG
