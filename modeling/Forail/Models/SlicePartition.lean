import Forail.Models.InventorySlices
import Mathlib.Data.Finset.Card

/-! The slices of an inventory. The names in each queryset are sorted, and those of a run
have no repetitions, so the strides of the run partition them. -/

namespace Forail.Slices

open Stride

variable {ν : Type*} [LinearOrder ν]

section Names
variable {hosts : List (Host ν)} {x : ν}

theorem names_orderByName (hosts : List (Host ν)) :
    ((orderByName hosts).map Host.name).Pairwise (· ≤ ·) := by
  rw [List.pairwise_map]
  have : Std.Total fun a b : Host ν => a.name ≤ b.name := ⟨fun a b => le_total a.name b.name⟩
  have : IsTrans (Host ν) fun a b => a.name ≤ b.name := ⟨fun _ _ _ => le_trans⟩
  exact List.pairwise_insertionSort _ hosts

theorem perm_orderByName (hosts : List (Host ν)) :
    ((orderByName hosts).map Host.name).Perm (hosts.map Host.name) :=
  (List.perm_insertionSort _ hosts).map _

theorem mem_names_distinctNames :
    x ∈ (distinctNames hosts).map Host.name ↔ x ∈ hosts.map Host.name := by
  induction hosts with
  | nil => rfl
  | cons h hosts ih =>
    rw [distinctNames, List.map_cons, List.map_cons, List.mem_cons, List.mem_cons, ← ih]
    apply or_congr_right'
    intro hne
    simp only [List.mem_map, List.mem_filter, decide_eq_true_eq]
    constructor
    · rintro ⟨h', ⟨hm, -⟩, hx⟩
      exact ⟨h', hm, hx⟩
    · rintro ⟨h', hm, rfl⟩
      exact ⟨h', ⟨hm, hne⟩, rfl⟩

theorem names_distinctNames (hs : (hosts.map Host.name).Pairwise (· ≤ ·)) :
    ((distinctNames hosts).map Host.name).Pairwise (· < ·) := by
  induction hosts with
  | nil => exact .nil
  | cons h hosts ih =>
    obtain ⟨hle, hs⟩ := List.pairwise_cons.mp hs
    rw [distinctNames, List.map_cons, List.pairwise_cons]
    constructor
    · intro y hy
      obtain ⟨h', hm, rfl⟩ := List.mem_map.mp hy
      obtain ⟨hm, hne⟩ := List.mem_filter.mp hm
      have hy' := mem_names_distinctNames.mp (List.mem_map_of_mem hm)
      exact lt_of_le_of_ne (hle _ hy') (Ne.symm (of_decide_eq_true hne))
    · exact (ih hs).sublist (List.filter_sublist.map _)

variable {inv : Inventory ν}

theorem names_query (hsub : hosts.Sublist inv.hosts) :
    ((inv.query hosts).map Host.name).Pairwise (· < ·) := by
  have hnodup (hk : inv.kind ≠ .smart) :
      ((orderByName hosts).map Host.name).Pairwise (· < ·) := by
    have hn := (perm_orderByName hosts).nodup_iff.mpr ((inv.nodup hk).sublist (hsub.map _))
    exact (names_orderByName hosts).imp₂ (fun _ _ hle hne => lt_of_le_of_ne hle hne) hn
  unfold Inventory.query
  cases hk : inv.kind with
  | smart => exact names_distinctNames (names_orderByName hosts)
  | standard => exact hnodup (by simp [hk])
  | constructed => exact hnodup (by simp [hk])

theorem mem_names_query :
    x ∈ (inv.query hosts).map Host.name ↔ ∃ h ∈ hosts, h.name = x := by
  have ho : x ∈ (orderByName hosts).map Host.name ↔ ∃ h ∈ hosts, h.name = x :=
    (perm_orderByName hosts).mem_iff.trans List.mem_map
  unfold Inventory.query
  cases inv.kind with
  | smart => exact mem_names_distinctNames.trans ho
  | standard => exact ho
  | constructed => exact ho

end Names

/-- The names that the slices of a run are cut from. -/
def Inventory.runNames (inv : Inventory ν) : List ν := (inv.scriptHosts false).map Host.name

theorem Inventory.pairwise_runNames (inv : Inventory ν) : inv.runNames.Pairwise (· < ·) :=
  names_query List.filter_sublist

theorem Inventory.mem_runNames {inv : Inventory ν} {x : ν} :
    x ∈ inv.runNames ↔ ∃ h ∈ inv.hosts, h.enabled = true ∧ h.name = x := by
  rw [runNames, scriptHosts, mem_names_query]
  simp [and_assoc]

theorem map_getSlicedHosts {α β : Type*} (f : α → β) (sliceNumber sliceCount : ℕ) (l : List α) :
    (getSlicedHosts l sliceNumber sliceCount).map f =
      getSlicedHosts (l.map f) sliceNumber sliceCount := by
  unfold getSlicedHosts
  split
  · exact map_stride f _ _ l
  · rfl

/-- The generated inventory names the hosts of its slice: those outside it are dropped from
the groups, and those in no group are listed apart. -/
theorem mem_hostNames {inv : Inventory ν} {sliceNumber sliceCount : ℕ} {x : ν} :
    x ∈ (getScriptData inv true false sliceNumber sliceCount).hostNames ↔
      x ∈ getSlicedHosts inv.runNames sliceNumber sliceCount := by
  rw [Inventory.runNames, ← map_getSlicedHosts]
  set names := (getSlicedHosts (inv.scriptHosts false) sliceNumber sliceCount).map Host.name
  have hgroup (id : ℕ) (y : ν)
      (hy : y ∈ (((inv.groupHosts.filter fun m => m.hostName ∈ names).filter
        fun m => m.groupId = id).map GroupHost.hostName)) : y ∈ names := by
    obtain ⟨m, hm, rfl⟩ := List.mem_map.mp hy
    exact of_decide_eq_true (List.mem_filter.mp (List.mem_filter.mp hm).1).2
  unfold getScriptData ScriptData.hostNames
  cases inv.kind with
  | smart => simp [names]
  | standard | constructed =>
    rw [List.mem_append, List.mem_append, List.mem_flatMap]
    constructor
    · rintro ((hx | ⟨g, hg, hx⟩) | hx)
      · exact List.mem_of_mem_filter hx
      · obtain ⟨group, -, rfl⟩ := List.mem_map.mp hg
        exact hgroup group.id x hx
      · exact hx
    · exact .inr

section Slicing
variable {jt : JobTemplate ν} {kwargs : Kwargs ν} {w : WorkflowJob ν} {inv : Inventory ν}

theorem createUnifiedJob_eq_workflowJob (h : createUnifiedJob jt kwargs = .workflowJob w) :
    1 < getEffectiveSliceCt jt kwargs ∧
      w = ⟨kwargs.inventory.or jt.inventory, jt.allowSimultaneous,
        (List.range (getEffectiveSliceCt jt kwargs)).map fun idx => ⟨some (idx + 1), []⟩⟩ := by
  unfold createUnifiedJob at h
  by_cases hs : 1 < getEffectiveSliceCt jt kwargs ∧ kwargs.preventSlicing = false
  · rw [if_pos hs, Created.workflowJob.injEq] at h
    exact ⟨hs.1, h.symm⟩
  · rw [if_neg hs] at h
    cases h

/-- The slice with the given index of a run on the inventory. -/
def sliceJob (inv : Inventory ν) (n idx : ℕ) : Job ν := ⟨some inv, true, idx + 1, n⟩

/-- The slice jobs are numbered from one on and run on the inventory that was sliced. -/
theorem sliceJobs_eq (h : createUnifiedJob jt kwargs = .workflowJob w)
    (hinv : actualInventory jt kwargs = some inv) :
    sliceJobs jt w =
      (List.range (getEffectiveSliceCt jt kwargs)).map fun idx =>
        .job (sliceJob inv (getEffectiveSliceCt jt kwargs) idx) := by
  obtain ⟨-, rfl⟩ := createUnifiedJob_eq_workflowJob h
  rw [sliceJobs, List.map_map]
  apply List.map_congr_left
  intro idx _
  unfold actualInventory at hinv
  cases hask : jt.askInventoryOnLaunch <;>
    simp_all [createUnifiedJob, getJobKwargs, sliceJob]

end Slicing

/-- The hosts that the generated inventory of a job names. -/
def generatedHosts (job : Job ν) : Finset ν :=
  match buildInventory job with
  | some data => data.hostNames.toFinset
  | none => ∅

theorem mem_generatedHosts {inv : Inventory ν} {n idx : ℕ} (hn : 1 < n) {x : ν} :
    x ∈ generatedHosts (sliceJob inv n idx) ↔ x ∈ stride n idx inv.runNames := by
  simp [generatedHosts, buildInventory, sliceJob, mem_hostNames, getSlicedHosts, hn]

theorem card_generatedHosts {inv : Inventory ν} {n idx : ℕ} (hn : 1 < n) :
    (generatedHosts (sliceJob inv n idx)).card = (stride n idx inv.runNames).length := by
  have he : generatedHosts (sliceJob inv n idx) = (stride n idx inv.runNames).toFinset := by
    ext x
    rw [mem_generatedHosts hn, List.mem_toFinset]
  rw [he, List.toFinset_card_of_nodup]
  exact (inv.pairwise_runNames.imp ne_of_lt).sublist (stride_sublist _ _ _)

/-- The generated inventories share the enabled hosts out evenly among the jobs. -/
structure SharesHosts (inv : Inventory ν) (jobs : List (Job ν)) : Prop where
  disjoint : jobs.Pairwise fun job job' => Disjoint (generatedHosts job) (generatedHosts job')
  balanced : ∀ job ∈ jobs, ∀ job' ∈ jobs,
    (generatedHosts job).card ≤ (generatedHosts job').card + 1
  covers : ∀ x, (∃ job ∈ jobs, x ∈ generatedHosts job) ↔
    ∃ h ∈ inv.hosts, h.enabled = true ∧ h.name = x

theorem sharesHosts {inv : Inventory ν} {n : ℕ} (hn : 1 < n) :
    SharesHosts inv ((List.range n).map (sliceJob inv n)) where
  disjoint := by
    rw [List.pairwise_map]
    refine List.nodup_range.imp_of_mem ?_
    intro idx idx' hi hi' hne
    rw [Finset.disjoint_left]
    intro x hx hx'
    exact hne (eq_of_mem_stride (by omega) (inv.pairwise_runNames.imp ne_of_lt)
      (List.mem_range.mp hi) (List.mem_range.mp hi') ((mem_generatedHosts hn).mp hx)
      ((mem_generatedHosts hn).mp hx'))
  balanced := by
    intro job hj job' hj'
    obtain ⟨idx, hi, rfl⟩ := List.mem_map.mp hj
    obtain ⟨idx', hi', rfl⟩ := List.mem_map.mp hj'
    rw [card_generatedHosts hn, card_generatedHosts hn]
    exact length_stride_le (List.mem_range.mp hi) (List.mem_range.mp hi')
  covers := by
    intro x
    rw [← Inventory.mem_runNames]
    constructor
    · rintro ⟨job, hj, hx⟩
      obtain ⟨idx, -, rfl⟩ := List.mem_map.mp hj
      exact (stride_sublist _ _ _).mem ((mem_generatedHosts hn).mp hx)
    · intro hx
      obtain ⟨idx, hi, hx⟩ := exists_mem_stride (by omega : 0 < n) hx
      exact ⟨_, List.mem_map_of_mem (List.mem_range.mpr hi), (mem_generatedHosts hn).mpr hx⟩

end Forail.Slices
