import Forail.Models.SlicePartition

/-! The facts of a slice. They are loaded and saved for a stride through all hosts, while the
job runs on a stride through the enabled ones. So a slice has the facts of all its hosts
only where the names that the run leaves out come in multiples of the slice count before
each host. -/

namespace Forail.Slices

open Stride

variable {ν : Type*} [LinearOrder ν]

/-- The names before the given one that only disabled hosts have. -/
def Inventory.skipped (inv : Inventory ν) (x : ν) : Finset ν :=
  (inv.hosts.map Host.name).toFinset.filter fun y =>
    y < x ∧ ∀ h ∈ inv.hosts, h.name = y → h.enabled = false

/-- The hosts of the input inventories that a constructed inventory has copies of. -/
def Inventory.originals (inv : Inventory ν) (objects : List (Host ν)) : List (Host ν) :=
  objects.filter fun h => inv.hosts.any fun c => c.instanceId = some h.id

/-- Each enabled host has as many names before it in the one list as in the other, up to
multiples of the slice count. Among originals of equal names any will do. -/
def Inventory.Aligned (inv : Inventory ν) (objects : List (Host ν)) (n : ℕ) : Prop :=
  match inv.kind with
  | .standard | .smart => ∀ h ∈ inv.hosts, h.enabled = true → n ∣ (inv.skipped h.name).card
  | .constructed => ∀ h ∈ inv.hosts, h.enabled = true →
    ∃ e < (inv.originals objects).countP (·.name = h.name),
      (inv.originals objects).countP (·.name < h.name) + e ≡
        inv.hosts.countP (fun h' => h'.enabled && h'.name < h.name) [MOD n]

/-- The names that the slices of the facts are cut from. -/
def Inventory.factNames (inv : Inventory ν) (objects : List (Host ν)) : List ν :=
  (inv.factHosts objects).map Host.name

section Names
variable {inv : Inventory ν} {objects : List (Host ν)} {x : ν} {n : ℕ}

theorem Inventory.factNames_constructed (hk : inv.kind = .constructed) :
    (inv.factNames objects).Perm ((inv.originals objects).map Host.name) := by
  unfold factNames factHosts
  rw [hk]
  exact perm_orderByName _

theorem Inventory.factNames_live (hk : inv.kind ≠ .constructed) :
    inv.factNames objects = (inv.query inv.hosts).map Host.name := by
  unfold factNames factHosts
  cases h : inv.kind with
  | constructed => exact absurd h hk
  | standard | smart => rfl

theorem Inventory.pairwise_factNames (inv : Inventory ν) (objects : List (Host ν)) :
    (inv.factNames objects).Pairwise (· ≤ ·) := by
  by_cases hk : inv.kind = .constructed
  · unfold factNames factHosts
    rw [hk]
    exact names_orderByName _
  · rw [factNames_live hk]
    exact (names_query (List.Sublist.refl _)).imp le_of_lt

theorem countP_eq_card {l : List ν} (hl : l.Nodup) (p : ν → Prop) [DecidablePred p] :
    l.countP p = (l.toFinset.filter p).card := by
  rw [List.countP_eq_length_filter, ← List.toFinset_card_of_nodup (hl.filter _),
    List.toFinset_filter]
  congr 1
  ext y
  simp

/-- The members of the facts list before a name are those of the run and the skipped ones. -/
theorem Inventory.countP_factNames (hk : inv.kind ≠ .constructed) :
    (inv.factNames objects).countP (· < x) =
      inv.runNames.countP (· < x) + (inv.skipped x).card := by
  have hf := names_query (List.Sublist.refl inv.hosts)
  rw [factNames_live hk, countP_eq_card (hf.imp ne_of_lt), countP_eq_card
    (inv.pairwise_runNames.imp ne_of_lt), Nat.add_comm,
    ← Finset.card_filter_add_card_filter_not
      fun y => ∀ h ∈ inv.hosts, h.name = y → h.enabled = false]
  congr 2
  · ext y
    rw [skipped, Finset.mem_filter, Finset.mem_filter, Finset.mem_filter, List.mem_toFinset,
      mem_names_query, List.mem_toFinset, List.mem_map, and_assoc]
  · ext y
    simp only [Finset.mem_filter, List.mem_toFinset, mem_names_query, mem_runNames, not_forall,
      Bool.not_eq_false]
    constructor
    · rintro ⟨⟨-, hlt⟩, h, hm, hy, he⟩
      exact ⟨⟨h, hm, he, hy⟩, hlt⟩
    · rintro ⟨⟨h, hm, he, hy⟩, hlt⟩
      exact ⟨⟨⟨h, hm, hy⟩, hlt⟩, h, hm, hy, he⟩

theorem Inventory.count_factNames (hk : inv.kind ≠ .constructed) (hx : x ∈ inv.runNames) :
    (inv.factNames objects).count x = 1 := by
  have hf := names_query (List.Sublist.refl inv.hosts)
  obtain ⟨h, hm, -, rfl⟩ := mem_runNames.mp hx
  rw [factNames_live hk, List.Nodup.count (hf.imp ne_of_lt),
    if_pos (mem_names_query.mpr ⟨h, hm, rfl⟩)]

theorem Inventory.countP_runNames (hk : inv.kind ≠ .smart) :
    inv.runNames.countP (· < x) =
      inv.hosts.countP fun h => h.enabled && h.name < x := by
  have hp : inv.runNames.Perm ((inv.hosts.filter fun h => h.enabled).map Host.name) := by
    unfold runNames scriptHosts query
    cases h : inv.kind with
    | smart => exact absurd h hk
    | standard | constructed => simpa using perm_orderByName _
  rw [hp.countP_eq, List.countP_map, List.countP_filter]
  simp only [Function.comp_apply, Bool.and_comm]

/-- Every slice of the run is contained in that of the facts exactly for aligned hosts. -/
theorem Inventory.stride_subset_iff_aligned (hn : 0 < n) :
    (∀ idx < n, ∀ x ∈ stride n idx inv.runNames, x ∈ stride n idx (inv.factNames objects)) ↔
      inv.Aligned objects n := by
  rw [stride_subset_iff hn inv.pairwise_runNames (inv.pairwise_factNames objects)]
  have hlive (hk : inv.kind ≠ .constructed) :
      (∀ x ∈ inv.runNames, ∃ e < (inv.factNames objects).count x,
        (inv.factNames objects).countP (· < x) + e ≡ inv.runNames.countP (· < x) [MOD n]) ↔
      ∀ h ∈ inv.hosts, h.enabled = true → n ∣ (inv.skipped h.name).card := by
    have hmod {x : ν} (hx : x ∈ inv.runNames) :
        (∃ e < (inv.factNames objects).count x,
          (inv.factNames objects).countP (· < x) + e ≡ inv.runNames.countP (· < x) [MOD n]) ↔
        n ∣ (inv.skipped x).card := by
      simp only [count_factNames hk hx, countP_factNames hk, Nat.lt_one_iff, exists_eq_left,
        Nat.add_zero]
      rw [Nat.ModEq.comm, Nat.modEq_iff_dvd' (Nat.le_add_right _ _), Nat.add_sub_cancel_left]
    constructor
    · intro h host hm he
      have hx := mem_runNames.mpr ⟨host, hm, he, rfl⟩
      exact (hmod hx).mp (h _ hx)
    · intro h x hx
      obtain ⟨host, hm, he, rfl⟩ := mem_runNames.mp hx
      exact (hmod hx).mpr (h host hm he)
  unfold Aligned
  cases hk : inv.kind with
  | standard | smart => exact hlive (by simp [hk])
  | constructed =>
    have hperm (rows : List (Host ν)) := @factNames_constructed ν _ inv rows hk
    have hcount (x : ν) :
        (inv.factNames objects).count x = (inv.originals objects).countP (·.name = x) := by
      rw [(hperm objects).count_eq, List.count_eq_countP, List.countP_map]
      rfl
    have hbelow (x : ν) : (inv.factNames objects).countP (· < x) =
        (inv.originals objects).countP (·.name < x) := by
      rw [(hperm objects).countP_eq, List.countP_map]
      rfl
    have hrun (x : ν) := @countP_runNames ν _ inv x (by simp [hk])
    simp only [hcount, hbelow, hrun]
    constructor
    · intro h host hm he
      exact h host.name (mem_runNames.mpr ⟨host, hm, he, rfl⟩)
    · intro h x hx
      obtain ⟨host, hm, he, rfl⟩ := mem_runNames.mp hx
      exact h host hm he

end Names

/-- Every host that the generated inventory of a job names has its facts loaded and saved. -/
def CoversFacts (objects : List (Host ν)) (jobs : List (Job ν)) : Prop :=
  ∀ job ∈ jobs, ∀ x ∈ generatedHosts job, x ∈ (getHostsForFactCache objects job).map Host.name

theorem coversFacts_iff {objects : List (Host ν)} {inv : Inventory ν} {n : ℕ} (hn : 1 < n) :
    CoversFacts objects ((List.range n).map (sliceJob inv n)) ↔ inv.Aligned objects n := by
  have hfacts (idx : ℕ) : (getHostsForFactCache objects (sliceJob inv n idx)).map Host.name =
      stride n idx (inv.factNames objects) := by
    rw [getHostsForFactCache, sliceJob, map_getSlicedHosts]
    exact if_pos ⟨hn, Nat.succ_pos idx⟩
  rw [← Inventory.stride_subset_iff_aligned (by omega : 0 < n)]
  simp only [CoversFacts, List.forall_mem_map, List.mem_range, hfacts, mem_generatedHosts hn]

/-- A template that slices makes jobs that are numbered from one on and share the enabled
hosts out evenly. Each of them has the facts of its hosts exactly for aligned hosts. -/
theorem slice_jobs {objects : List (Host ν)} {jt : JobTemplate ν} {kwargs : Kwargs ν}
    {w : WorkflowJob ν} {inv : Inventory ν} (h : createUnifiedJob jt kwargs = .workflowJob w)
    (hinv : actualInventory jt kwargs = some inv) :
    let n := getEffectiveSliceCt jt kwargs
    let jobs := (List.range n).map (sliceJob inv n)
    1 < n ∧ sliceJobs jt w = jobs.map Created.job ∧ SharesHosts inv jobs ∧
      (CoversFacts objects jobs ↔ inv.Aligned objects n) := by
  intro n jobs
  have hn : 1 < n := (createUnifiedJob_eq_workflowJob h).1
  refine ⟨hn, ?_, sharesHosts hn, coversFacts_iff hn⟩
  rw [sliceJobs_eq h hinv, List.map_map]
  rfl

/-! ### A disabled host before the enabled ones -/

def oneDisabled : Inventory ℕ :=
  ⟨.standard, [⟨1, 10, false, none⟩, ⟨2, 20, true, none⟩, ⟨3, 30, true, none⟩], [], [], [],
    fun _ => by decide⟩

def twoSlices : JobTemplate ℕ := ⟨some oneDisabled, 2, false, false, false⟩

def launch : Kwargs ℕ := ⟨false, none, none, none, none, none⟩

theorem slice_jobs_oneDisabled :
    ∃ w, createUnifiedJob twoSlices launch = .workflowJob w ∧
      let jobs := (List.range 2).map (sliceJob oneDisabled 2)
      sliceJobs twoSlices w = jobs.map Created.job ∧ SharesHosts oneDisabled jobs ∧
        (CoversFacts oneDisabled.hosts jobs ↔ oneDisabled.Aligned oneDisabled.hosts 2) := by
  have h : createUnifiedJob twoSlices launch = .workflowJob _ := rfl
  exact ⟨_, h, (slice_jobs h rfl).2⟩

/-- The first slice runs on the second host while the facts are those of the other two. -/
theorem facts_outside_slice :
    ∃ w, createUnifiedJob twoSlices launch = .workflowJob w ∧
      ∃ job, (sliceJobs twoSlices w).head? = some (.job job) ∧ 20 ∈ generatedHosts job ∧
        (getHostsForFactCache oneDisabled.hosts job).map Host.name = [10, 30] :=
  ⟨_, rfl, _, rfl, by decide, by decide⟩

end Forail.Slices
