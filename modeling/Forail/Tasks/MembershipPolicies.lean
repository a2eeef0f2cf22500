import Forail.Tasks.ClusterMembership

/-! The computed members meet the policies of each group, with exact percentages, and writing them
once is enough. -/

namespace Forail.ClusterMembership

open Binary64

/-- Both thresholds of a group are met. -/
def Cluster.Enough (c : Cluster) (g : InstanceGroup) (size : ℕ) : Prop :=
  g.policyInstanceMinimum ≤ size ∧
    (g.policyInstancePercentage : ℚ) ≤ 100 * size / c.candidatePoolCt g

/-- `needed`: without the last instance, where it is not one of the policy list, a threshold would
not be met. -/
structure MeetsPolicies (c : Cluster) (g : InstanceGroup) (members : List ℕ) : Prop where
  listed : ∀ i ∈ c.allInstances, i.hostname ∈ g.policyInstanceList → i.id ∈ members
  nodup : members.Nodup
  eligible : ∀ id ∈ members, ∃ i ∈ c.allInstances, i.id = id ∧
    (i.hostname ∈ g.policyInstanceList ∨ i.managedByPolicy = true ∧ i.nodeType ≠ c.excludeType g)
  full : c.Enough g members.length ∨ ∀ i ∈ c.allInstances, i.managedByPolicy = true →
    i.nodeType ≠ c.excludeType g → i.id ∈ members
  needed : ∀ first last, members = first ++ [last] →
    (∀ i ∈ c.allInstances, i.id = last → i.hostname ∉ g.policyInstanceList) →
    ¬ c.Enough g first.length

variable {c : Cluster} {g : InstanceGroup} {i j : Instance}

/-! ### The instances -/

theorem mem_allInstances : i ∈ c.allInstances ↔ i ∈ c.instances ∧ i.nodeType ≠ .hop := by
  rw [Cluster.allInstances, List.mem_mergeSort, List.mem_filter, decide_eq_true_eq]

theorem mem_actualInstances :
    i ∈ c.actualInstances ↔ i ∈ c.allInstances ∧ i.managedByPolicy = true := List.mem_filter

theorem nodup_ids (c : Cluster) : (c.allInstances.map Instance.id).Nodup := by
  have hperm : (c.allInstances.map Instance.id).Perm
      ((c.instances.filter fun i => i.nodeType ≠ .hop).map Instance.id) :=
    (List.mergeSort_perm _ _).map _
  exact hperm.nodup_iff.mpr (c.ids_nodup.sublist (List.filter_sublist.map _))

theorem eq_of_id (hi : i ∈ c.allInstances) (hj : j ∈ c.allInstances) (h : i.id = j.id) : i = j :=
  List.inj_on_of_nodup_map (nodup_ids c) hi hj h

theorem eq_of_hostname (hi : i ∈ c.allInstances) (hj : j ∈ c.allInstances)
    (h : i.hostname = j.hostname) : i = j :=
  List.inj_on_of_nodup_map c.hostnames_nodup (mem_allInstances.mp hi).1 (mem_allInstances.mp hj).1 h

/-- There are not more distinct primary keys than 32 bits can tell apart. -/
theorem length_le {ids : List ℕ} (hnodup : ids.Nodup)
    (hids : ∀ id ∈ ids, ∃ i ∈ c.allInstances, i.id = id) : ids.length ≤ 2 ^ 31 := by
  rw [← List.toFinset_card_of_nodup hnodup, ← Finset.card_range (2 ^ 31)]
  refine Finset.card_le_card fun id hid => ?_
  obtain ⟨i, hi, rfl⟩ := hids id (List.mem_toFinset.mp hid)
  exact Finset.mem_range.mpr (c.id_lt i (mem_allInstances.mp hi).1)

theorem candidatePoolCt_le (c : Cluster) (g : InstanceGroup) : c.candidatePoolCt g ≤ 2 ^ 31 := by
  have hall : (c.allInstances.map Instance.id).length ≤ 2 ^ 31 :=
    length_le (nodup_ids c) fun id hid => by
      obtain ⟨i, hi, rfl⟩ := List.mem_map.mp hid
      exact ⟨i, hi, rfl⟩
  rw [List.length_map] at hall
  calc c.candidatePoolCt g ≤ c.actualInstances.length := List.countP_le_length
    _ ≤ c.allInstances.length := List.length_filter_le _ _
    _ ≤ 2 ^ 31 := hall

/-! ### The percentage -/

/-- The floats of the source decide as the exact quotient does. -/
theorem reachesPercentage_iff {size : ℕ} (hsize : size ≤ 2 ^ 31) : c.reachesPercentage g size ↔
    (g.policyInstancePercentage : ℚ) ≤ 100 * size / c.candidatePoolCt g := by
  have hfloat : float64 (100 * float64 size) = (100 * size : ℕ) := by
    rw [float64_natCast (by omega)]
    have hcast : (100 : ℚ) * size = ((100 * size : ℕ) : ℚ) := by push_cast; ring
    rw [hcast, float64_natCast (by omega)]
  have hpool : float64 (c.candidatePoolCt g) = c.candidatePoolCt g :=
    float64_natCast (by have := candidatePoolCt_le c g; omega)
  rw [Cluster.reachesPercentage, hfloat, hpool]
  rcases Nat.eq_zero_or_pos (c.candidatePoolCt g) with hzero | hpos
  · simp [hzero, float64, roundHalfEven]
  · rw [le_float64_div_iff (by omega) hpos]
    push_cast
    rfl

/-! ### The policy lists -/

theorem hostname_of_find {hostname : String}
    (h : (c.allInstances.find? fun i => i.hostname = hostname) = some i) : i.hostname = hostname := by
  have hfound := List.find?_some h
  exact of_decide_eq_true hfound

theorem mem_listed {id : ℕ} : id ∈ c.listed g ↔
    ∃ i ∈ c.allInstances, i.id = id ∧ i.hostname ∈ g.policyInstanceList := by
  rw [Cluster.listed, List.mem_filterMap]
  constructor
  · rintro ⟨hostname, hlist, hfind⟩
    obtain ⟨i, hi, rfl⟩ := Option.map_eq_some_iff.mp hfind
    have hhost := hostname_of_find hi
    exact ⟨i, List.mem_of_find?_eq_some hi, rfl, hhost ▸ hlist⟩
  · rintro ⟨i, hi, rfl, hlist⟩
    refine ⟨i.hostname, hlist, ?_⟩
    cases hfind : c.allInstances.find? fun j => j.hostname = i.hostname with
    | none =>
      have hnone := List.find?_eq_none.mp hfind i hi
      simp at hnone
    | some j =>
      rw [eq_of_hostname (List.mem_of_find?_eq_some hfind) hi (hostname_of_find hfind)]
      rfl

/-- Two names of a list are never the same instance. -/
theorem nodup_listed (hg : g ∈ c.groups) : (c.listed g).Nodup := by
  refine (c.lists_nodup g hg).filterMap fun hostname hostname' id hid hid' => ?_
  obtain ⟨i, hi, hiid⟩ := Option.map_eq_some_iff.mp hid
  obtain ⟨j, hj, hjid⟩ := Option.map_eq_some_iff.mp hid'
  have hsame : i = j := eq_of_id (List.mem_of_find?_eq_some hi) (List.mem_of_find?_eq_some hj)
    (hiid.trans hjid.symm)
  rw [← hostname_of_find hi, ← hostname_of_find hj, hsame]

/-! ### The members -/

/-- The list is served by the minimum and then by the percentage. -/
theorem computed_served (hg : g ∈ c.groups) : ∃ middle,
    Served c (fun size => g.policyInstanceMinimum ≤ size) g (c.listed g) middle ∧
      Served c (c.reachesPercentage g) g middle (c.computed g) :=
  ⟨(c.minimumPass ⟨c.listed, fun _ => []⟩).instances g,
    minimumPass_served hg ⟨c.listed, fun _ => []⟩, percentagePass_served hg _⟩

theorem Served.eligible_trans {enough enough' : ℕ → Prop} {before middle after : List ℕ}
    (h : Served c enough g before middle) (h' : Served c enough' g middle after) :
    ∀ id ∈ after, id ∈ before ∨
      ∃ i ∈ c.actualInstances, i.id = id ∧ i.nodeType ≠ c.excludeType g := fun id hid =>
  (h'.eligible id hid).elim (h.eligible id) .inr

theorem computed_meets (hg : g ∈ c.groups) : MeetsPolicies c g (c.computed g) := by
  obtain ⟨middle, hminimum, hpercentage⟩ := computed_served hg
  have hnodup : (c.computed g).Nodup := hpercentage.nodup (hminimum.nodup (nodup_listed hg))
  have heligible : ∀ id ∈ c.computed g, ∃ i ∈ c.allInstances, i.id = id ∧
      (i.hostname ∈ g.policyInstanceList ∨ i.managedByPolicy = true ∧ i.nodeType ≠ c.excludeType g) := by
    intro id hid
    rcases hminimum.eligible_trans hpercentage id hid with hid | ⟨i, hi, rfl, htype⟩
    · obtain ⟨i, hi, rfl, hlist⟩ := mem_listed.mp hid
      exact ⟨i, hi, rfl, .inl hlist⟩
    · obtain ⟨hi, hmanaged⟩ := mem_actualInstances.mp hi
      exact ⟨i, hi, rfl, .inr ⟨hmanaged, htype⟩⟩
  have hlength : (c.computed g).length ≤ 2 ^ 31 := length_le hnodup fun id hid => by
    obtain ⟨i, hi, hid, -⟩ := heligible id hid
    exact ⟨i, hi, hid⟩
  have hgrows : middle.length ≤ (c.computed g).length :=
    (hminimum.nodup (nodup_listed hg)).subperm hpercentage.subset |>.length_le
  refine ⟨?_, hnodup, heligible, ?_, ?_⟩
  · intro i hi hlist
    exact hpercentage.subset (hminimum.subset (mem_listed.mpr ⟨i, hi, rfl, hlist⟩))
  · rcases hpercentage.full with hreaches | hall
    · rcases hminimum.full with henough | hall
      · refine .inl ⟨?_, (reachesPercentage_iff hlength).mp hreaches⟩
        omega
      · refine .inr fun i hi hmanaged htype => hpercentage.subset ?_
        exact hall i (mem_actualInstances.mpr ⟨hi, hmanaged⟩) htype
    · exact .inr fun i hi hmanaged htype => hall i (mem_actualInstances.mpr ⟨hi, hmanaged⟩) htype
  · intro first last hlast hpolicy henough
    have hfirst : first.length ≤ 2 ^ 31 := by
      rw [hlast, List.length_append] at hlength
      omega
    rcases hpercentage.needed with heq | ⟨first', last', hafter, hnot⟩
    · rcases hminimum.needed with heq' | ⟨first', last', hafter, hnot⟩
      · have hmem : last ∈ c.listed g := by
          rw [← heq', ← heq, hlast]
          exact List.mem_append_right _ (List.mem_singleton_self _)
        obtain ⟨i, hi, hid, hlist⟩ := mem_listed.mp hmem
        exact hpolicy i hi hid hlist
      · obtain ⟨rfl, -⟩ := List.append_inj' (hlast.symm.trans (heq.trans hafter)) rfl
        exact hnot henough.1
    · obtain ⟨rfl, -⟩ := List.append_inj' (hlast.symm.trans hafter) rfl
      exact hnot ((reachesPercentage_iff hfirst).mpr henough.2)

/-! ### Writing -/

/-- The groups that are not containerized are given what is computed. -/
theorem apply_of_mem {prior : InstanceGroup → Finset ℕ} (hg : g ∈ c.groups)
    (hcontainer : g.isContainerGroup = false) :
    c.applyClusterMembershipPolicies prior g = (c.computed g).toFinset := by
  rw [Cluster.applyClusterMembershipPolicies]
  split_ifs with hchange
  · refine (if_pos ⟨hg, hcontainer⟩).trans ?_
    ext id
    simp only [Finset.mem_sdiff, Finset.mem_union]
    tauto
  · have hsame := mt List.any_eq_true.mpr hchange
    by_contra hne
    exact hsame ⟨g, hg, decide_eq_true fun h => hne h.symm⟩

theorem apply_of_not {prior : InstanceGroup → Finset ℕ}
    (h : ¬ (g ∈ c.groups ∧ g.isContainerGroup = false)) :
    c.applyClusterMembershipPolicies prior g = prior g := by
  rw [Cluster.applyClusterMembershipPolicies]
  split_ifs
  · exact if_neg h
  · rfl

theorem apply_apply (c : Cluster) (prior : InstanceGroup → Finset ℕ) :
    c.applyClusterMembershipPolicies (c.applyClusterMembershipPolicies prior) =
      c.applyClusterMembershipPolicies prior := by
  funext g
  by_cases h : g ∈ c.groups ∧ g.isContainerGroup = false
  · rw [apply_of_mem h.1 h.2, apply_of_mem h.1 h.2]
  · rw [apply_of_not h]

/-- What is computed meets the policies of every group, and a second run changes nothing. -/
theorem cluster_membership_meets_policies (c : Cluster) :
    (∀ g ∈ c.groups, MeetsPolicies c g (c.computed g)) ∧
    ∀ prior, c.applyClusterMembershipPolicies (c.applyClusterMembershipPolicies prior) =
      c.applyClusterMembershipPolicies prior :=
  ⟨fun _ hg => computed_meets hg, apply_apply c⟩

end Forail.ClusterMembership
