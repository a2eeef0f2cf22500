import Forail.Base.Binary64
import Mathlib.Data.Finset.Basic
import Mathlib.Data.Finset.Card
import Mathlib.Data.List.Sort
import Mathlib.Logic.Function.Basic

/-! The members of the instance groups by policy: first the instances of the policy lists, then as
many as the minimum of each group asks for, then as many as its percentage does. Each pass serves the
smallest groups first and takes the instances with the fewest groups. -/

namespace Forail.ClusterMembership

open Binary64

inductive NodeType where
  | control | execution | hybrid | hop
  deriving DecidableEq

structure Instance where
  id : ℕ
  hostname : String
  nodeType : NodeType
  managedByPolicy : Bool
  deriving DecidableEq

structure InstanceGroup where
  id : ℕ
  name : String
  policyInstanceList : List String
  policyInstanceMinimum : ℤ
  policyInstancePercentage : ℤ
  isContainerGroup : Bool
  deriving DecidableEq

/-- The two tables, with primary keys of 32 bits, and `DEFAULT_CONTROL_PLANE_QUEUE_NAME`. -/
structure Cluster where
  instances : List Instance
  groups : List InstanceGroup
  defaultControlPlaneQueueName : String
  ids_nodup : (instances.map Instance.id).Nodup
  id_lt : ∀ i ∈ instances, i.id < 2 ^ 31
  hostnames_nodup : (instances.map Instance.hostname).Nodup
  groups_nodup : (groups.map InstanceGroup.id).Nodup
  lists_nodup : ∀ g ∈ groups, g.policyInstanceList.Nodup

/-- The instances of each group and the groups of each instance, as they grow. A group that is
listed by hand does not count for an instance. -/
structure Membership where
  instances : InstanceGroup → List ℕ
  groups : Instance → List ℕ

def Membership.add (m : Membership) (g : InstanceGroup) (i : Instance) : Membership where
  instances := Function.update m.instances g (m.instances g ++ [i.id])
  groups := Function.update m.groups i (m.groups i ++ [g.id])

namespace Cluster

variable (c : Cluster)

/-- `Hop nodes should never get assigned to an InstanceGroup.` -/
def allInstances : List Instance :=
  (c.instances.filter fun i => i.nodeType ≠ .hop).mergeSort fun i j => i.id ≤ j.id

def actualInstances : List Instance := c.allInstances.filter Instance.managedByPolicy

/-- The known instances of the policy list. -/
def listed (g : InstanceGroup) : List ℕ :=
  g.policyInstanceList.filterMap fun hostname =>
    (c.allInstances.find? fun i => i.hostname = hostname).map Instance.id

/-- `never place execution instances in controlplane group or control instances in other groups` -/
def excludeType (g : InstanceGroup) : NodeType :=
  if g.name = c.defaultControlPlaneQueueName then .execution else .control

/-- The instances in the order of their numbers of groups. -/
def byGroups (m : Membership) : List Instance :=
  c.actualInstances.mergeSort fun i j => (m.groups i).length ≤ (m.groups j).length

/-- The groups in the order of their sizes. -/
def bySize (m : Membership) : List InstanceGroup :=
  c.groups.mergeSort fun g h => (m.instances g).length ≤ (m.instances h).length

/-! ### The two passes -/

def minimumLoop (g : InstanceGroup) : List Instance → Membership → Membership
  | [], m => m
  | i :: rest, m =>
    if i.nodeType = c.excludeType g then minimumLoop g rest m
    else if g.policyInstanceMinimum ≤ (m.instances g).length then m
    else if i.id ∈ m.instances g then minimumLoop g rest m
    else minimumLoop g rest (m.add g i)

def minimumPass (m : Membership) : Membership :=
  (c.bySize m).foldl (fun m g => c.minimumLoop g (c.byGroups m) m) m

def candidatePoolCt (g : InstanceGroup) : ℕ :=
  c.actualInstances.countP fun i => i.nodeType ≠ c.excludeType g

/-- `100 * float(size) / candidate_pool_ct >= g.obj.policy_instance_percentage` -/
def reachesPercentage (g : InstanceGroup) (size : ℕ) : Prop :=
  (g.policyInstancePercentage : ℚ) ≤
    float64 (float64 (100 * float64 size) / float64 (c.candidatePoolCt g))

instance (g : InstanceGroup) (size : ℕ) : Decidable (c.reachesPercentage g size) :=
  inferInstanceAs (Decidable (_ ≤ _))

def percentageLoop (g : InstanceGroup) : List Instance → Membership → Membership
  | [], m => m
  | i :: rest, m =>
    if i.nodeType = c.excludeType g then percentageLoop g rest m
    else if i.id ∈ m.instances g then percentageLoop g rest m
    else if c.reachesPercentage g (m.instances g).length then m
    else percentageLoop g rest (m.add g i)

def percentagePass (m : Membership) : Membership :=
  (c.bySize m).foldl (fun m g =>
    if c.candidatePoolCt g = 0 then m else c.percentageLoop g (c.byGroups m) m) m

/-- The members that the policies give each group. -/
def computed : InstanceGroup → List ℕ :=
  (c.percentagePass (c.minimumPass ⟨c.listed, fun _ => []⟩)).instances

/-! ### Writing -/

/-- `apply_cluster_membership_policies`, from the members that the groups have to those that they
are given. -/
def applyClusterMembershipPolicies (prior : InstanceGroup → Finset ℕ) : InstanceGroup → Finset ℕ :=
  if c.groups.any fun g => (c.computed g).toFinset ≠ prior g then fun g =>
    if g ∈ c.groups ∧ g.isContainerGroup = false then
      (prior g ∪ (c.computed g).toFinset \ prior g) \ (prior g \ (c.computed g).toFinset)
    else prior g
  else prior

end Cluster

/-! ### Both loops fill a group -/

variable {c : Cluster} {g g' : InstanceGroup} {enough : ℕ → Prop} [DecidablePred enough]
  {l : List Instance} {m : Membership}

/-- Instances that are not excluded are added until there are enough. -/
def fill (excluded : NodeType) (enough : ℕ → Prop) [DecidablePred enough] (g : InstanceGroup) :
    List Instance → Membership → Membership
  | [], m => m
  | i :: rest, m =>
    if i.nodeType = excluded ∨ i.id ∈ m.instances g then fill excluded enough g rest m
    else if enough (m.instances g).length then m
    else fill excluded enough g rest (m.add g i)

theorem fill_of_enough {excluded : NodeType} (h : enough (m.instances g).length) :
    fill excluded enough g l m = m := by
  induction l with
  | nil => rfl
  | cons i l ih =>
    rw [fill]
    split_ifs
    · exact ih
    · rfl

theorem percentageLoop_eq_fill :
    c.percentageLoop g l m = fill (c.excludeType g) (c.reachesPercentage g) g l m := by
  induction l generalizing m with
  | nil => rfl
  | cons i l ih =>
    rw [Cluster.percentageLoop, fill]
    by_cases hexcluded : i.nodeType = c.excludeType g
    · rw [if_pos hexcluded, if_pos (.inl hexcluded), ih]
    by_cases hin : i.id ∈ m.instances g
    · rw [if_neg hexcluded, if_pos hin, if_pos (.inr hin), ih]
    have hskip : ¬ (i.nodeType = c.excludeType g ∨ i.id ∈ m.instances g) := by simp [hexcluded, hin]
    rw [if_neg hexcluded, if_neg hin, if_neg hskip, ih]

/-- The other order of the two conditions makes no difference: with enough instances nothing more
is added. -/
theorem minimumLoop_eq_fill : c.minimumLoop g l m =
    fill (c.excludeType g) (fun size => g.policyInstanceMinimum ≤ size) g l m := by
  induction l generalizing m with
  | nil => rfl
  | cons i l ih =>
    by_cases henough : g.policyInstanceMinimum ≤ (m.instances g).length
    · rw [fill_of_enough henough, Cluster.minimumLoop, if_pos henough]
      split_ifs
      · rw [ih, fill_of_enough henough]
      · rfl
    rw [Cluster.minimumLoop, fill, if_neg henough]
    by_cases hexcluded : i.nodeType = c.excludeType g
    · rw [if_pos hexcluded, if_pos (.inl hexcluded), ih]
    by_cases hin : i.id ∈ m.instances g
    · rw [if_neg hexcluded, if_pos hin, if_pos (.inr hin), ih]
    have hskip : ¬ (i.nodeType = c.excludeType g ∨ i.id ∈ m.instances g) := by simp [hexcluded, hin]
    rw [if_neg hexcluded, if_neg hin, if_neg hskip, if_neg henough, ih]

/-! ### What a filled group is like -/

/-- What every addition preserves is preserved. -/
theorem fill_induction {P : Membership → Prop} {excluded : NodeType} (hm : P m)
    (hadd : ∀ m, ∀ i ∈ l, i.nodeType ≠ excluded → i.id ∉ m.instances g →
      ¬ enough (m.instances g).length → P m → P (m.add g i)) : P (fill excluded enough g l m) := by
  induction l generalizing m with
  | nil => exact hm
  | cons i l ih =>
    have hrest : ∀ m, ∀ j ∈ l, j.nodeType ≠ excluded → j.id ∉ m.instances g →
        ¬ enough (m.instances g).length → P m → P (m.add g j) := fun m j hj =>
      hadd m j (List.mem_cons_of_mem i hj)
    rw [fill]
    split_ifs with hskip henough
    · exact ih hm hrest
    · exact hm
    · obtain ⟨htype, hin⟩ := not_or.mp hskip
      exact ih (hadd m i List.mem_cons_self htype hin henough hm) hrest

@[simp] theorem add_instances_self (i : Instance) :
    (m.add g i).instances g = m.instances g ++ [i.id] := Function.update_self _ _ _

theorem add_instances_of_ne (i : Instance) (h : g' ≠ g) :
    (m.add g i).instances g' = m.instances g' := Function.update_of_ne h _ _

theorem fill_of_ne {excluded : NodeType} (h : g' ≠ g) :
    (fill excluded enough g l m).instances g' = m.instances g' :=
  fill_induction (P := fun m' => m'.instances g' = m.instances g') rfl fun m' i _ _ _ _ hm' => by
    rw [add_instances_of_ne i h, hm']

theorem fill_subset {excluded : NodeType} :
    m.instances g ⊆ (fill excluded enough g l m).instances g :=
  fill_induction (P := fun m' => m.instances g ⊆ m'.instances g) (List.Subset.refl _)
    fun m' i _ _ _ _ hm' => by
      rw [add_instances_self]
      exact fun id hid => List.mem_append_left _ (hm' hid)

/-- A group is served from `before` to `after`: what comes in is eligible and not in yet, there are
enough then or nothing eligible is left, and the last one was needed. -/
structure Served (c : Cluster) (enough : ℕ → Prop) (g : InstanceGroup) (before after : List ℕ) :
    Prop where
  subset : before ⊆ after
  eligible : ∀ id ∈ after, id ∈ before ∨
    ∃ i ∈ c.actualInstances, i.id = id ∧ i.nodeType ≠ c.excludeType g
  nodup : before.Nodup → after.Nodup
  full : enough after.length ∨
    ∀ i ∈ c.actualInstances, i.nodeType ≠ c.excludeType g → i.id ∈ after
  needed : after = before ∨ ∃ first last, after = first ++ [last] ∧ ¬ enough first.length

/-- The loop goes on to the end of the list unless there are enough. -/
theorem fill_full {excluded : NodeType} :
    enough ((fill excluded enough g l m).instances g).length ∨
      ∀ i ∈ l, i.nodeType ≠ excluded → i.id ∈ (fill excluded enough g l m).instances g := by
  induction l generalizing m with
  | nil => exact .inr fun i hi => absurd hi List.not_mem_nil
  | cons i l ih =>
    rw [fill]
    split_ifs with hskip henough
    · refine ih.imp_right fun hall j hj htype => ?_
      rcases List.mem_cons.mp hj with rfl | hj
      · exact fill_subset (hskip.resolve_left htype)
      · exact hall j hj htype
    · exact .inl henough
    · refine ih.imp_right fun hall j hj htype => ?_
      rcases List.mem_cons.mp hj with rfl | hj
      · refine fill_subset ?_
        rw [add_instances_self]
        exact List.mem_append_right _ (List.mem_singleton_self _)
      · exact hall j hj htype

theorem fill_served (hl : ∀ i, i ∈ l ↔ i ∈ c.actualInstances) :
    Served c enough g (m.instances g) ((fill (c.excludeType g) enough g l m).instances g) where
  subset := fill_subset
  eligible := by
    refine fill_induction (P := fun m' => ∀ id ∈ m'.instances g, id ∈ m.instances g ∨
      ∃ i ∈ c.actualInstances, i.id = id ∧ i.nodeType ≠ c.excludeType g)
      (fun id hid => .inl hid) ?_
    intro m' i hi htype _ _ hm' id hid
    rw [add_instances_self] at hid
    rcases List.mem_append.mp hid with hid | hid
    · exact hm' id hid
    · exact .inr ⟨i, (hl i).mp hi, (List.mem_singleton.mp hid).symm, htype⟩
  nodup hbefore := by
    refine fill_induction (P := fun m' => (m'.instances g).Nodup) hbefore ?_
    intro m' i _ _ hin _ hm'
    rw [add_instances_self, ← List.concat_eq_append]
    exact hm'.concat hin
  full := fill_full.imp_right fun hall i hi => hall i ((hl i).mpr hi)
  needed := by
    refine fill_induction (P := fun m' => m'.instances g = m.instances g ∨
      ∃ (first : List ℕ) (last : ℕ), m'.instances g = first ++ [last] ∧ ¬ enough first.length)
      (Or.inl rfl) ?_
    intro m' i _ _ _ henough _
    exact .inr ⟨m'.instances g, i.id, add_instances_self i, henough⟩

/-! ### What a pass does -/

/-- Each group is served once, by its own step. -/
theorem foldl_served {enough : InstanceGroup → ℕ → Prop}
    {step : Membership → InstanceGroup → Membership}
    (hserved : ∀ m g, Served c (enough g) g (m.instances g) ((step m g).instances g))
    (hother : ∀ m g g', g' ≠ g → (step m g).instances g' = m.instances g')
    (gs : List InstanceGroup) (hgs : gs.Nodup) (m : Membership) :
    (∀ g ∈ gs, Served c (enough g) g (m.instances g) ((gs.foldl step m).instances g)) ∧
      ∀ g ∉ gs, (gs.foldl step m).instances g = m.instances g := by
  induction gs generalizing m with
  | nil => exact ⟨fun g hg => absurd hg List.not_mem_nil, fun _ _ => rfl⟩
  | cons g gs ih =>
    obtain ⟨hnot, hnodup⟩ := List.nodup_cons.mp hgs
    obtain ⟨hserve, hkeep⟩ := ih hnodup (step m g)
    constructor
    · intro g' hg'
      rcases List.mem_cons.mp hg' with rfl | hg'
      · rw [List.foldl_cons, hkeep g' hnot]
        exact hserved m g'
      · have hne : g' ≠ g := fun h => hnot (h ▸ hg')
        rw [List.foldl_cons, ← hother m g g' hne]
        exact hserve g' hg'
    · intro g' hg'
      have hne : g' ≠ g := fun h => hg' (h ▸ List.mem_cons_self)
      rw [List.foldl_cons, hkeep g' fun h => hg' (List.mem_cons_of_mem g h), hother m g g' hne]

theorem mem_byGroups (c : Cluster) (m : Membership) (i : Instance) :
    i ∈ c.byGroups m ↔ i ∈ c.actualInstances := List.mem_mergeSort

theorem nodup_groups (c : Cluster) : c.groups.Nodup := List.Nodup.of_map _ c.groups_nodup

theorem nodup_bySize (c : Cluster) (m : Membership) : (c.bySize m).Nodup :=
  (List.mergeSort_perm _ _).nodup_iff.mpr (nodup_groups c)

theorem minimumPass_served (hg : g ∈ c.groups) (m : Membership) :
    Served c (fun size => g.policyInstanceMinimum ≤ size) g (m.instances g)
      ((c.minimumPass m).instances g) := by
  have hserved : ∀ (m : Membership) (g : InstanceGroup),
      Served c (fun size : ℕ => g.policyInstanceMinimum ≤ (size : ℤ)) g (m.instances g)
      ((c.minimumLoop g (c.byGroups m) m).instances g) := fun m g => by
    rw [minimumLoop_eq_fill]
    exact fill_served (mem_byGroups c m)
  have hother : ∀ (m : Membership) (g g' : InstanceGroup), g' ≠ g →
      (c.minimumLoop g (c.byGroups m) m).instances g' = m.instances g' := fun m g g' hne => by
    rw [minimumLoop_eq_fill]
    exact fill_of_ne hne
  exact (foldl_served hserved hother _ (nodup_bySize c m) m).1 g (List.mem_mergeSort.mpr hg)

omit [DecidablePred enough] in
/-- Without candidates there is nothing to add. -/
theorem served_of_no_candidate (h : c.candidatePoolCt g = 0) (l : List ℕ) : Served c enough g l l where
  subset := List.Subset.refl l
  eligible id hid := .inl hid
  nodup hl := hl
  full := by
    refine .inr fun i hi htype => absurd (List.countP_eq_zero.mp h i hi) ?_
    simpa using htype
  needed := .inl rfl

theorem percentagePass_served (hg : g ∈ c.groups) (m : Membership) :
    Served c (c.reachesPercentage g) g (m.instances g) ((c.percentagePass m).instances g) := by
  have hserved : ∀ m g, Served c (c.reachesPercentage g) g (m.instances g)
      ((if c.candidatePoolCt g = 0 then m
        else c.percentageLoop g (c.byGroups m) m).instances g) := fun m g => by
    split_ifs with hpool
    · exact served_of_no_candidate hpool _
    · rw [percentageLoop_eq_fill]
      exact fill_served (mem_byGroups c m)
  have hother : ∀ m g g', g' ≠ g → (if c.candidatePoolCt g = 0 then m
      else c.percentageLoop g (c.byGroups m) m).instances g' = m.instances g' := fun m g g' hne => by
    split_ifs
    · rfl
    · rw [percentageLoop_eq_fill]
      exact fill_of_ne hne
  exact (foldl_served hserved hother _ (nodup_bySize c m) m).1 g (List.mem_mergeSort.mpr hg)

end Forail.ClusterMembership
