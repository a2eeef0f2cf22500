import Forail.Base.Acyclicity
import Mathlib.Data.Finset.Card
import Mathlib.Data.List.Nodup
import Mathlib.Data.Set.Function
import Mathlib.Tactic.SplitIfs

/-! `Group.delete_recursive`: a worklist of links finds the groups all of whose parents are deleted, and
the hosts that are left without a group. The handlers around the deletion of groups, which were written
for a single group, then hand the members of each deleted group to its parents. -/

namespace Forail.GroupDeletion

/-- The rows of an inventory: a link has the child and then the parent, a membership the group and then
the host. -/
structure Rows where
  groups : List ℕ
  hosts : List ℕ
  parents : List (ℕ × ℕ)
  members : List (ℕ × ℕ)
  deriving DecidableEq

/-- An inventory whose rows refer to groups and hosts that are there. -/
structure Inventory extends Rows where
  parents_nodup : parents.Nodup
  members_nodup : members.Nodup
  parents_groups : ∀ row ∈ parents, row.1 ∈ groups ∧ row.2 ∈ groups
  members_groups : ∀ row ∈ members, row.1 ∈ groups
  members_hosts : ∀ row ∈ members, row.2 ∈ hosts

/-- The maps and lists of `mark_actual`. -/
structure Marking where
  groupHosts : ℕ → List ℕ
  hostGroups : ℕ → List ℕ
  groupChildren : ℕ → List ℕ
  groupParents : ℕ → List ℕ
  markedHosts : List ℕ
  markedGroups : List ℕ
  linkedChildren : List (ℕ × ℕ)

/-- What the rows append under a key. -/
def collect (rows : List (ℕ × ℕ)) (key : ℕ) : List ℕ :=
  (rows.filter fun row => row.1 = key).map Prod.snd

def swapped (rows : List (ℕ × ℕ)) : List (ℕ × ℕ) := rows.map Prod.swap

/-- `remove` of a member of a list in a map, none where it raises. -/
def remove (m : ℕ → List ℕ) (key value : ℕ) : Option (ℕ → List ℕ) :=
  if value ∈ m key then some (Function.update m key ((m key).erase value)) else none

/-- A host leaves a deleted group. -/
def releaseHost (group : ℕ) (st : Marking) (host : ℕ) : Option Marking := do
  let hostGroups ← remove st.hostGroups host group
  let groupHosts ← remove st.groupHosts group host
  some { st with
    hostGroups := hostGroups
    groupHosts := groupHosts
    markedHosts := if (hostGroups host).length < 1 then st.markedHosts ++ [host] else st.markedHosts }

def releaseHosts (st : Marking) (group : ℕ) : Option Marking :=
  (st.groupHosts group).foldlM (releaseHost group) st

/-- The body of the loop over `linked_children`. -/
def visit (st : Marking) (parent group : ℕ) : Option Marking := do
  let groupParents ← remove st.groupParents group parent
  let groupChildren ← remove st.groupChildren parent group
  let st := { st with groupParents := groupParents, groupChildren := groupChildren }
  if 0 < (groupParents group).length then some st
  else do
    let st ← releaseHosts st group
    some { st with
      linkedChildren := st.linkedChildren ++ (st.groupChildren group).map fun child => (group, child)
      markedGroups := st.markedGroups ++ [group] }

/-- The loop over the list that grows. -/
def markLoop : ℕ → Marking → Option Marking
  | 0, _ => none
  | fuel + 1, st =>
    match st.linkedChildren with
    | [] => some st
    | (parent, group) :: linked => do
      let st ← visit { st with linkedChildren := linked } parent group
      markLoop fuel st

/-- `mark_actual` up to the deletions. Each link is visited at most once. -/
def markActual (inv : Inventory) (group : ℕ) : Option Marking := do
  let st ← releaseHosts {
    groupHosts := collect inv.members
    hostGroups := collect (swapped inv.members)
    groupChildren := collect (swapped inv.parents)
    groupParents := collect inv.parents
    markedHosts := []
    markedGroups := [group]
    linkedChildren := (collect (swapped inv.parents) group).map fun child => (group, child) } group
  markLoop (inv.parents.length + 1) st

/-! ### The deletions -/

/-- What `save_related_pks_before_group_delete` keeps of a group. -/
structure SavedPks where
  parents : List ℕ
  hosts : List ℕ
  children : List ℕ

def savePks (rows : Rows) (group : ℕ) : SavedPks where
  parents := collect rows.parents group
  hosts := collect rows.members group
  children := collect (swapped rows.parents) group

/-- `add` of a many-to-many field, which creates the rows that are not there. -/
def addRows (rows new : List (ℕ × ℕ)) : List (ℕ × ℕ) :=
  new.foldl (fun rows row => if row ∈ rows then rows else rows ++ [row]) rows

/-- A parent that is still there gets the hosts and children of a deleted group. -/
def adopt (saved : SavedPks) (rows : Rows) (parent : ℕ) : Rows :=
  { rows with
    members := addRows rows.members (saved.hosts.map fun host => (parent, host))
    parents := addRows rows.parents (saved.children.map fun child => (child, parent)) }

/-- `migrate_children_from_deleted_group_to_parent_groups`. -/
def migrateChildren (rows : Rows) (saved : SavedPks) : Rows :=
  (rows.groups.filter (· ∈ saved.parents)).foldl (adopt saved) rows

/-- The deletion of groups with their links and memberships, between the two signals. -/
def deleteGroups (rows : Rows) (marked : List ℕ) : Rows :=
  let saved := (rows.groups.filter (· ∈ marked)).map (savePks rows)
  saved.foldl migrateChildren { rows with
    groups := rows.groups.filter (· ∉ marked)
    parents := rows.parents.filter fun row => row.1 ∉ marked ∧ row.2 ∉ marked
    members := rows.members.filter fun row => row.1 ∉ marked }

def deleteHosts (rows : Rows) (marked : List ℕ) : Rows :=
  { rows with
    hosts := rows.hosts.filter (· ∉ marked)
    members := rows.members.filter fun row => row.2 ∉ marked }

def deleteRecursive (inv : Inventory) (group : ℕ) : Option Rows := do
  let st ← markActual inv group
  some (deleteHosts (deleteGroups inv.toRows st.markedGroups) st.markedHosts)

end Forail.GroupDeletion

/-! What `mark_actual` marks: the least set of groups with the deleted one in it and each group whose
parents, if it has any, are all in it; and the hosts whose groups, of which they have some, are all
marked. -/

namespace Forail.GroupDeletion

open Relation Acyclicity

theorem mem_collect {rows : List (ℕ × ℕ)} {key value : ℕ} :
    value ∈ collect rows key ↔ (key, value) ∈ rows := by
  simp only [collect, List.mem_map, List.mem_filter, decide_eq_true_eq, Prod.exists]
  constructor
  · rintro ⟨k, v, ⟨hrow, rfl⟩, rfl⟩
    exact hrow
  · intro hrow
    exact ⟨key, value, ⟨hrow, rfl⟩, rfl⟩

theorem collect_nodup {rows : List (ℕ × ℕ)} (h : rows.Nodup) (key : ℕ) : (collect rows key).Nodup := by
  refine List.Nodup.map_on (fun a ha b hb hab => ?_) (h.filter _)
  have hkey : a.1 = b.1 := by
    rw [of_decide_eq_true (List.mem_filter.mp ha).2, of_decide_eq_true (List.mem_filter.mp hb).2]
  exact Prod.ext hkey hab

theorem mem_swapped {rows : List (ℕ × ℕ)} {a b : ℕ} : (a, b) ∈ swapped rows ↔ (b, a) ∈ rows := by
  rw [swapped, List.mem_map]
  constructor
  · rintro ⟨row, hrow, heq⟩
    rw [← Prod.swap_swap row, heq] at hrow
    exact hrow
  · exact fun hrow => ⟨(b, a), hrow, rfl⟩

theorem swapped_nodup {rows : List (ℕ × ℕ)} (h : rows.Nodup) : (swapped rows).Nodup :=
  h.map Prod.swap_injective

theorem remove_of_mem {m : ℕ → List ℕ} {key value : ℕ} (h : value ∈ m key) :
    remove m key value = some (Function.update m key ((m key).erase value)) := if_pos h

/-- The values left in a map after one has been removed. -/
theorem mem_update_erase {m : ℕ → List ℕ} (hnodup : ∀ k, (m k).Nodup) {key value k v : ℕ} :
    v ∈ Function.update m key ((m key).erase value) k ↔ v ∈ m k ∧ ¬ (k = key ∧ v = value) := by
  by_cases hk : k = key
  · subst hk
    rw [Function.update_self, (hnodup k).mem_erase_iff, and_comm]
    simp
  · rw [Function.update_of_ne hk]
    simp [hk]

theorem nodup_update_erase {m : ℕ → List ℕ} (hnodup : ∀ k, (m k).Nodup) (key value k : ℕ) :
    (Function.update m key ((m key).erase value) k).Nodup := by
  by_cases hk : k = key
  · rw [hk, Function.update_self]
    exact (hnodup key).erase value
  · rw [Function.update_of_ne hk]
    exact hnodup k

/-! ### Hosts -/

namespace Inventory
variable (inv : Inventory)

def Member (group host : ℕ) : Prop := (group, host) ∈ inv.members

def Parent (child parent : ℕ) : Prop := (child, parent) ∈ inv.parents

end Inventory

section Hosts
variable {inv : Inventory} {st : Marking} {gone : ℕ → ℕ → Prop} {group host : ℕ}

/-- Some memberships are gone; a host is marked when its last one is. -/
structure HostMarks (inv : Inventory) (gone : ℕ → ℕ → Prop) (st : Marking) : Prop where
  groupHosts_nodup : ∀ x, (st.groupHosts x).Nodup
  hostGroups_nodup : ∀ h, (st.hostGroups h).Nodup
  mem_groupHosts : ∀ x h, h ∈ st.groupHosts x ↔ inv.Member x h ∧ ¬ gone x h
  mem_hostGroups : ∀ x h, x ∈ st.hostGroups h ↔ inv.Member x h ∧ ¬ gone x h
  mem_markedHosts : ∀ h, h ∈ st.markedHosts ↔
    (∃ x, inv.Member x h ∧ gone x h) ∧ ∀ x, inv.Member x h → gone x h

theorem HostMarks.congr {gone' : ℕ → ℕ → Prop} (h : HostMarks inv gone st)
    (hgone : ∀ x k, inv.Member x k → (gone x k ↔ gone' x k)) : HostMarks inv gone' st where
  groupHosts_nodup := h.groupHosts_nodup
  hostGroups_nodup := h.hostGroups_nodup
  mem_groupHosts x k :=
    (h.mem_groupHosts x k).trans (and_congr_right fun hm => not_congr (hgone x k hm))
  mem_hostGroups x k :=
    (h.mem_hostGroups x k).trans (and_congr_right fun hm => not_congr (hgone x k hm))
  mem_markedHosts k := (h.mem_markedHosts k).trans (and_congr
    (exists_congr fun x => and_congr_right fun hm => hgone x k hm)
    (forall₂_congr fun x hm => hgone x k hm))

/-- The fields that the loop over links reads and writes. -/
def SameLinks (st st' : Marking) : Prop :=
  st'.groupChildren = st.groupChildren ∧ st'.groupParents = st.groupParents ∧
    st'.markedGroups = st.markedGroups ∧ st'.linkedChildren = st.linkedChildren

theorem releaseHost_spec (h : HostMarks inv gone st) (hmem : inv.Member group host)
    (hgone : ¬ gone group host) :
    ∃ st', releaseHost group st host = some st' ∧ SameLinks st st' ∧
      st'.groupHosts group = (st.groupHosts group).erase host ∧
      HostMarks inv (fun x k => gone x k ∨ x = group ∧ k = host) st' := by
  have hgroup : group ∈ st.hostGroups host := (h.mem_hostGroups group host).mpr ⟨hmem, hgone⟩
  have hhost : host ∈ st.groupHosts group := (h.mem_groupHosts group host).mpr ⟨hmem, hgone⟩
  unfold releaseHost
  rw [remove_of_mem hgroup, remove_of_mem hhost]
  refine ⟨_, rfl, ⟨rfl, rfl, rfl, rfl⟩, Function.update_self _ _ _, ?_⟩
  have hgroups : ∀ x k, x ∈ Function.update st.hostGroups host ((st.hostGroups host).erase group) k ↔
      inv.Member x k ∧ ¬ (gone x k ∨ x = group ∧ k = host) := by
    intro x k
    rw [mem_update_erase h.hostGroups_nodup, h.mem_hostGroups, not_or, and_assoc,
      and_comm (a := k = host)]
  refine ⟨nodup_update_erase h.groupHosts_nodup _ _, nodup_update_erase h.hostGroups_nodup _ _,
    fun x k => ?_, hgroups, fun k => ?_⟩
  · rw [mem_update_erase h.groupHosts_nodup, h.mem_groupHosts, not_or, and_assoc]
  · have hempty : (Function.update st.hostGroups host ((st.hostGroups host).erase group) host).length < 1 ↔
        ∀ x, inv.Member x host → gone x host ∨ x = group := by
      rw [Nat.lt_one_iff, List.length_eq_zero_iff, List.eq_nil_iff_forall_not_mem]
      refine forall_congr' fun x => ?_
      rw [hgroups, not_and_not_right]
      simp
    dsimp only
    by_cases hk : k = host
    · subst hk
      have hold : k ∉ st.markedHosts := fun hmarked =>
        hgone (((h.mem_markedHosts k).mp hmarked).2 group hmem)
      have hnew : k ∈ (if (Function.update st.hostGroups k ((st.hostGroups k).erase group) k).length < 1
          then st.markedHosts ++ [k] else st.markedHosts) ↔
          ∀ x, inv.Member x k → gone x k ∨ x = group := by
        split_ifs with hlast
        · exact iff_of_true (List.mem_append_right _ List.mem_cons_self) (hempty.mp hlast)
        · exact iff_of_false hold fun hall => hlast (hempty.mpr hall)
      rw [hnew]
      constructor
      · intro hall
        exact ⟨⟨group, hmem, .inr ⟨rfl, rfl⟩⟩, fun x hx => (hall x hx).imp_right fun hg => ⟨hg, rfl⟩⟩
      · exact fun hall x hx => (hall.2 x hx).imp_right And.left
    · have hkeep : k ∈ (if (Function.update st.hostGroups host ((st.hostGroups host).erase group) host).length
          < 1 then st.markedHosts ++ [host] else st.markedHosts) ↔ k ∈ st.markedHosts := by
        split_ifs
        · rw [List.mem_append, List.mem_singleton, or_iff_left hk]
        · rfl
      rw [hkeep, h.mem_markedHosts]
      simp [hk]

/-- Releasing the hosts of a group. -/
theorem releaseHosts_spec (group : ℕ) (h : HostMarks inv gone st) :
    ∃ st', releaseHosts st group = some st' ∧ SameLinks st st' ∧
      HostMarks inv (fun x k => gone x k ∨ x = group) st' := by
  have hloop : ∀ (hosts : List ℕ) (st : Marking) (gone : ℕ → ℕ → Prop), HostMarks inv gone st →
      st.groupHosts group = hosts → ∃ st', hosts.foldlM (releaseHost group) st = some st' ∧
        SameLinks st st' ∧ HostMarks inv (fun x k => gone x k ∨ x = group) st' := by
    intro hosts
    induction hosts with
    | nil =>
      intro st gone h hnil
      refine ⟨st, rfl, ⟨rfl, rfl, rfl, rfl⟩, h.congr fun x k hx => (or_iff_left_of_imp ?_).symm⟩
      rintro rfl
      by_contra hgone
      have hmem := (h.mem_groupHosts x k).mpr ⟨hx, hgone⟩
      rw [hnil] at hmem
      cases hmem
    | cons host hosts ih =>
      intro st gone h hcons
      have hhost : host ∈ st.groupHosts group := by
        rw [hcons]
        exact List.mem_cons_self
      obtain ⟨hmem, hgone⟩ := (h.mem_groupHosts group host).mp hhost
      obtain ⟨st₁, hst₁, hsame₁, hleft, h₁⟩ := releaseHost_spec h hmem hgone
      rw [hcons, List.erase_cons_head] at hleft
      obtain ⟨st₂, hst₂, hsame₂, h₂⟩ := ih st₁ _ h₁ hleft
      refine ⟨st₂, ?_, ?_, h₂.congr fun x k _ => ?_⟩
      · rw [List.foldlM_cons, hst₁]
        exact hst₂
      · exact ⟨hsame₂.1.trans hsame₁.1, hsame₂.2.1.trans hsame₁.2.1, hsame₂.2.2.1.trans hsame₁.2.2.1,
          hsame₂.2.2.2.trans hsame₁.2.2.2⟩
      · constructor
        · rintro ((hgone | ⟨hx, -⟩) | hx)
          · exact .inl hgone
          · exact .inr hx
          · exact .inr hx
        · rintro (hgone | hx)
          · exact .inl (.inl hgone)
          · exact .inr hx
  exact hloop _ st gone h rfl

end Hosts

/-! ### Groups -/

/-- The group is deleted with `g`: it is that one, or it has parents and all of them are. -/
inductive Doomed (inv : Inventory) (g : ℕ) : ℕ → Prop
  | self : Doomed inv g g
  | child {c : ℕ} : (∃ p, inv.Parent c p) → (∀ p, inv.Parent c p → Doomed inv g p) → Doomed inv g c

/-- The parent is marked, and the link to the child has been visited. -/
def Done (st : Marking) (p c : ℕ) : Prop := p ∈ st.markedGroups ∧ (p, c) ∉ st.linkedChildren

instance (st : Marking) (p c : ℕ) : Decidable (Done st p c) := inferInstanceAs (Decidable (_ ∧ _))

/-- The invariant of the loop. -/
structure Marks (inv : Inventory) (g : ℕ) (st : Marking) : Prop where
  hosts : HostMarks inv (fun x _ => x ∈ st.markedGroups) st
  parents_nodup : ∀ c, (st.groupParents c).Nodup
  children_nodup : ∀ p, (st.groupChildren p).Nodup
  mem_parents : ∀ c p, p ∈ st.groupParents c ↔ inv.Parent c p ∧ ¬ Done st p c
  mem_children : ∀ c p, c ∈ st.groupChildren p ↔ inv.Parent c p ∧ ¬ Done st p c
  linked_nodup : st.linkedChildren.Nodup
  mem_linked : ∀ p c, (p, c) ∈ st.linkedChildren → p ∈ st.markedGroups ∧ inv.Parent c p
  self : g ∈ st.markedGroups
  marked_iff : ∀ c, c ≠ g →
    (c ∈ st.markedGroups ↔ (∃ p, inv.Parent c p) ∧ ∀ p, inv.Parent c p → Done st p c)
  doomed : ∀ c ∈ st.markedGroups, Doomed inv g c

section Groups
variable {inv : Inventory} {g : ℕ} {st : Marking}

theorem Doomed.reaches {c : ℕ} (h : Doomed inv g c) : ReflTransGen inv.Parent c g := by
  induction h with
  | self => exact .refl
  | child hparent _ ih =>
    obtain ⟨p, hp⟩ := hparent
    exact .head hp (ih p hp)

/-- The links that have not been visited. -/
def undone (inv : Inventory) (st : Marking) : ℕ :=
  (inv.parents.toFinset.filter fun row => ¬ Done st row.2 row.1).card

/-- What a visit leaves: the link is done, and its group is marked if it was the last one. -/
theorem Marks.visit (hac : Acyclic inv.Parent) (h : Marks inv g st) {p c : ℕ} {linked : List (ℕ × ℕ)}
    (hlinked : st.linkedChildren = (p, c) :: linked) :
    ∃ st', GroupDeletion.visit { st with linkedChildren := linked } p c = some st' ∧ Marks inv g st' ∧
      undone inv st' < undone inv st := by
  have hhead : (p, c) ∈ st.linkedChildren := by
    rw [hlinked]
    exact List.mem_cons_self
  obtain ⟨hp, hlink⟩ := h.mem_linked p c hhead
  have hundone : ¬ Done st p c := fun hdone => hdone.2 hhead
  have hcg : c ≠ g := by
    rintro rfl
    exact hac c (.head' hlink (h.doomed p hp).reaches)
  have hc : c ∉ st.markedGroups := fun hc => hundone (((h.marked_iff c hcg).mp hc).2 p hlink)
  have hpc : c ≠ p := by
    rintro rfl
    exact hac.irrefl c hlink
  have hrest : ∀ q x, (q, x) ∉ linked ↔ (q, x) ∉ st.linkedChildren ∨ q = p ∧ x = c := by
    intro q x
    have hnodup := h.linked_nodup
    rw [hlinked, List.nodup_cons] at hnodup
    rw [hlinked, List.mem_cons, not_or, Prod.mk.injEq]
    constructor
    · intro hq
      by_cases heq : q = p ∧ x = c
      · exact .inr heq
      · exact .inl ⟨heq, hq⟩
    · rintro (⟨-, hq⟩ | ⟨rfl, rfl⟩)
      · exact hq
      · exact hnodup.1
  -- the maps after the link has been taken out of them
  have hparents : ∀ x q, q ∈ Function.update st.groupParents c ((st.groupParents c).erase p) x ↔
      inv.Parent x q ∧ ¬ (Done st q x ∨ q = p ∧ x = c) := by
    intro x q
    rw [mem_update_erase h.parents_nodup, h.mem_parents, not_or, and_assoc, and_comm (a := x = c)]
  have hchildren : ∀ x q, x ∈ Function.update st.groupChildren p ((st.groupChildren p).erase c) q ↔
      inv.Parent x q ∧ ¬ (Done st q x ∨ q = p ∧ x = c) := by
    intro x q
    rw [mem_update_erase h.children_nodup, h.mem_children, not_or, and_assoc]
  have hdecrease : ∀ st', (∀ q x, inv.Parent x q → (Done st' q x ↔ Done st q x ∨ q = p ∧ x = c)) →
      undone inv st' < undone inv st := by
    intro st' hdone
    refine Finset.card_lt_card (Finset.ssubset_iff_subset_ne.mpr ⟨fun row hrow => ?_, fun heq => ?_⟩)
    · obtain ⟨hmem, hnot⟩ := Finset.mem_filter.mp hrow
      refine Finset.mem_filter.mpr ⟨hmem, fun hold => hnot ?_⟩
      exact (hdone row.2 row.1 (List.mem_toFinset.mp hmem)).mpr (.inl hold)
    · have hrow : (c, p) ∈ inv.parents.toFinset.filter fun row => ¬ Done st row.2 row.1 :=
        Finset.mem_filter.mpr ⟨List.mem_toFinset.mpr hlink, hundone⟩
      rw [← heq] at hrow
      exact (Finset.mem_filter.mp hrow).2 ((hdone p c hlink).mpr (.inr ⟨rfl, rfl⟩))
  have hpmem : p ∈ st.groupParents c := (h.mem_parents c p).mpr ⟨hlink, hundone⟩
  have hcmem : c ∈ st.groupChildren p := (h.mem_children c p).mpr ⟨hlink, hundone⟩
  unfold GroupDeletion.visit
  dsimp only
  rw [remove_of_mem hpmem, remove_of_mem hcmem]
  dsimp only [bind, Option.bind]
  by_cases hleft : 0 < (Function.update st.groupParents c ((st.groupParents c).erase p) c).length
  · rw [if_pos hleft]
    have hdone : ∀ q x, q ∈ st.markedGroups ∧ (q, x) ∉ linked ↔ Done st q x ∨ q = p ∧ x = c := by
      intro q x
      rw [hrest, Done]
      constructor
      · rintro ⟨hq, hnot | heq⟩
        · exact .inl ⟨hq, hnot⟩
        · exact .inr heq
      · rintro (⟨hq, hnot⟩ | ⟨rfl, rfl⟩)
        · exact ⟨hq, .inl hnot⟩
        · exact ⟨hp, .inr ⟨rfl, rfl⟩⟩
    refine ⟨_, rfl, ⟨⟨h.hosts.groupHosts_nodup, h.hosts.hostGroups_nodup, h.hosts.mem_groupHosts,
      h.hosts.mem_hostGroups, h.hosts.mem_markedHosts⟩, nodup_update_erase h.parents_nodup _ _,
      nodup_update_erase h.children_nodup _ _, fun x q => ?_, fun x q => ?_, ?_, fun q x hq => ?_,
      h.self, fun x hx => ?_, h.doomed⟩, hdecrease _ fun q x _ => hdone q x⟩
    · exact (hparents x q).trans (and_congr_right fun _ => not_congr (hdone q x).symm)
    · exact (hchildren x q).trans (and_congr_right fun _ => not_congr (hdone q x).symm)
    · have hnodup := h.linked_nodup
      rw [hlinked] at hnodup
      exact (List.nodup_cons.mp hnodup).2
    · refine h.mem_linked q x ?_
      rw [hlinked]
      exact List.mem_cons_of_mem _ hq
    · by_cases hxc : x = c
      · subst hxc
        refine iff_of_false hc fun hall => ?_
        obtain ⟨q, hq⟩ := List.exists_mem_of_length_pos hleft
        obtain ⟨hqx, hnot⟩ := (hparents x q).mp hq
        exact hnot ((hdone q x).mp (hall.2 q hqx))
      · refine (h.marked_iff x hx).trans (and_congr_right fun _ => forall₂_congr fun q _ => ?_)
        exact (or_iff_left fun heq => hxc heq.2).symm.trans (hdone q x).symm
  · rw [if_neg hleft]
    have hall : ∀ q, inv.Parent c q → Done st q c ∨ q = p := by
      intro q hq
      by_contra hnot
      have hmem := (hparents c q).mpr ⟨hq, fun hor => hnot (hor.imp_right And.left)⟩
      exact hleft (List.length_pos_of_mem hmem)
    have hhosts : HostMarks inv (fun x _ => x ∈ st.markedGroups) { st with
        linkedChildren := linked
        groupParents := Function.update st.groupParents c ((st.groupParents c).erase p)
        groupChildren := Function.update st.groupChildren p ((st.groupChildren p).erase c) } :=
      ⟨h.hosts.groupHosts_nodup, h.hosts.hostGroups_nodup, h.hosts.mem_groupHosts,
        h.hosts.mem_hostGroups, h.hosts.mem_markedHosts⟩
    obtain ⟨st₁, hst₁, hsame, h₁⟩ := releaseHosts_spec c hhosts
    obtain ⟨hsameChildren, hsameParents, hsameMarked, hsameLinked⟩ := hsame
    rw [hst₁]
    dsimp only
    rw [hsameLinked, hsameChildren, hsameMarked]
    dsimp only
    rw [Function.update_of_ne hpc]
    have hallChildren : ∀ x, x ∈ st.groupChildren c ↔ inv.Parent x c := by
      intro x
      rw [h.mem_children, and_iff_left fun hdone => hc hdone.1]
    have hlinked' : ∀ q x, (q, x) ∈ linked ++ (st.groupChildren c).map (fun child => (c, child)) ↔
        (q, x) ∈ linked ∨ q = c ∧ inv.Parent x c := by
      intro q x
      rw [List.mem_append, List.mem_map]
      refine or_congr_right ⟨?_, ?_⟩
      · rintro ⟨y, hy, heq⟩
        obtain ⟨rfl, rfl⟩ := Prod.mk.inj heq
        exact ⟨rfl, (hallChildren y).mp hy⟩
      · rintro ⟨rfl, hx⟩
        exact ⟨x, (hallChildren x).mpr hx, rfl⟩
    have hnotc : ∀ x, (c, x) ∉ linked := by
      intro x hx
      refine hc (h.mem_linked c x ?_).1
      rw [hlinked]
      exact List.mem_cons_of_mem _ hx
    have hdone : ∀ q x, inv.Parent x q → (q ∈ st.markedGroups ++ [c] ∧
        (q, x) ∉ linked ++ (st.groupChildren c).map (fun child => (c, child)) ↔
          Done st q x ∨ q = p ∧ x = c) := by
      intro q x hqx
      rw [hlinked', not_or, hrest, List.mem_append, List.mem_singleton, Done]
      by_cases hqc : q = c
      · subst hqc
        refine iff_of_false (fun hand => hand.2.2 ⟨rfl, hqx⟩) ?_
        rintro (⟨hq, -⟩ | ⟨hq, -⟩)
        · exact hc hq
        · exact hpc hq
      · rw [or_iff_left hqc, and_iff_left fun hand => hqc hand.1]
        constructor
        · rintro ⟨hq, hnot | heq⟩
          · exact .inl ⟨hq, hnot⟩
          · exact .inr heq
        · rintro (⟨hq, hnot⟩ | ⟨rfl, rfl⟩)
          · exact ⟨hq, .inl hnot⟩
          · exact ⟨hp, .inr ⟨rfl, rfl⟩⟩
    refine ⟨_, rfl, ⟨?_, fun x => ?_, fun q => ?_, fun x q => ?_, fun x q => ?_, ?_, fun q x hq => ?_,
      List.mem_append_left _ h.self, fun x hx => ?_, fun x hx => ?_⟩, hdecrease _ hdone⟩
    · have hgone : HostMarks inv (fun x _ => x ∈ st.markedGroups ++ [c]) st₁ := h₁.congr fun x k _ => by
        rw [List.mem_append, List.mem_singleton]
      exact ⟨hgone.groupHosts_nodup, hgone.hostGroups_nodup, hgone.mem_groupHosts,
        hgone.mem_hostGroups, hgone.mem_markedHosts⟩
    · dsimp only
      rw [hsameParents]
      exact nodup_update_erase h.parents_nodup _ _ _
    · exact nodup_update_erase h.children_nodup _ _ _
    · dsimp only
      rw [hsameParents, hparents]
      exact and_congr_right fun hqx => not_congr (hdone q x hqx).symm
    · dsimp only
      rw [hchildren]
      exact and_congr_right fun hqx => not_congr (hdone q x hqx).symm
    · have hnodup := h.linked_nodup
      rw [hlinked, List.nodup_cons] at hnodup
      refine List.nodup_append.mpr ⟨hnodup.2, (h.children_nodup c).map fun a b hab =>
        (Prod.mk.inj hab).2, ?_⟩
      rintro ⟨q, x⟩ hq _ hmap rfl
      obtain ⟨y, -, heq⟩ := List.mem_map.mp hmap
      obtain ⟨rfl, rfl⟩ := Prod.mk.inj heq
      exact hnotc y hq
    · rcases (hlinked' q x).mp hq with hq | ⟨rfl, hx⟩
      · have hold := h.mem_linked q x (by
          rw [hlinked]
          exact List.mem_cons_of_mem _ hq)
        exact ⟨List.mem_append_left _ hold.1, hold.2⟩
      · exact ⟨List.mem_append_right _ List.mem_cons_self, hx⟩
    · dsimp only
      rw [List.mem_append, List.mem_singleton]
      by_cases hxc : x = c
      · subst hxc
        refine iff_of_true (.inr rfl) ⟨⟨p, hlink⟩, fun q hq => (hdone q x hq).mpr ?_⟩
        exact (hall q hq).imp_right fun hqp => ⟨hqp, rfl⟩
      · rw [or_iff_left hxc, h.marked_iff x hx]
        refine and_congr_right fun _ => forall₂_congr fun q hq => ?_
        exact (or_iff_left fun heq => hxc heq.2).symm.trans (hdone q x hq).symm
    · rcases List.mem_append.mp hx with hx | hx
      · exact h.doomed x hx
      · rw [List.mem_singleton] at hx
        subst hx
        refine .child ⟨p, hlink⟩ fun q hq => ?_
        rcases hall q hq with hdone' | rfl
        · exact h.doomed q hdone'.1
        · exact h.doomed q hp

theorem markLoop_spec (hac : Acyclic inv.Parent) (h : Marks inv g st) {fuel : ℕ}
    (hfuel : undone inv st < fuel) :
    ∃ st', markLoop fuel st = some st' ∧ Marks inv g st' ∧ st'.linkedChildren = [] := by
  induction fuel generalizing st with
  | zero => cases hfuel
  | succ fuel ih =>
    rw [markLoop]
    cases hlinked : st.linkedChildren with
    | nil => exact ⟨st, rfl, h, hlinked⟩
    | cons link linked =>
      obtain ⟨st₁, hst₁, h₁, hless⟩ := h.visit hac hlinked
      obtain ⟨st₂, hst₂, h₂, hnil⟩ := ih h₁ (by omega)
      refine ⟨st₂, ?_, h₂, hnil⟩
      dsimp only
      rw [hst₁]
      exact hst₂

/-- The marks at the end are the groups that are deleted with `g`, and the hosts that these leave without
a group. -/
theorem markActual_spec (hac : Acyclic inv.Parent) (g : ℕ) :
    ∃ st, markActual inv g = some st ∧ (∀ c, c ∈ st.markedGroups ↔ Doomed inv g c) ∧
      ∀ h, h ∈ st.markedHosts ↔
        (∃ x, inv.Member x h) ∧ ∀ x, inv.Member x h → Doomed inv g x := by
  have hnone : HostMarks inv (fun _ _ => False) {
      groupHosts := collect inv.members
      hostGroups := collect (swapped inv.members)
      groupChildren := collect (swapped inv.parents)
      groupParents := collect inv.parents
      markedHosts := []
      markedGroups := [g]
      linkedChildren := (collect (swapped inv.parents) g).map fun child => (g, child) } := by
    refine ⟨collect_nodup inv.members_nodup, collect_nodup (swapped_nodup inv.members_nodup),
      fun x h => ?_, fun x h => ?_, fun h => ?_⟩
    · rw [mem_collect, not_false_eq_true, and_true]
      rfl
    · rw [mem_collect, mem_swapped, not_false_eq_true, and_true]
      rfl
    · refine iff_of_false List.not_mem_nil ?_
      rintro ⟨⟨x, -, hfalse⟩, -⟩
      exact hfalse
  obtain ⟨st₀, hst₀, ⟨hchildren, hparents, hmarked, hlinked⟩, hhosts⟩ :=
    releaseHosts_spec g hnone
  have hlink : ∀ p c, (p, c) ∈ st₀.linkedChildren ↔ p = g ∧ inv.Parent c g := by
    intro p c
    rw [hlinked, List.mem_map]
    constructor
    · rintro ⟨x, hx, heq⟩
      obtain ⟨rfl, rfl⟩ := Prod.mk.inj heq
      exact ⟨rfl, mem_swapped.mp (mem_collect.mp hx)⟩
    · rintro ⟨rfl, hc⟩
      exact ⟨c, mem_collect.mpr (mem_swapped.mpr hc), rfl⟩
  have hdone : ∀ p c, inv.Parent c p → ¬ Done st₀ p c := by
    rintro p c hc ⟨hp, hnot⟩
    rw [hmarked, List.mem_singleton] at hp
    exact hnot ((hlink p c).mpr ⟨hp, hp ▸ hc⟩)
  have hstart : Marks inv g st₀ := by
    refine ⟨hhosts.congr fun x k _ => ?_, fun c => ?_, fun p => ?_, fun c p => ?_, fun c p => ?_, ?_,
      fun p c hpc => ?_, ?_, fun c hc => ?_, fun c hc => ?_⟩
    · rw [hmarked, List.mem_singleton, false_or]
    · rw [hparents]
      exact collect_nodup inv.parents_nodup c
    · rw [hchildren]
      exact collect_nodup (swapped_nodup inv.parents_nodup) p
    · rw [hparents, mem_collect]
      exact (and_iff_left_of_imp (hdone p c)).symm
    · rw [hchildren, mem_collect, mem_swapped]
      exact (and_iff_left_of_imp (hdone p c)).symm
    · rw [hlinked]
      exact (collect_nodup (swapped_nodup inv.parents_nodup) g).map fun a b hab => (Prod.mk.inj hab).2
    · obtain ⟨rfl, hc⟩ := (hlink p c).mp hpc
      rw [hmarked]
      exact ⟨List.mem_cons_self, hc⟩
    · rw [hmarked]
      exact List.mem_cons_self
    · rw [hmarked, List.mem_singleton]
      refine iff_of_false hc ?_
      rintro ⟨⟨p, hp⟩, hall⟩
      exact hdone p c hp (hall p hp)
    · rw [hmarked, List.mem_singleton] at hc
      exact hc ▸ .self
  have hfuel : undone inv st₀ < inv.parents.length + 1 :=
    Nat.lt_succ_of_le ((Finset.card_filter_le _ _).trans (List.toFinset_card_le _))
  obtain ⟨st, hst, hmarks, hnil⟩ := markLoop_spec hac hstart hfuel
  have hgroups : ∀ c, c ∈ st.markedGroups ↔ Doomed inv g c := by
    refine fun c => ⟨hmarks.doomed c, fun hdoomed => ?_⟩
    induction hdoomed with
    | self => exact hmarks.self
    | @child c hparent _ ih =>
      by_cases hc : c = g
      · exact hc ▸ hmarks.self
      · refine (hmarks.marked_iff c hc).mpr ⟨hparent, fun p hp => ⟨ih p hp, ?_⟩⟩
        rw [hnil]
        exact List.not_mem_nil
  refine ⟨st, ?_, hgroups, fun h => ?_⟩
  · unfold markActual
    rw [hst₀]
    exact hst
  · rw [hmarks.hosts.mem_markedHosts]
    simp only [hgroups]
    refine and_congr_left fun hall => exists_congr fun x => ?_
    exact and_iff_left_of_imp (hall x)

end Groups

end Forail.GroupDeletion
