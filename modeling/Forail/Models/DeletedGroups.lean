import Forail.Models.GroupDeletion

/-! What is left of an inventory when a group has been deleted with `delete_recursive`. The rows that the
handlers create are links and memberships of the parents of that group, and every other deleted group has
no parent left. -/

namespace Forail.GroupDeletion

open Relation Acyclicity

theorem mem_addRows {rows new : List (ℕ × ℕ)} {row : ℕ × ℕ} :
    row ∈ addRows rows new ↔ row ∈ rows ∨ row ∈ new := by
  induction new generalizing rows with
  | nil => simp [addRows]
  | cons r new ih =>
    have hadd : row ∈ (if r ∈ rows then rows else rows ++ [r]) ↔ row ∈ rows ∨ row = r := by
      split_ifs with hr
      · exact (or_iff_left_of_imp fun heq => heq ▸ hr).symm
      · rw [List.mem_append, List.mem_singleton]
    rw [addRows, List.foldl_cons, ← addRows, ih, hadd, List.mem_cons, or_assoc]

/-- The rows after a change that adds links and memberships. -/
structure Adds (rows rows' : Rows) (link member : ℕ → ℕ → Prop) : Prop where
  groups : rows'.groups = rows.groups
  hosts : rows'.hosts = rows.hosts
  parents : ∀ c p, (c, p) ∈ rows'.parents ↔ (c, p) ∈ rows.parents ∨ link c p
  members : ∀ x h, (x, h) ∈ rows'.members ↔ (x, h) ∈ rows.members ∨ member x h

theorem foldl_adopt (saved : SavedPks) (parents : List ℕ) (rows : Rows) :
    Adds rows (parents.foldl (adopt saved) rows) (fun c p => p ∈ parents ∧ c ∈ saved.children)
      fun x h => x ∈ parents ∧ h ∈ saved.hosts := by
  induction parents generalizing rows with
  | nil => exact ⟨rfl, rfl, by simp, by simp⟩
  | cons q parents ih =>
    obtain ⟨hgroups, hhosts, hparents, hmembers⟩ := ih (adopt saved rows q)
    refine ⟨hgroups, hhosts, fun c p => (hparents c p).trans ?_, fun x h => (hmembers x h).trans ?_⟩
    · have hnew : (c, p) ∈ saved.children.map (fun child => (child, q)) ↔
          p = q ∧ c ∈ saved.children := by
        simp [and_comm, eq_comm]
      rw [adopt, mem_addRows, hnew, List.mem_cons, or_and_right, or_assoc]
    · have hnew : (x, h) ∈ saved.hosts.map (fun host => (q, host)) ↔ x = q ∧ h ∈ saved.hosts := by
        simp [and_comm, eq_comm]
      rw [adopt, mem_addRows, hnew, List.mem_cons, or_and_right, or_assoc]

theorem foldl_migrateChildren (saved : List SavedPks) (rows : Rows) :
    Adds rows (saved.foldl migrateChildren rows)
      (fun c p => p ∈ rows.groups ∧ ∃ s ∈ saved, p ∈ s.parents ∧ c ∈ s.children)
      fun x h => x ∈ rows.groups ∧ ∃ s ∈ saved, x ∈ s.parents ∧ h ∈ s.hosts := by
  induction saved generalizing rows with
  | nil => exact ⟨rfl, rfl, by simp, by simp⟩
  | cons s saved ih =>
    have hstep := foldl_adopt s (rows.groups.filter (· ∈ s.parents)) rows
    rw [← migrateChildren] at hstep
    obtain ⟨hgroups, hhosts, hparents, hmembers⟩ := ih (migrateChildren rows s)
    refine ⟨hgroups.trans hstep.groups, hhosts.trans hstep.hosts,
      fun c p => (hparents c p).trans ?_, fun x h => (hmembers x h).trans ?_⟩
    · rw [hstep.parents, hstep.groups, List.mem_filter, decide_eq_true_iff, List.exists_mem_cons_iff,
        or_assoc, and_assoc, and_or_left]
    · rw [hstep.members, hstep.groups, List.mem_filter, decide_eq_true_iff, List.exists_mem_cons_iff,
        or_assoc, and_assoc, and_or_left]

/-! ### The rows that are left -/

section Result
variable {inv : Inventory} {g : ℕ}

/-- The host is in groups, and all of them are deleted with `g`. -/
def Orphaned (inv : Inventory) (g h : ℕ) : Prop :=
  (∃ x, inv.Member x h) ∧ ∀ x, inv.Member x h → Doomed inv g x

/-- The parents of the deleted group stay. -/
theorem not_doomed_of_parent (hac : Acyclic inv.Parent) {p : ℕ} (hp : inv.Parent g p) :
    ¬ Doomed inv g p := fun hdoomed => hac g (.head' hp hdoomed.reaches)

theorem eq_of_doomed_of_parent {c p : ℕ} (hc : Doomed inv g c) (hp : inv.Parent c p)
    (hstays : ¬ Doomed inv g p) : c = g := by
  cases hc with
  | self => rfl
  | child _ hall => exact absurd (hall p hp) hstays

theorem deleteRecursive_spec (hac : Acyclic inv.Parent) (hg : g ∈ inv.groups) :
    ∃ after, deleteRecursive inv g = some after ∧
      (∀ x, x ∈ after.groups ↔ x ∈ inv.groups ∧ ¬ Doomed inv g x) ∧
      (∀ h, h ∈ after.hosts ↔ h ∈ inv.hosts ∧ ¬ Orphaned inv g h) ∧
      (∀ c p, (c, p) ∈ after.parents ↔
        (inv.Parent c p ∧ ¬ Doomed inv g c ∧ ¬ Doomed inv g p) ∨ inv.Parent g p ∧ inv.Parent c g) ∧
      ∀ x h, (x, h) ∈ after.members ↔ ¬ Orphaned inv g h ∧
        ((inv.Member x h ∧ ¬ Doomed inv g x) ∨ inv.Parent g x ∧ inv.Member g h) := by
  obtain ⟨st, hst, hgroups, hhosts⟩ := markActual_spec hac g
  have horphaned : ∀ h, h ∈ st.markedHosts ↔ Orphaned inv g h := hhosts
  -- only the group itself has parents that are still there
  have hparent : ∀ d p, d ∈ inv.groups.filter (· ∈ st.markedGroups) →
      p ∈ inv.groups.filter (· ∉ st.markedGroups) → inv.Parent d p → d = g := by
    intro d p hd hp hdp
    rw [List.mem_filter, decide_eq_true_iff, hgroups] at hd hp
    exact eq_of_doomed_of_parent hd.2 hdp hp.2
  have hsaved : ∀ p (Q : SavedPks → Prop),
      (p ∈ inv.groups.filter (· ∉ st.markedGroups) ∧
        ∃ s ∈ (inv.groups.filter (· ∈ st.markedGroups)).map (savePks inv.toRows),
          p ∈ s.parents ∧ Q s) ↔ inv.Parent g p ∧ Q (savePks inv.toRows g) := by
    intro p Q
    constructor
    · rintro ⟨hp, s, hs, hps, hQ⟩
      obtain ⟨d, hd, rfl⟩ := List.mem_map.mp hs
      have hdp : inv.Parent d p := mem_collect.mp hps
      obtain rfl := hparent d p hd hp hdp
      exact ⟨hdp, hQ⟩
    · rintro ⟨hp, hQ⟩
      refine ⟨?_, savePks inv.toRows g, List.mem_map_of_mem ?_, mem_collect.mpr hp, hQ⟩
      · rw [List.mem_filter, decide_eq_true_iff, hgroups]
        exact ⟨(inv.parents_groups _ hp).2, not_doomed_of_parent hac hp⟩
      · rw [List.mem_filter, decide_eq_true_iff, hgroups]
        exact ⟨hg, .self⟩
  have hadds := foldl_migrateChildren ((inv.groups.filter (· ∈ st.markedGroups)).map (savePks inv.toRows))
    { inv.toRows with
      groups := inv.groups.filter (· ∉ st.markedGroups)
      parents := inv.parents.filter fun row => row.1 ∉ st.markedGroups ∧ row.2 ∉ st.markedGroups
      members := inv.members.filter fun row => row.1 ∉ st.markedGroups }
  change Adds _ (deleteGroups inv.toRows st.markedGroups) _ _ at hadds
  refine ⟨deleteHosts (deleteGroups inv.toRows st.markedGroups) st.markedHosts, ?_, fun x => ?_,
    fun h => ?_, fun c p => ?_, fun x h => ?_⟩
  · rw [deleteRecursive, hst]
    rfl
  · change x ∈ (deleteGroups inv.toRows st.markedGroups).groups ↔ _
    rw [hadds.groups, List.mem_filter, decide_eq_true_iff, hgroups]
  · change h ∈ (deleteGroups inv.toRows st.markedGroups).hosts.filter (· ∉ st.markedHosts) ↔ _
    rw [hadds.hosts, List.mem_filter, decide_eq_true_iff, horphaned]
  · change (c, p) ∈ (deleteGroups inv.toRows st.markedGroups).parents ↔ _
    rw [hadds.parents, hsaved p fun s => c ∈ s.children, List.mem_filter, decide_eq_true_iff, hgroups,
      hgroups]
    refine or_congr .rfl (and_congr_right fun _ => ?_)
    exact mem_collect.trans mem_swapped
  · change (x, h) ∈ (deleteGroups inv.toRows st.markedGroups).members.filter
      (fun row => row.2 ∉ st.markedHosts) ↔ _
    rw [List.mem_filter, decide_eq_true_iff, horphaned, hadds.members,
      hsaved x fun s => h ∈ s.hosts, List.mem_filter, decide_eq_true_iff, hgroups, and_comm]
    refine and_congr_right fun _ => or_congr .rfl (and_congr_right fun _ => ?_)
    exact mem_collect

/-! ### Exactness -/

/-- The group and the descendants whose parents are all deleted are, and the hosts that this leaves without
a group; all rows refer to what is left, and what is left keeps its rows. -/
structure Exact (inv : Inventory) (g : ℕ) (after : Rows) : Prop where
  groups_subset : ∀ x ∈ after.groups, x ∈ inv.groups
  hosts_subset : ∀ h ∈ after.hosts, h ∈ inv.hosts
  groups : ∀ x ∈ inv.groups, x ∉ after.groups ↔
    x = g ∨ TransGen inv.Parent x g ∧ ∀ p, inv.Parent x p → p ∉ after.groups
  hosts : ∀ h ∈ inv.hosts, h ∉ after.hosts ↔
    (∃ x, inv.Member x h ∧ x ∉ after.groups) ∧ ∀ x, inv.Member x h → x ∉ after.groups
  parents_groups : ∀ row ∈ after.parents, row.1 ∈ after.groups ∧ row.2 ∈ after.groups
  members_groups : ∀ row ∈ after.members, row.1 ∈ after.groups ∧ row.2 ∈ after.hosts
  parents_kept : ∀ c ∈ after.groups, ∀ p ∈ after.groups, (c, p) ∈ after.parents ↔ inv.Parent c p
  members_kept : ∀ x ∈ after.groups, ∀ h ∈ after.hosts, (x, h) ∈ after.members ↔ inv.Member x h

/-- Each parent of the group has its children, and those of its hosts that stay. -/
def Settled (inv : Inventory) (g : ℕ) : Prop :=
  ∀ p, inv.Parent g p → (∀ c, inv.Parent c g → inv.Parent c p) ∧
    ∀ h, inv.Member g h → inv.Member p h ∨ ∀ x, inv.Member x h → Doomed inv g x

theorem doomed_iff {x : ℕ} : Doomed inv g x ↔
    x = g ∨ TransGen inv.Parent x g ∧ ∀ p, inv.Parent x p → Doomed inv g p := by
  constructor
  · intro h
    cases h with
    | self => exact .inl rfl
    | child hparent hall =>
      obtain ⟨p, hp⟩ := hparent
      exact .inr ⟨.head' hp (hall p hp).reaches, hall⟩
  · rintro (rfl | ⟨hreach, hall⟩)
    · exact .self
    · obtain ⟨p, hp, -⟩ := TransGen.head'_iff.mp hreach
      exact .child ⟨p, hp⟩ hall

/-- The deletion is exact if and only if the parents of the group have nothing to take over. -/
theorem deletes_exactly_iff (inv : Inventory) (hac : Acyclic inv.Parent) (g : ℕ) (hg : g ∈ inv.groups) :
    (∃ after, deleteRecursive inv g = some after ∧ Exact inv g after) ↔ Settled inv g := by
  obtain ⟨after, hafter, hgroups, hhosts, hparents, hmembers⟩ := deleteRecursive_spec hac hg
  have hgone : ∀ x ∈ inv.groups, x ∉ after.groups ↔ Doomed inv g x := by
    intro x hx
    rw [hgroups, not_and_not_right]
    exact ⟨fun h => h hx, fun h _ => h⟩
  constructor
  · rintro ⟨_, hsome, hexact⟩ p hp
    rw [hafter] at hsome
    obtain rfl := Option.some.inj hsome
    have hpGroup : p ∈ after.groups :=
      (hgroups p).mpr ⟨(inv.parents_groups _ hp).2, not_doomed_of_parent hac hp⟩
    refine ⟨fun c hc => ?_, fun h hh => ?_⟩
    · have hrow := (hparents c p).mpr (.inr ⟨hp, hc⟩)
      exact (hexact.parents_kept c (hexact.parents_groups _ hrow).1 p hpGroup).mp hrow
    · by_cases horphaned : Orphaned inv g h
      · exact .inr horphaned.2
      · have hrow := (hmembers p h).mpr ⟨horphaned, .inr ⟨hp, hh⟩⟩
        exact .inl ((hexact.members_kept p hpGroup h (hexact.members_groups _ hrow).2).mp hrow)
  · intro hsettled
    have hlinks : ∀ c p, (c, p) ∈ after.parents ↔
        inv.Parent c p ∧ ¬ Doomed inv g c ∧ ¬ Doomed inv g p := by
      intro c p
      rw [hparents]
      refine or_iff_left_of_imp ?_
      rintro ⟨hp, hc⟩
      have hpStays := not_doomed_of_parent hac hp
      have hcp := (hsettled p hp).1 c hc
      refine ⟨hcp, fun hdoomed => ?_, hpStays⟩
      have hcg := eq_of_doomed_of_parent hdoomed hcp hpStays
      exact hac.irrefl g (hcg ▸ hc)
    have hplaces : ∀ x h, (x, h) ∈ after.members ↔ inv.Member x h ∧ ¬ Doomed inv g x := by
      intro x h
      rw [hmembers]
      constructor
      · rintro ⟨horphaned, hkept | ⟨hx, hh⟩⟩
        · exact hkept
        · have hxStays := not_doomed_of_parent hac hx
          rcases (hsettled x hx).2 h hh with hmem | hall
          · exact ⟨hmem, hxStays⟩
          · exact absurd ⟨⟨g, hh⟩, hall⟩ horphaned
      · intro hkept
        exact ⟨fun horphaned => hkept.2 (horphaned.2 x hkept.1), .inl hkept⟩
    refine ⟨after, hafter, fun x hx => ((hgroups x).mp hx).1, fun h hh => ((hhosts h).mp hh).1,
      fun x hx => ?_, fun h hh => ?_, fun row hrow => ?_, fun row hrow => ?_, fun c hc p hp => ?_,
      fun x hx h _ => ?_⟩
    · rw [hgone x hx, doomed_iff]
      refine or_congr_right (and_congr_right fun _ => forall₂_congr fun p hp => ?_)
      exact (hgone p (inv.parents_groups _ hp).2).symm
    · have hcongr : ∀ x, inv.Member x h → (x ∉ after.groups ↔ Doomed inv g x) := fun x hx =>
        hgone x (inv.members_groups _ hx)
      rw [hhosts, not_and_not_right]
      constructor
      · intro horphaned
        obtain ⟨⟨x, hx⟩, hall⟩ := horphaned hh
        exact ⟨⟨x, hx, (hcongr x hx).mpr (hall x hx)⟩, fun y hy => (hcongr y hy).mpr (hall y hy)⟩
      · rintro ⟨⟨x, hx, -⟩, hall⟩ -
        exact ⟨⟨x, hx⟩, fun y hy => (hcongr y hy).mp (hall y hy)⟩
    · obtain ⟨hlink, hc, hp⟩ := (hlinks row.1 row.2).mp hrow
      have hends := inv.parents_groups _ hlink
      exact ⟨(hgroups _).mpr ⟨hends.1, hc⟩, (hgroups _).mpr ⟨hends.2, hp⟩⟩
    · obtain ⟨hmem, hx⟩ := (hplaces row.1 row.2).mp hrow
      refine ⟨(hgroups _).mpr ⟨inv.members_groups _ hmem, hx⟩,
        (hhosts _).mpr ⟨inv.members_hosts _ hmem, fun horphaned => hx (horphaned.2 _ hmem)⟩⟩
    · rw [hlinks, and_iff_left ⟨((hgroups c).mp hc).2, ((hgroups p).mp hp).2⟩]
    · rw [hplaces, and_iff_left ((hgroups x).mp hx).2]

end Result

/-! A group with a child, deleted from the top and from below a parent. -/

def lab : Inventory where
  groups := [1, 2, 3]
  hosts := [7]
  parents := [(2, 1), (3, 2)]
  members := [(3, 7)]
  parents_nodup := by decide
  members_nodup := by decide
  parents_groups := by decide
  members_groups := by decide
  members_hosts := by decide

theorem lab_acyclic : Acyclic lab.Parent := by
  have hup : ∀ row ∈ lab.parents, row.2 < row.1 := by decide
  exact (acyclic_of_rank id fun a b hab => hup (b, a) hab : Acyclic (Function.swap lab.Parent)).swap

theorem lab_deletes_exactly : ∃ after, deleteRecursive lab 1 = some after ∧ Exact lab 1 after := by
  refine (deletes_exactly_iff lab lab_acyclic 1 (by decide)).mpr fun p hp => ?_
  have hnone : ∀ row ∈ lab.parents, row.1 ≠ 1 := by decide
  exact absurd rfl (hnone (1, p) hp)

/-- Group 3 is deleted with group 2, and then becomes a child of group 1. -/
theorem link_to_deleted_group : deleteRecursive lab 2 = some ⟨[1], [], [(3, 1)], []⟩ ∧
    Acyclic lab.Parent ∧ ¬ ∃ after, deleteRecursive lab 2 = some after ∧ Exact lab 2 after := by
  have hrun : deleteRecursive lab 2 = some ⟨[1], [], [(3, 1)], []⟩ := by decide
  refine ⟨hrun, lab_acyclic, ?_⟩
  rintro ⟨after, hafter, hexact⟩
  rw [hrun] at hafter
  obtain rfl := Option.some.inj hafter
  exact absurd (hexact.parents_groups (3, 1) List.mem_cons_self).1 (by decide)

end Forail.GroupDeletion
