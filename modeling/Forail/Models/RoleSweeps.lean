import Forail.Base.Acyclicity
import Forail.Models.RoleAncestors

/-! The table after a change of the parent links. What is missing is handed down along the links a
round after the other, and so is the support that is lost. Rows around a loop support each other, and
if they have lost their source they stay. -/

namespace Forail.Rbac

open Relation

/-- The table is the reflexive and transitive closure of the links. -/
def IsClosure (h : Hierarchy) (table : Table) : Prop :=
  ∀ d a, (d, a) ∈ table ↔ d ∈ h.roles ∧ ReflTransGen h.Parent d a

theorem isClosure_of {h : Hierarchy} {table : Table}
    (hsound : ∀ d a, (d, a) ∈ table → d ∈ h.roles ∧ ReflTransGen h.Parent d a)
    (hself : ∀ role ∈ h.roles, (role, role) ∈ table)
    (hclosed : ∀ d p a, h.Parent d p → (p, a) ∈ table → (d, a) ∈ table) : IsClosure h table := by
  refine fun d a => ⟨hsound d a, ?_⟩
  rintro ⟨hrole, hreach⟩
  induction hreach using ReflTransGen.head_induction_on with
  | refl => exact hself a hrole
  | head hparent _ ih => exact hclosed _ _ a hparent (ih (h.parents_roles _ hparent).2)

/-- Links that come and go at once, with the roles that gain and lose parents. Afterwards no path
visits more than 100 roles. -/
structure Change where
  before : Hierarchy
  after : Hierarchy
  roles_eq : after.roles = before.roles
  additions : List ℕ
  removals : List ℕ
  gained : ∀ {role parent : ℕ}, after.Parent role parent → ¬ before.Parent role parent →
    role ∈ additions
  lost : ∀ {role parent : ℕ}, before.Parent role parent → ¬ after.Parent role parent →
    role ∈ removals
  short : ∀ path, SimplePath after.Parent path → path.length ≤ 100

namespace Change

/-- The rebuilding ends with the closure of the new links. -/
def Rebuilds (c : Change) (order : SetOrder) (table : Table) : Prop :=
  ∃ rebuilt, rebuildRoleAncestorList c.after order false none c.additions c.removals table =
    .ok (none, rebuilt) ∧ IsClosure c.after rebuilt

/-- A role on a loop of the new links has the ancestors that a role above it and a new parent of that
role both had before. -/
def LoopsKept (c : Change) : Prop :=
  ∀ role top parent a, TransGen c.after.Parent role role → ReflTransGen c.after.Parent role top →
    c.after.Parent top parent → ReflTransGen c.before.Parent top a →
    ReflTransGen c.before.Parent parent a → ReflTransGen c.after.Parent role a

/-- The row of the role and the ancestor has lost its source after it was handed down: a role above
and a new parent of that one had it. -/
def Loose (c : Change) (a role : ℕ) : Prop :=
  (∃ top parent, ReflTransGen c.after.Parent role top ∧ c.after.Parent top parent ∧
    ReflTransGen c.before.Parent top a ∧ ReflTransGen c.before.Parent parent a) ∧
    ¬ ReflTransGen c.after.Parent role a

/-- The table and the roles to sweep after so many rounds. -/
structure Swept (c : Change) (rounds : ℕ) (additions removals : List ℕ) (table : Table) : Prop where
  roles : ∀ d a, (d, a) ∈ table → d ∈ c.after.roles
  inserts : ∀ d p a, c.after.Parent d p → (p, a) ∈ table → (d, a) ∉ table → d ∈ additions
  deletes : ∀ d a, (d, a) ∈ table → d ≠ a → ¬ c.after.Supported table (d, a) → d ∈ removals
  fresh : ∀ n ≤ rounds, ∀ d a, d ∈ c.after.roles → Steps c.after.Parent n d a → (d, a) ∈ table
  source : ∀ d a, (d, a) ∈ table → ¬ ReflTransGen c.after.Parent d a →
    c.Loose a d ∨ rounds = 0 ∧ ReflTransGen c.before.Parent d a
  stale : ∀ d a, (d, a) ∈ table → ¬ ReflTransGen c.after.Parent d a → ∃ l, rounds ≤ l.length ∧
    (d :: l).IsChain c.after.Parent ∧ ∀ x ∈ (d :: l).dropLast, c.Loose a x

/-- The table in the middle of a round and at its end. -/
abbrev deleted (c : Change) (removals : List ℕ) (table : Table) : Table :=
  (splitIds removals).foldl c.after.deleteRows table

abbrev inserted (c : Change) (additions removals : List ℕ) (table : Table) : Table :=
  (splitIds additions).foldl c.after.insertRows (c.deleted removals table)

theorem rebuildLoop_succ (c : Change) (order : SetOrder) (left : ℕ) (additions removals : List ℕ)
    (table : Table) : rebuildLoop c.after order (left + 1) additions removals table =
      if additions.length = 0 ∧ removals.length = 0 then .ok table
      else if (c.inserted additions removals table).card - (c.deleted removals table).card = 0 ∧
          table.card - (c.deleted removals table).card = 0 then .ok (c.inserted additions removals table)
      else rebuildLoop c.after order left (newIds c.after order additions)
        (newIds c.after order removals) (c.inserted additions removals table) := rfl

variable {c : Change} {order : SetOrder} {additions removals : List ℕ} {table : Table}
  {rounds : ℕ} {d p a : ℕ}

theorem supported_iff {h : Hierarchy} :
    h.Supported table (d, a) ↔ ∃ p, h.Parent d p ∧ (p, a) ∈ table := by
  constructor
  · rintro ⟨⟨x, p⟩, hlink, rfl, hp⟩
    exact ⟨p, hlink, hp⟩
  · rintro ⟨p, hlink, hp⟩
    exact ⟨(d, p), hlink, rfl, hp⟩

theorem parent_roles {h : Hierarchy} (hp : h.Parent d p) : d ∈ h.roles ∧ p ∈ h.roles :=
  h.parents_roles _ hp

/-- At the start the closure of the old links is swept from the roles that the change names. -/
theorem swept_start (htable : IsClosure c.before table) :
    c.Swept 0 c.additions c.removals table where
  roles d a hrow := c.roles_eq ▸ ((htable d a).mp hrow).1
  inserts d p a hparent hrow hnot := by
    refine c.gained hparent fun hbefore => hnot ((htable d a).mpr ⟨?_, ?_⟩)
    · exact (parent_roles hbefore).1
    · exact .head hbefore ((htable p a).mp hrow).2
  deletes d a hrow hne hsupport := by
    rcases ReflTransGen.cases_head ((htable d a).mp hrow).2 with heq | ⟨p, hparent, hreach⟩
    · exact absurd heq hne
    · refine c.lost hparent fun hafter => hsupport (supported_iff.mpr ⟨p, hafter, ?_⟩)
      exact (htable p a).mpr ⟨(parent_roles hparent).2, hreach⟩
  fresh n hn d a hrole hsteps := by
    obtain rfl := Nat.le_zero.mp hn
    cases hsteps
    exact (htable d d).mpr ⟨c.roles_eq ▸ hrole, .refl⟩
  source d a hrow _ := .inr ⟨rfl, ((htable d a).mp hrow).2⟩
  stale d a _ _ := ⟨[], le_rfl, .singleton d, fun _ hx => absurd hx List.not_mem_nil⟩

/-- A role below a loose one is loose. -/
theorem Loose.below {c : Change} {a d p : ℕ} (hp : c.Loose a p) (hparent : c.after.Parent d p)
    (hnot : ¬ ReflTransGen c.after.Parent d a) : c.Loose a d := by
  obtain ⟨⟨top, parent, hreach, hrest⟩, -⟩ := hp
  exact ⟨⟨top, parent, .head hparent hreach, hrest⟩, hnot⟩

/-! ### A round -/

section Round
variable (h : c.Swept rounds additions removals table)
include h

/-- The rows of the roles that are near their ancestor support each other. -/
theorem fresh_kept {n : ℕ} (hn : n ≤ rounds) (hrole : d ∈ c.after.roles)
    (hsteps : Steps c.after.Parent n d a) :
    (d, a) ∈ c.deleted removals table := by
  refine deletes_keep (K := {row | row.1 ∈ c.after.roles ∧
    ∃ n ≤ rounds, Steps c.after.Parent n row.1 row.2}) ?_ ?_ _ ⟨hrole, n, hn, hsteps⟩
  · rintro ⟨d, a⟩ ⟨hrole, n, hn, hsteps⟩
    exact h.fresh n hn d a hrole hsteps
  · rintro ⟨d, a⟩ ⟨-, n, hn, hsteps⟩ hne
    cases hsteps with
    | refl => exact absurd rfl hne
    | @head n _ p _ hparent hsteps =>
      exact ⟨p, hparent, (parent_roles hparent).2, n, by omega, hsteps⟩

/-- A row that is kept is supported by the table before. -/
theorem kept_supported (hrow : (d, a) ∈ c.deleted removals table)
    (hne : d ≠ a) : c.after.Supported table (d, a) := by
  by_contra hsupport
  have hmem := h.deletes d a (deletes_subset hrow) hne hsupport
  exact hsupport (deletes_kept hrow (mem_splitIds.mpr hmem) hne)

/-- What is missing below a row that is there is swept next: the row was inserted, or it came to be
missing, or it was missing before. -/
theorem round_inserts : ∀ d p a, c.after.Parent d p →
    (p, a) ∈ c.inserted additions removals table →
    (d, a) ∉ c.inserted additions removals table →
    d ∈ newIds c.after order additions := by
  intro d p a hparent hp hd
  refine mem_newIds.mpr ⟨p, ?_, hparent⟩
  by_contra hnot
  have hkept : (p, a) ∈ c.deleted removals table := by
    by_contra hgone
    exact hnot (mem_splitIds.mp (inserts_inserted hp hgone).1)
  have hsupport := supported_iff.mpr ⟨p, hparent, hkept⟩
  have hnotkept : (d, a) ∉ c.deleted removals table := fun hrow =>
    hd (subset_inserts hrow)
  by_cases hrow : (d, a) ∈ table
  · exact (deletes_deleted hrow hnotkept).2.2 hsupport
  · have hmem := h.inserts d p a hparent (deletes_subset hkept) hrow
    exact hd (inserts_insert (mem_splitIds.mpr hmem) hsupport)

/-- A row that has lost its support is swept next: the support was deleted. -/
theorem round_deletes : ∀ d a, (d, a) ∈ c.inserted additions removals table → d ≠ a →
    ¬ c.after.Supported (c.inserted additions removals table) (d, a) →
    d ∈ newIds c.after order removals := by
  intro d a hd hne hsupport
  have hkept : (d, a) ∈ c.deleted removals table := by
    by_contra hgone
    rcases (inserts_inserted hd hgone).2 with hs | ⟨heq, -⟩
    · exact hsupport hs
    · exact hne heq
  obtain ⟨p, hparent, hp⟩ := supported_iff.mp (kept_supported h hkept hne)
  have hgone : (p, a) ∉ c.deleted removals table := fun hrow =>
    hsupport (supported_iff.mpr ⟨p, hparent, subset_inserts hrow⟩)
  exact mem_newIds.mpr ⟨p, mem_splitIds.mp (deletes_deleted hp hgone).1, hparent⟩

/-- An ancestor is a step further handed down. -/
theorem round_fresh : ∀ n ≤ rounds + 1, ∀ d a, d ∈ c.after.roles → Steps c.after.Parent n d a →
    (d, a) ∈ c.inserted additions removals table := by
  intro n hn d a hrole hsteps
  cases hsteps with
  | refl => exact subset_inserts (fresh_kept h (Nat.zero_le _) hrole (.refl d))
  | @head n _ p _ hparent hsteps =>
    have hp := fresh_kept h (by omega) (parent_roles hparent).2 hsteps
    have hsupport := supported_iff.mpr ⟨p, hparent, hp⟩
    by_cases hrow : (d, a) ∈ table
    · refine subset_inserts ?_
      by_contra hgone
      exact (deletes_deleted hrow hgone).2.2 hsupport
    · have hmem := h.inserts d p a hparent (deletes_subset hp) hrow
      exact inserts_insert (mem_splitIds.mpr hmem) hsupport

/-- A row without a source that is supported is loose. -/
theorem loose_of_supported (hrow : (d, a) ∈ table) (hparent : c.after.Parent d p)
    (hp : (p, a) ∈ table) (hnot : ¬ ReflTransGen c.after.Parent d a) : c.Loose a d := by
  rcases h.source d a hrow hnot with hloose | ⟨-, hd⟩
  · exact hloose
  rcases h.source p a hp fun hreach => hnot (.head hparent hreach) with hloose | ⟨-, hbefore⟩
  · exact hloose.below hparent hnot
  · exact ⟨⟨d, p, .refl, hparent, hd, hbefore⟩, hnot⟩

/-- A loose row has a longer path of loose rows above it. -/
theorem round_stale : ∀ d a, (d, a) ∈ c.inserted additions removals table →
    ¬ ReflTransGen c.after.Parent d a → c.Loose a d ∧ ∃ l, rounds + 1 ≤ l.length ∧
      (d :: l).IsChain c.after.Parent ∧ ∀ x ∈ (d :: l).dropLast, c.Loose a x := by
  have hbelow : ∀ {n d p a : ℕ}, c.after.Parent d p → c.Loose a d →
      (∃ l, n ≤ l.length ∧ (p :: l).IsChain c.after.Parent ∧ ∀ x ∈ (p :: l).dropLast, c.Loose a x) →
      ∃ l, n + 1 ≤ l.length ∧ (d :: l).IsChain c.after.Parent ∧
        ∀ x ∈ (d :: l).dropLast, c.Loose a x := by
    rintro n d p a hparent hd ⟨l, hlength, hchain, hloose⟩
    refine ⟨p :: l, Nat.succ_le_succ hlength, .cons_cons hparent hchain, fun x hx => ?_⟩
    rw [List.dropLast_cons_cons] at hx
    rcases List.mem_cons.mp hx with rfl | hx
    · exact hd
    · exact hloose x hx
  have hall : ∀ row ∈ c.inserted additions removals table, ¬ ReflTransGen c.after.Parent row.1 row.2 →
      c.Loose row.2 row.1 ∧ ∃ l, rounds + 1 ≤ l.length ∧ (row.1 :: l).IsChain c.after.Parent ∧
        ∀ x ∈ (row.1 :: l).dropLast, c.Loose row.2 x := by
    refine inserts_induction ?_ ?_ ?_
    · rintro ⟨d, a⟩ hrow hnot
      have hne : d ≠ a := by
        rintro rfl
        exact hnot .refl
      obtain ⟨p, hparent, hp⟩ := supported_iff.mp (kept_supported h hrow hne)
      have hloose := loose_of_supported h (deletes_subset hrow) hparent hp hnot
      have htrail := h.stale p a hp fun hreach => hnot (.head hparent hreach)
      exact ⟨hloose, hbelow hparent hloose htrail⟩
    · intro role _ hnot
      exact absurd .refl hnot
    · intro d p a hparent hp hnot
      obtain ⟨hpLoose, htrail⟩ := hp fun hreach => hnot (.head hparent hreach)
      have hloose := hpLoose.below hparent hnot
      obtain ⟨l, hlength, hrest⟩ := hbelow hparent hloose htrail
      exact ⟨hloose, l, by omega, hrest⟩
  exact fun d a hrow => hall (d, a) hrow

theorem swept_round : c.Swept (rounds + 1) (newIds c.after order additions)
    (newIds c.after order removals) (c.inserted additions removals table) where
  roles d a hrow := inserts_induction (P := fun row => row.1 ∈ c.after.roles)
    (fun row hrow => h.roles row.1 row.2 (deletes_subset hrow)) (fun _ hrole => hrole)
    (fun _ _ _ hparent _ => (parent_roles hparent).1) (d, a) hrow
  inserts := round_inserts h
  deletes := round_deletes h
  fresh := round_fresh h
  source d a hrow hnot := .inl (round_stale h d a hrow hnot).1
  stale d a hrow hnot := (round_stale h d a hrow hnot).2

end Round

/-! ### The end of the loop -/

/-- Loose roles are on no loop. -/
theorem not_loop_of_loose (hkept : c.LoopsKept) (hd : c.Loose a d) :
    ¬ TransGen c.after.Parent d d := by
  obtain ⟨⟨top, parent, hreach, hparent, htop, hbefore⟩, hnot⟩ := hd
  exact fun hloop => hnot (hkept d top parent a hloop hreach hparent htop hbefore)

/-- A path of loose roles is short. -/
theorem length_lt_of_loose (hkept : c.LoopsKept) {l : List ℕ} (hchain : (d :: l).IsChain c.after.Parent)
    (hloose : ∀ x ∈ (d :: l).dropLast, c.Loose a x) : l.length < 100 :=
  c.short (d :: l) ⟨hchain, nodup_of_chain hchain fun x hx => not_loop_of_loose hkept (hloose x hx)⟩

theorem exists_steps (hreach : ReflTransGen c.after.Parent d a) :
    ∃ n ≤ 99, Steps c.after.Parent n d a := exists_steps_le c.short hreach

/-- Where nothing is missing and everything is supported, the table is the closure. -/
theorem isClosure_of_settled (hkept : c.LoopsKept) (h : c.Swept rounds additions removals table)
    (hclosed : ∀ d p a, c.after.Parent d p → (p, a) ∈ table → (d, a) ∈ table)
    (hsupported : ∀ d a, (d, a) ∈ table → d ≠ a → c.after.Supported table (d, a)) :
    IsClosure c.after table := by
  have htrail : ∀ n d a, (d, a) ∈ table → ¬ ReflTransGen c.after.Parent d a →
      ∃ l, n ≤ l.length ∧ (d :: l).IsChain c.after.Parent ∧ ∀ x ∈ (d :: l).dropLast, c.Loose a x := by
    intro n
    induction n with
    | zero =>
      intro d a hrow hnot
      exact ⟨[], le_rfl, .singleton d, fun _ hx => absurd hx List.not_mem_nil⟩
    | succ n ih =>
      intro d a hrow hnot
      have hne : d ≠ a := by
        rintro rfl
        exact hnot .refl
      obtain ⟨p, hparent, hp⟩ := supported_iff.mp (hsupported d a hrow hne)
      obtain ⟨l, hlength, hchain, hloose⟩ := ih p a hp fun hreach => hnot (.head hparent hreach)
      refine ⟨p :: l, Nat.succ_le_succ hlength, .cons_cons hparent hchain, fun x hx => ?_⟩
      rw [List.dropLast_cons_cons] at hx
      rcases List.mem_cons.mp hx with rfl | hx
      · exact loose_of_supported h hrow hparent hp hnot
      · exact hloose x hx
  refine isClosure_of (fun d a hrow => ⟨h.roles d a hrow, ?_⟩) (fun role hrole => ?_) hclosed
  · by_contra hnot
    obtain ⟨l, hlength, hchain, hloose⟩ := htrail 100 d a hrow hnot
    exact absurd (length_lt_of_loose hkept hchain hloose) (not_lt.mpr hlength)
  · exact h.fresh 0 (Nat.zero_le _) role role hrole (.refl role)

/-- After a hundred rounds nothing is missing and nothing loose. -/
theorem isClosure_of_rounds (hkept : c.LoopsKept) (h : c.Swept rounds additions removals table)
    (hrounds : 100 ≤ rounds) : IsClosure c.after table := by
  intro d a
  refine ⟨fun hrow => ⟨h.roles d a hrow, ?_⟩, fun ⟨hrole, hreach⟩ => ?_⟩
  · by_contra hnot
    obtain ⟨l, hlength, hchain, hloose⟩ := h.stale d a hrow hnot
    exact absurd (length_lt_of_loose hkept hchain hloose) (not_lt.mpr (hrounds.trans hlength))
  · obtain ⟨n, hn, hsteps⟩ := exists_steps hreach
    exact h.fresh n (by omega) d a hrole hsteps

/-- A closure is left as it is. -/
theorem round_of_isClosure (h : IsClosure c.after table) :
    c.deleted removals table = table ∧ c.inserted additions removals table = table := by
  have hdeleted : c.deleted removals table = table := by
    refine Finset.Subset.antisymm deletes_subset fun row hrow => ?_
    refine deletes_keep (K := {row | row ∈ table}) (fun _ hrow => hrow) ?_ row hrow
    rintro ⟨d, a⟩ hd hne
    rcases ReflTransGen.cases_head ((h d a).mp hd).2 with heq | ⟨p, hparent, hreach⟩
    · exact absurd heq hne
    · exact ⟨p, hparent, (h p a).mpr ⟨(parent_roles hparent).2, hreach⟩⟩
  refine ⟨hdeleted, ?_⟩
  rw [inserted, hdeleted]
  refine Finset.Subset.antisymm (inserts_induction (fun _ hrow => hrow) ?_ ?_) subset_inserts
  · exact fun role hrole => (h role role).mpr ⟨hrole, .refl⟩
  · intro d p a hparent hp
    exact (h d a).mpr ⟨(parent_roles hparent).1, .head hparent ((h p a).mp hp).2⟩

/-- The counts are 0 exactly if the round changes nothing. -/
theorem counts_iff :
    (c.inserted additions removals table).card - (c.deleted removals table).card = 0 ∧
      table.card - (c.deleted removals table).card = 0 ↔
    c.deleted removals table = table ∧ c.inserted additions removals table = table := by
  rw [Nat.sub_eq_zero_iff_le, Nat.sub_eq_zero_iff_le]
  constructor
  · rintro ⟨hinsert, hdelete⟩
    have hdeleted : c.deleted removals table = table :=
      Finset.eq_of_subset_of_card_le deletes_subset hdelete
    have hinserted : c.deleted removals table = c.inserted additions removals table :=
      Finset.eq_of_subset_of_card_le subset_inserts hinsert
    exact ⟨hdeleted, hinserted.symm.trans hdeleted⟩
  · rintro ⟨hdeleted, hinserted⟩
    rw [hinserted, hdeleted]
    exact ⟨le_rfl, le_rfl⟩

/-- A round that changes nothing finds nothing missing and everything supported. -/
theorem isClosure_of_unchanged (hkept : c.LoopsKept) (h : c.Swept rounds additions removals table)
    (hdeleted : c.deleted removals table = table)
    (hinserted : c.inserted additions removals table = table) : IsClosure c.after table := by
  refine isClosure_of_settled hkept h (fun d p a hparent hp => ?_) fun d a hrow hne => ?_
  · by_contra hd
    have hmem := h.inserts d p a hparent hp hd
    have hnow : (d, a) ∈ c.inserted additions removals table := by
      rw [inserted, hdeleted]
      exact inserts_insert (mem_splitIds.mpr hmem) (supported_iff.mpr ⟨p, hparent, hp⟩)
    rw [hinserted] at hnow
    exact hd hnow
  · rw [← hdeleted] at hrow
    exact kept_supported h hrow hne

/-- By induction on the rounds that are left. -/
theorem rebuildLoop_of_swept (hkept : c.LoopsKept) (order : SetOrder) (left : ℕ)
    (h : c.Swept rounds additions removals table) (hrounds : rounds + left = 101) (hle : rounds ≤ 100) :
    ∃ rebuilt, rebuildLoop c.after order left additions removals table = .ok rebuilt ∧
      IsClosure c.after rebuilt := by
  induction left generalizing rounds additions removals table with
  | zero => omega
  | succ left ih =>
    rw [rebuildLoop_succ]
    split_ifs with hdone hcounts
    · rw [List.length_eq_zero_iff, List.length_eq_zero_iff] at hdone
      obtain ⟨rfl, rfl⟩ := hdone
      exact ⟨table, rfl, isClosure_of_unchanged hkept h rfl rfl⟩
    · obtain ⟨hdeleted, hinserted⟩ := counts_iff.mp hcounts
      rw [hinserted]
      exact ⟨table, rfl, isClosure_of_unchanged hkept h hdeleted hinserted⟩
    · have hlt : rounds < 100 := by
        by_contra hnot
        exact hcounts (counts_iff.mpr (round_of_isClosure (isClosure_of_rounds hkept h (by omega))))
      exact ih (swept_round h) (by omega) (by omega)

theorem rebuilds_of_loopsKept (hkept : c.LoopsKept) (order : SetOrder)
    (htable : IsClosure c.before table) : c.Rebuilds order table := by
  have hstart := swept_start (c := c) htable
  rw [Rebuilds, rebuildRoleAncestorList, if_neg (by simp)]
  split_ifs with hnone
  · rw [List.length_eq_zero_iff, List.length_eq_zero_iff] at hnone
    rw [hnone.1, hnone.2] at hstart
    exact ⟨table, rfl, isClosure_of_unchanged hkept hstart rfl rfl⟩
  · obtain ⟨rebuilt, hloop, hclosure⟩ := rebuildLoop_of_swept hkept order 101 hstart rfl (by omega)
    refine ⟨rebuilt, ?_, hclosure⟩
    simp only [hloop, Except.map]

/-! ### Rows above a loop -/

/-- All deletions of a round are made by one query. -/
structure Fits (c : Change) : Prop where
  removals_le : c.removals.length ≤ 40000
  roles_le : c.after.roles.card ≤ 40000

theorem length_newIds_le (hfits : c.Fits) (order : SetOrder) (ids : List ℕ) :
    (newIds c.after order ids).length ≤ 40000 := by
  have hnodup : (newIds c.after order ids).Nodup := order.nodup_toList _
  rw [← List.toFinset_card_of_nodup hnodup]
  refine (Finset.card_le_card fun x hx => ?_).trans hfits.roles_le
  obtain ⟨p, -, hparent⟩ := mem_newIds.mp (List.mem_toFinset.mp hx)
  exact (parent_roles hparent).1

/-- With one query a row that is supported is kept. -/
theorem deleted_keeps (hremovals : removals.length ≤ 40000) (hrow : (d, a) ∈ table)
    (hparent : c.after.Parent d p) (hp : (p, a) ∈ table) : (d, a) ∈ c.deleted removals table := by
  have hkept : ∀ ids, (d, a) ∈ c.after.deleteRows table ids := fun ids =>
    mem_deleteRows.mpr ⟨hrow, fun _ _ => supported_iff.mpr ⟨p, hparent, hp⟩⟩
  rcases Nat.eq_zero_or_pos removals.length with hzero | hpos
  · obtain rfl := List.length_eq_zero_iff.mp hzero
    exact hrow
  · have hone : (removals.length + 39999) / 40000 = 1 := by omega
    rw [deleted, splitIds, hone]
    exact hkept _

/-- Two linked rows above a loop are followed by two linked rows above it: the lower one of them is
kept, and the row below it is there or is inserted. -/
theorem linked_rows (hloop : TransGen c.after.Parent d d) (hremovals : removals.length ≤ 40000)
    (h : c.Swept rounds additions removals table) (hlinked : ∃ v q, ReflTransGen c.after.Parent d v ∧
      c.after.Parent v q ∧ (v, a) ∈ table ∧ (q, a) ∈ table) :
    ∃ v q, ReflTransGen c.after.Parent d v ∧ c.after.Parent v q ∧
      (v, a) ∈ c.inserted additions removals table ∧ (q, a) ∈ c.inserted additions removals table := by
  obtain ⟨v, q, hreach, hparent, hv, hq⟩ := hlinked
  obtain ⟨w, hw, hlink⟩ := TransGen.tail'_iff.mp (hloop.trans_left hreach)
  have hkept := deleted_keeps hremovals hv hparent hq
  refine ⟨w, v, hw, hlink, ?_, subset_inserts hkept⟩
  by_cases hrow : (w, a) ∈ table
  · exact subset_inserts (deleted_keeps hremovals hrow hlink hv)
  · have hmem := h.inserts w v a hlink hv hrow
    exact inserts_insert (mem_splitIds.mpr hmem) (supported_iff.mpr ⟨v, hlink, hkept⟩)

theorem rebuildLoop_linked (hfits : c.Fits) (hloop : TransGen c.after.Parent d d) {left : ℕ}
    (hremovals : removals.length ≤ 40000) (h : c.Swept rounds additions removals table)
    (hlinked : ∃ v q, ReflTransGen c.after.Parent d v ∧ c.after.Parent v q ∧
      (v, a) ∈ table ∧ (q, a) ∈ table) {rebuilt : Table}
    (hrebuilt : rebuildLoop c.after order left additions removals table = .ok rebuilt) :
    ∃ v, ReflTransGen c.after.Parent d v ∧ (v, a) ∈ rebuilt := by
  induction left generalizing rounds additions removals table with
  | zero =>
    rw [rebuildLoop] at hrebuilt
    split_ifs at hrebuilt
    obtain rfl := Except.ok.inj hrebuilt
    obtain ⟨v, -, hreach, -, hv, -⟩ := hlinked
    exact ⟨v, hreach, hv⟩
  | succ left ih =>
    have hround := linked_rows hloop hremovals h hlinked
    rw [rebuildLoop_succ] at hrebuilt
    split_ifs at hrebuilt
    · obtain rfl := Except.ok.inj hrebuilt
      obtain ⟨v, -, hreach, -, hv, -⟩ := hlinked
      exact ⟨v, hreach, hv⟩
    · obtain rfl := Except.ok.inj hrebuilt
      obtain ⟨v, -, hreach, -, hv, -⟩ := hround
      exact ⟨v, hreach, hv⟩
    · exact ih (length_newIds_le hfits order removals) (swept_round h) hround hrebuilt

theorem loopsKept_of_rebuilds (hfits : c.Fits) (htable : IsClosure c.before table)
    (h : c.Rebuilds order table) : c.LoopsKept := by
  intro role top parent a hloop hreach hparent htop hbefore
  have hroles := parent_roles hparent
  rw [c.roles_eq] at hroles
  have hlinked : ∃ v q, ReflTransGen c.after.Parent role v ∧ c.after.Parent v q ∧
      (v, a) ∈ table ∧ (q, a) ∈ table :=
    ⟨top, parent, hreach, hparent, (htable top a).mpr ⟨hroles.1, htop⟩,
      (htable parent a).mpr ⟨hroles.2, hbefore⟩⟩
  obtain ⟨rebuilt, hrebuild, hclosure⟩ := h
  have hstays : ∃ v, ReflTransGen c.after.Parent role v ∧ (v, a) ∈ rebuilt := by
    rw [rebuildRoleAncestorList, if_neg (by simp)] at hrebuild
    split_ifs at hrebuild
    · cases hrebuild
      obtain ⟨v, -, hv, -, hrow, -⟩ := hlinked
      exact ⟨v, hv, hrow⟩
    · cases hend : rebuildLoop c.after order 101 c.additions c.removals table with
      | error e =>
        rw [hend] at hrebuild
        cases hrebuild
      | ok final =>
        rw [hend] at hrebuild
        cases hrebuild
        exact rebuildLoop_linked hfits hloop hfits.removals_le (swept_start htable) hlinked hend
  obtain ⟨v, hv, hrow⟩ := hstays
  exact hv.trans ((hclosure v a).mp hrow).2

/-! ### Small hierarchies -/

/-- The links of a path are between roles. -/
theorem mem_roles_of_chain {h : Hierarchy} {x y : ℕ} {l : List ℕ}
    (hchain : (x :: y :: l).IsChain h.Parent) : ∀ z ∈ x :: y :: l, z ∈ h.roles := by
  induction l generalizing x y with
  | nil =>
    obtain ⟨hparent, -⟩ := List.isChain_cons_cons.mp hchain
    intro z hz
    rcases List.mem_cons.mp hz with rfl | hz
    · exact (parent_roles hparent).1
    · rw [List.mem_singleton.mp hz]
      exact (parent_roles hparent).2
  | cons w l ih =>
    obtain ⟨hparent, hchain⟩ := List.isChain_cons_cons.mp hchain
    intro z hz
    rcases List.mem_cons.mp hz with rfl | hz
    · exact (parent_roles hparent).1
    · exact ih hchain z hz

theorem length_le_of_simplePath {h : Hierarchy} {n : ℕ} (hn : 0 < n) (hcard : h.roles.card ≤ n)
    (path : List ℕ) (hpath : SimplePath h.Parent path) : path.length ≤ n := by
  match path, hpath with
  | [], _ => exact Nat.zero_le n
  | [x], _ => exact hn
  | x :: y :: l, ⟨hchain, hnodup⟩ =>
    rw [← List.toFinset_card_of_nodup hnodup]
    refine (Finset.card_le_card fun z hz => ?_).trans hcard
    exact mem_roles_of_chain hchain z (List.mem_toFinset.mp hz)

/-- From the one set of links to the other, over at most 100 roles. -/
def between (order : SetOrder) (before after : Hierarchy) (hroles : after.roles = before.roles)
    (hcard : after.roles.card ≤ 100) : Change where
  before := before
  after := after
  roles_eq := hroles
  additions := order.toList ((after.parents \ before.parents).image Prod.fst)
  removals := order.toList ((before.parents \ after.parents).image Prod.fst)
  gained {role parent} hafter hbefore := (order.mem_toList _ _).mpr
    (Finset.mem_image_of_mem Prod.fst (Finset.mem_sdiff.mpr ⟨hafter, hbefore⟩))
  lost {role parent} hbefore hafter := (order.mem_toList _ _).mpr
    (Finset.mem_image_of_mem Prod.fst (Finset.mem_sdiff.mpr ⟨hbefore, hafter⟩))
  short path hpath := length_le_of_simplePath (by omega) hcard path hpath

/-- Without loops among the new links every change is rebuilt. -/
theorem loopsKept_of_acyclic (hloop : ∀ role, ¬ TransGen c.after.Parent role role) : c.LoopsKept :=
  fun role _ _ _ hrole => absurd hrole (hloop role)

/-- The table is rebuilt if the roles on loops keep what was handed down above them, and where each
round deletes with one query, only then. -/
theorem rebuilds_iff_loops_kept (c : Change) (order : SetOrder) (table : Table)
    (htable : IsClosure c.before table) :
    (c.LoopsKept → c.Rebuilds order table) ∧
      (c.Fits → (c.Rebuilds order table ↔ c.LoopsKept)) :=
  ⟨fun hkept => rebuilds_of_loopsKept hkept order htable, fun hfits =>
    ⟨loopsKept_of_rebuilds hfits htable, fun hkept => rebuilds_of_loopsKept hkept order htable⟩⟩

/-- A link that goes. -/
def linked : Hierarchy := ⟨{1, 2}, {(1, 2)}, by decide⟩

def unlinked : Hierarchy := ⟨{1, 2}, ∅, by decide⟩

def unlink : Change := between ascending linked unlinked rfl (by decide)

theorem unlink_rebuilds : unlink.Rebuilds ascending {(1, 1), (2, 2), (1, 2)} := by
  refine (rebuilds_iff_loops_kept unlink ascending _ ?_).1 (loopsKept_of_acyclic fun role hloop => ?_)
  · refine isClosure_of (fun d a hrow => ?_) (by decide) fun d p a hparent hrow => ?_
    · simp only [Finset.mem_insert, Finset.mem_singleton, Prod.mk.injEq] at hrow
      rcases hrow with ⟨rfl, rfl⟩ | ⟨rfl, rfl⟩ | ⟨rfl, rfl⟩
      · exact ⟨by decide, .refl⟩
      · exact ⟨by decide, .refl⟩
      · exact ⟨by decide, .single (by decide : (1, 2) ∈ linked.parents)⟩
    · have hclosed : ∀ link ∈ linked.parents, ∀ row ∈ ({(1, 1), (2, 2), (1, 2)} : Table),
          link.2 = row.1 → (link.1, row.2) ∈ ({(1, 1), (2, 2), (1, 2)} : Table) := by
        decide
      exact hclosed (d, p) hparent (p, a) hrow rfl
  · obtain ⟨p, hparent, -⟩ := TransGen.head'_iff.mp hloop
    exact absurd hparent (Finset.notMem_empty _)

/-- Role 1 loses its parent 3, and what it has handed down comes back around the loop. -/
def looped : Hierarchy := ⟨{1, 2, 3}, {(1, 2), (2, 1), (1, 3)}, by decide⟩

def loop : Hierarchy := ⟨{1, 2, 3}, {(1, 2), (2, 1)}, by decide⟩

def revoke : Change := between ascending looped loop rfl (by decide)

def loopTable : Table := {(1, 1), (2, 2), (3, 3), (1, 2), (2, 1), (1, 3), (2, 3)}

theorem looped_isClosure : IsClosure looped loopTable := by
  have hdown : looped.Parent 1 2 := (by decide : (1, 2) ∈ looped.parents)
  have hup : looped.Parent 2 1 := (by decide : (2, 1) ∈ looped.parents)
  have hout : looped.Parent 1 3 := (by decide : (1, 3) ∈ looped.parents)
  refine isClosure_of (fun d a hrow => ?_) (by decide) fun d p a hparent hrow => ?_
  · simp only [loopTable, Finset.mem_insert, Finset.mem_singleton, Prod.mk.injEq] at hrow
    rcases hrow with ⟨rfl, rfl⟩ | ⟨rfl, rfl⟩ | ⟨rfl, rfl⟩ | ⟨rfl, rfl⟩ | ⟨rfl, rfl⟩ | ⟨rfl, rfl⟩ |
      ⟨rfl, rfl⟩
    · exact ⟨by decide, .refl⟩
    · exact ⟨by decide, .refl⟩
    · exact ⟨by decide, .refl⟩
    · exact ⟨by decide, .single hdown⟩
    · exact ⟨by decide, .single hup⟩
    · exact ⟨by decide, .single hout⟩
    · exact ⟨by decide, .head hup (.single hout)⟩
  · have hclosed : ∀ link ∈ looped.parents, ∀ row ∈ loopTable,
        link.2 = row.1 → (link.1, row.2) ∈ loopTable := by
      decide
    exact hclosed (d, p) hparent (p, a) hrow rfl

theorem rows_around_loop_stay : ¬ ∀ (c : Change) (order : SetOrder) (table : Table),
    IsClosure c.before table → c.Rebuilds order table := by
  intro hall
  obtain ⟨rebuilt, hrebuilt, hclosure⟩ := hall revoke ascending loopTable looped_isClosure
  have hresult : rebuildRoleAncestorList revoke.after ascending false none revoke.additions
      revoke.removals loopTable = .ok (none, loopTable) := by
    decide
  rw [hresult] at hrebuilt
  cases hrebuilt
  have hreach := ((hclosure 1 3).mp (by decide)).2
  -- The roles 1 and 2 have no other parents than each other.
  have hinside : ∀ {role : ℕ}, ReflTransGen loop.Parent role 3 → role = 3 := by
    intro role hrole
    rcases ReflTransGen.cases_tail hrole with heq | ⟨p, -, hparent⟩
    · exact heq.symm
    · exact absurd hparent (by simp [Hierarchy.Parent, loop])
  exact absurd (hinside hreach) (by decide)

end Change

end Forail.Rbac
