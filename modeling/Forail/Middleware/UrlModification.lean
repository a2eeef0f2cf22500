import Forail.Base.Keyed
import Forail.Utils.NamedUrlGraph

/-! Named URLs identify their object. The lookups read from the URL of an object select that
object: its own row satisfies them, and no other one does if no foreign key of its tree is
null. Names that are positive numbers are taken for primary keys before they are read. -/

namespace Forail.NamedUrl

open Percent Loop

/-- The constraints: primary keys are unique, foreign keys lead to rows, and rows with the
same key fields and the same foreign keys, none of them null, are the same. -/
structure ConsistentDatabase (g : Graph) extends Database where
  pk_nodup : ∀ i, ((rows i).map Row.pk).Nodup
  fk_valid : ∀ {i : ℕ} {row : Row} {fk : String} {j p : ℕ}, row ∈ rows i →
    (fk, j) ∈ (g.nodes i).adjList → row.fk fk = some p → ∃ next ∈ rows j, next.pk = p
  unique_together : ∀ {i : ℕ} {row row' : Row}, row ∈ rows i → row' ∈ rows i →
    (∀ f ∈ (g.nodes i).fields, row.attr f = row'.attr f) →
    (∀ e ∈ (g.nodes i).adjList, ∃ p, row.fk e.1 = some p ∧ row'.fk e.1 = some p) → row = row'

section Definitions
variable (g : Graph) (db : Database)

/-- The value at the end of a lookup; none after a null foreign key. -/
def valueAt : ℕ → Row → Lookup → Option Str
  | _, _, [] => none
  | _, row, [field] => some (row.attr field)
  | i, row, fk :: next :: path => do
    let e ← Keyed.find Prod.fst (g.nodes i).adjList fk
    let r ← db.related row fk e.2
    valueAt e.2 r (next :: path)

/-- The condition of `filter(**kwargs)`. -/
def matchesRow (i : ℕ) (kwargs : List (Lookup × Str)) (row : Row) : Bool :=
  kwargs.all fun e => valueAt g db i row e.1 == some e.2

/-- `str(pk)`. -/
def strPk (pk : ℕ) : Str := Nat.toDigits 10 pk

/-- `_hijack_for_old_jt_name`. -/
def hijackForOldJtName (u : UnicodeData) (i : ℕ) (namedUrl : Str) : Option Row :=
  if (u.int namedUrl).isSome then none
  else (db.rowsByOrganization i).find? fun row => row.attr "name" = unquote namedUrl

/-- `_named_url_to_pk`, with the counters that it leaves. -/
def namedUrlToPk (u : UnicodeData) (fuel : ℕ) (counter : ℕ → ℕ) (i : ℕ) (resource : String)
    (namedUrl : Str) : Option (Except String (Str × (ℕ → ℕ))) :=
  (populateNamedUrlQueryKwargs g u fuel counter i namedUrl true).map fun result => do
    let (valid, kwargs, counter) ← result
    if valid then
      match (db.rows i).find? (matchesRow g db i kwargs) with
      | some row => return (strPk row.pk, counter)
      | none => return (['0'], counter)
    else if resource = "job_templates" ∧ ¬ ['+', '+'] <:+: namedUrl then
      match hijackForOldJtName db u i namedUrl with
      | some row => return (strPk row.pk, counter)
      | none => return (namedUrl, counter)
    else return (namedUrl, counter)

end Definitions

section
variable {g : Graph} {db : Database} {i : ℕ} {row : Row}

theorem related_mem {fk : String} {j : ℕ} {next : Row} (h : db.related row fk j = some next) :
    next ∈ db.rows j ∧ row.fk fk = some next.pk := by
  obtain ⟨p, hp, hf⟩ := Option.bind_eq_some_iff.mp h
  refine ⟨List.mem_of_find?_eq_some hf, ?_⟩
  have hpk := List.find?_some hf
  rw [hp, of_decide_eq_true hpk]

theorem valueAt_cons {fk : String} {j : ℕ} (he : (fk, j) ∈ (g.nodes i).adjList) {path : Lookup}
    (hpath : path ≠ []) : valueAt g db i row (fk :: path) =
      (db.related row fk j).bind fun next => valueAt g db j next path := by
  have hfind : Keyed.find Prod.fst (g.nodes i).adjList fk = some (fk, j) :=
    Keyed.find_of_mem (g.fks_nodup i) he
  cases path with
  | nil => exact absurd rfl hpath
  | cons next path =>
    rw [valueAt, hfind]
    rfl

/-- The lookups of an object hold of itself. -/
theorem valueAt_lookups {path : List String} {e : Lookup × Str}
    (he : e ∈ lookups g db path i row) :
    ∃ l, e.1 = path ++ l ∧ l ≠ [] ∧ valueAt g db i row l = some e.2 := by
  induction i using Nat.strong_induction_on generalizing path row with
  | _ i ih =>
    rw [lookups_eq] at he
    rcases List.mem_append.mp he with he | he
    · obtain ⟨f, -, rfl⟩ := List.mem_map.mp he
      exact ⟨[f], rfl, by simp, rfl⟩
    · obtain ⟨⟨fk, j⟩, hadj, he⟩ := List.mem_flatMap.mp he
      rw [lookupsBelow] at he
      cases hnext : db.related row fk j with
      | none =>
        rw [hnext] at he
        cases he
      | some next =>
        rw [hnext] at he
        obtain ⟨l, hl, hne, hv⟩ := ih j (g.below hadj) he
        refine ⟨fk :: l, by rw [hl, List.append_assoc, List.singleton_append], by simp, ?_⟩
        rw [valueAt_cons hadj hne, hnext]
        exact hv

/-- The lookups of one row hold of another one. -/
def Agrees (g : Graph) (db : Database) (path : List String) (i : ℕ) (row row' : Row) : Prop :=
  ∀ e ∈ lookups g db path i row, ∀ l, e.1 = path ++ l → valueAt g db i row' l = some e.2

theorem matchesRow_iff {row' : Row} :
    matchesRow g db i (lookups g db [] i row) row' = true ↔ Agrees g db [] i row row' := by
  simp only [matchesRow, List.all_eq_true, beq_iff_eq, Agrees, List.nil_append]
  exact ⟨fun h e he l hl => hl ▸ h e he, fun h e he => h e he e.1 rfl⟩

theorem matchesRow_self : matchesRow g db i (lookups g db [] i row) row = true := by
  rw [matchesRow_iff]
  intro e he l hl
  obtain ⟨l', hl', -, hv⟩ := valueAt_lookups he
  rw [hl'] at hl
  exact List.append_cancel_left hl ▸ hv

/-- Agreement goes on below a foreign key that is not null. -/
theorem Agrees.below {path : List String} {row' : Row} (h : Agrees g db path i row row')
    {fk : String} {j : ℕ} (hadj : (fk, j) ∈ (g.nodes i).adjList) {next : Row}
    (hnext : db.related row fk j = some next) (hfields : (g.nodes j).fields ≠ []) :
    ∃ next', db.related row' fk j = some next' ∧ Agrees g db (path ++ [fk]) j next next' := by
  have hmem : ∀ e ∈ lookups g db (path ++ [fk]) j next, e ∈ lookups g db path i row := by
    intro e he
    rw [lookups_eq]
    refine List.mem_append_right _ (List.mem_flatMap.mpr ⟨_, hadj, ?_⟩)
    rw [lookupsBelow, hnext]
    exact he
  have hvalue : ∀ e ∈ lookups g db (path ++ [fk]) j next, ∀ l, e.1 = (path ++ [fk]) ++ l →
      (db.related row' fk j).bind (fun r => valueAt g db j r l) = some e.2 := by
    intro e he l hl
    obtain ⟨l', hl', hne, -⟩ := valueAt_lookups he
    obtain rfl : l = l' := List.append_cancel_left (hl.symm.trans hl')
    rw [← valueAt_cons hadj hne]
    exact h e (hmem e he) _ (by rw [hl, List.append_assoc, List.singleton_append])
  obtain ⟨f, hf⟩ := List.exists_mem_of_ne_nil _ hfields
  have hfield : (path ++ [fk] ++ [f], next.attr f) ∈ lookups g db (path ++ [fk]) j next := by
    rw [lookups_eq]
    exact List.mem_append_left _ (List.mem_map_of_mem hf)
  obtain ⟨next', hn, -⟩ := Option.bind_eq_some_iff.mp (hvalue _ hfield [f] rfl)
  refine ⟨next', hn, fun e he l hl => ?_⟩
  have hv := hvalue e he l hl
  rwa [hn] at hv

end

section Identity
variable {g : Graph} {i : ℕ} {row : Row}

/-- No foreign key of the tree of an object is null. -/
def Complete (g : Graph) (db : Database) (i : ℕ) (row : Row) : Prop :=
  ∀ j r, Reached g db i row j r → ∀ e ∈ (g.nodes j).adjList, r.fk e.1 ≠ none

theorem ConsistentDatabase.related_of_fk (db : ConsistentDatabase g) (hrow : row ∈ db.rows i)
    {e : String × ℕ} (he : e ∈ (g.nodes i).adjList) (hfk : row.fk e.1 ≠ none) :
    ∃ next, db.related row e.1 e.2 = some next := by
  obtain ⟨p, hp⟩ := Option.ne_none_iff_exists'.mp hfk
  obtain ⟨next, hnext, hpk⟩ := db.fk_valid hrow he hp
  rw [Database.related, hp, Option.bind_some]
  apply Option.isSome_iff_exists.mp
  rw [List.find?_isSome]
  exact ⟨next, hnext, by simpa using hpk⟩

/-- A row that agrees with a complete one is that row: their key fields are the same, and by
induction so are the rows that their foreign keys lead to. -/
theorem eq_of_agrees (db : ConsistentDatabase g) {path : List String} {row' : Row}
    (hrow : row ∈ db.rows i) (hrow' : row' ∈ db.rows i) (hc : Complete g db.toDatabase i row)
    (hl : ∀ j r, Reached g db.toDatabase i row j r → Legible g j r)
    (h : Agrees g db.toDatabase path i row row') : row = row' := by
  induction i using Nat.strong_induction_on generalizing path row row' with
  | _ i ih =>
    apply db.unique_together hrow hrow'
    · intro f hf
      have hmem : (path ++ [f], row.attr f) ∈ lookups g db.toDatabase path i row := by
        rw [lookups_eq]
        exact List.mem_append_left _ (List.mem_map_of_mem hf)
      exact (Option.some.inj (h _ hmem [f] rfl)).symm
    · rintro ⟨fk, j⟩ he
      obtain ⟨next, hnext⟩ := db.related_of_fk hrow he (hc i row (.refl i row) _ he)
      have hreach : ∀ {k r}, Reached g db.toDatabase j next k r →
          Reached g db.toDatabase i row k r := .head he hnext
      obtain ⟨next', hnext', hagree⟩ := h.below he hnext (hl j next (hreach (.refl j next))).1
      have heq := ih j (g.below he) (related_mem hnext).1 (related_mem hnext').1
        (fun k r hr => hc k r (hreach hr)) (fun k r hr => hl k r (hreach hr)) hagree
      exact ⟨next.pk, (related_mem hnext).2, heq ▸ (related_mem hnext').2⟩

/-- The URL of an object, as a text. -/
def urlOf (g : Graph) (db : Database) (i : ℕ) (row : Row) : Str :=
  joinNames ((objects g db i row).map itemText)

theorem populate_urlOf (db : Database) {counter : ℕ → ℕ} (hcounter : ∀ j, counter j = 0)
    (u : UnicodeData) (hl : ∀ j r, Reached g db i row j r → Legible g j r)
    (hpk : isPrimaryKey u (urlOf g db i row) = .ok false) : ∃ n, ∀ fuel, n ≤ fuel →
      populateNamedUrlQueryKwargs g u fuel counter i (urlOf g db i row) true =
        some (.ok (true, lookups g db [] i row, counter)) := by
  obtain ⟨n, hn⟩ := (populate_url hcounter hl).eventually
  refine ⟨n, fun fuel hf => ?_⟩
  have hnames : splitNames (replaceEscaped (urlOf g db i row)) =
      (objects g db i row).map readText :=
    splitNames_url (by rw [objects_eq]; simp) (objects_ne_nil hl)
  rw [populateNamedUrlQueryKwargs, if_pos rfl, hpk]
  dsimp only
  rw [hnames, hn fuel hf]
  rfl

/-- The URL that is generated for an object leads back to its primary key, unless it is a
positive number, if the texts on its tree are not empty and contain no percent escape, and if
either no foreign key of the tree is null or no other row satisfies the lookups. -/
theorem namedUrlToPk_generateNamedUrl (u : UnicodeData) (db : ConsistentDatabase g)
    {counter : ℕ → ℕ} (hcounter : ∀ j, counter j = 0) (obj : ℕ → Option Row) (resource : String)
    (hrow : row ∈ db.rows i)
    (hl : ∀ j r, Reached g db.toDatabase i row j r → Legible g j r)
    (hone : Complete g db.toDatabase i row ∨ ∀ row' ∈ db.rows i,
      matchesRow g db.toDatabase i (lookups g db.toDatabase [] i row) row' = true → row' = row) :
    ∃ n url, (∀ fuel, n ≤ fuel →
        generateNamedUrl g db.toDatabase fuel counter obj i row = some (url, counter)) ∧
      (isPrimaryKey u url = .ok false → ∃ m, ∀ fuel, m ≤ fuel →
        namedUrlToPk g db.toDatabase u fuel counter i resource url =
          some (.ok (strPk row.pk, counter))) := by
  obtain ⟨n, hn⟩ := generateNamedUrl_eq (g := g) hcounter obj i row
  refine ⟨n, urlOf g db.toDatabase i row, hn, fun hpk => ?_⟩
  obtain ⟨m, hm⟩ := populate_urlOf db.toDatabase hcounter u hl hpk
  have hfirst : (db.rows i).find?
      (matchesRow g db.toDatabase i (lookups g db.toDatabase [] i row)) = some row := by
    have hsome : ((db.rows i).find?
        (matchesRow g db.toDatabase i (lookups g db.toDatabase [] i row))).isSome = true :=
      List.find?_isSome.mpr ⟨row, hrow, matchesRow_self⟩
    obtain ⟨row', hfind⟩ := Option.isSome_iff_exists.mp hsome
    have hrow' := List.mem_of_find?_eq_some hfind
    have hmatch := List.find?_some hfind
    rw [hfind]
    rcases hone with hc | hone
    · rw [eq_of_agrees db hrow hrow' hc hl (matchesRow_iff.mp hmatch)]
    · rw [hone row' hrow' hmatch]
  refine ⟨m, fun fuel hf => ?_⟩
  rw [namedUrlToPk, hm fuel hf, Option.map_some]
  simp only [bind, Except.bind, if_true, hfirst, pure, Except.pure]

end Identity

/-! One organization and one job template of it, with given names. -/

def templateGraph : Graph where
  nodes i := ⟨["name"], if i = 1 then [("organization", 0)] else []⟩
  below {i fk j} h := by
    split_ifs at h with hi
    · obtain ⟨-, rfl⟩ := Prod.mk.inj (List.mem_singleton.mp h)
      omega
    · cases h
  fields_nodup _ := List.nodup_singleton _
  fks_nodup i := by split_ifs <;> simp

def organizationRow (name : Str) : Row := ⟨3, fun _ => name, fun _ => none⟩

def templateRow (name : Str) : Row := ⟨5, fun _ => name, fun _ => some 3⟩

def templateDatabase (organization template : Str) : ConsistentDatabase templateGraph where
  rows
    | 0 => [organizationRow organization]
    | 1 => [templateRow template]
    | _ => []
  rowsByOrganization _ := []
  pk_nodup i := by rcases i with _ | _ | i <;> simp
  fk_valid {i row fk j p} hrow he hp := by
    rcases i with _ | _ | i
    · cases he
    · obtain ⟨-, rfl⟩ := Prod.mk.inj (List.mem_singleton.mp he)
      obtain rfl := List.mem_singleton.mp hrow
      exact ⟨_, List.mem_singleton_self _, Option.some.inj hp⟩
    · cases hrow
  unique_together {i row row'} hrow hrow' _ _ := by
    rcases i with _ | _ | i
    · exact (List.mem_singleton.mp hrow).trans (List.mem_singleton.mp hrow').symm
    · exact (List.mem_singleton.mp hrow).trans (List.mem_singleton.mp hrow').symm
    · cases hrow

/-- An organization named 123 is taken for the one with that primary key. -/
theorem digits_taken_as_pk : ¬ ∀ (u : UnicodeData) (g : Graph) (db : ConsistentDatabase g)
    (counter : ℕ → ℕ) (obj : ℕ → Option Row) (i : ℕ) (row : Row) (resource : String),
    (∀ j, counter j = 0) → row ∈ db.rows i →
    (∀ j r, Reached g db.toDatabase i row j r → ∀ f ∈ (g.nodes j).fields, r.attr f ≠ []) →
    ∃ n, ∀ fuel, n ≤ fuel → ∃ url c c',
      generateNamedUrl g db.toDatabase fuel counter obj i row = some (url, c) ∧
      namedUrlToPk g db.toDatabase u fuel c i resource url = some (.ok (strPk row.pk, c')) := by
  intro h
  have hname : ∀ j r, Reached templateGraph (templateDatabase ['1', '2', '3'] []).toDatabase 0
      (organizationRow ['1', '2', '3']) j r → ∀ f ∈ (templateGraph.nodes j).fields, r.attr f ≠ [] := by
    intro j r hr f _
    cases hr with
    | refl => simp [organizationRow]
    | head he => cases he
  obtain ⟨n, hn⟩ := h asciiData templateGraph (templateDatabase ['1', '2', '3'] []) (fun _ => 0)
    (fun _ => none) 0 _ "organizations" (fun _ => rfl) (List.mem_singleton_self _) hname
  obtain ⟨url, c, c', hurl, hpk⟩ := hn (n + 2) (Nat.le_add_right n 2)
  have hurl' : url = ['1', '2', '3'] := (congrArg Prod.fst (Option.some.inj hurl)).symm
  subst hurl'
  have hdigits : namedUrlToPk templateGraph (templateDatabase ['1', '2', '3'] []).toDatabase
      asciiData (n + 2) c 0 "organizations" ['1', '2', '3'] = some (.ok (['1', '2', '3'], c)) := rfl
  rw [hdigits] at hpk
  have hpk' : ['1', '2', '3'] = strPk 3 :=
    congrArg Prod.fst (Except.ok.inj (Option.some.inj hpk))
  exact absurd hpk' (by decide)

theorem reached_template {organization template : Str} {j : ℕ} {r : Row}
    (h : Reached templateGraph (templateDatabase organization template).toDatabase 1
      (templateRow template) j r) : r = templateRow template ∨
      (j = 0 ∧ r = organizationRow organization) := by
  cases h with
  | refl => exact .inl rfl
  | head he hnext hr =>
    obtain ⟨rfl, rfl⟩ := Prod.mk.inj (List.mem_singleton.mp he)
    have horg := (Option.some.inj hnext).symm
    subst horg
    cases hr with
    | refl => exact .inr ⟨rfl, rfl⟩
    | head he => cases he

/-- Texts with delimiters and reserved characters lead back to the template. -/
theorem template_identified : ∃ m, ∀ fuel, m ≤ fuel →
    namedUrlToPk templateGraph (templateDatabase ['x', '+', '['] ['a', '/', '+']).toDatabase
      asciiData fuel (fun _ => 0) 1 "job_templates" ("a%2F[+]++x[+]%5B".toList) =
        some (.ok (['5'], fun _ => 0)) := by
  have hplain : ∀ s : Str, '%' ∉ s → NoEscape s := fun s hs a b _ _ hi =>
    hs (hi.subset List.mem_cons_self)
  have hlegible : ∀ j r, Reached templateGraph
      (templateDatabase ['x', '+', '['] ['a', '/', '+']).toDatabase 1
      (templateRow ['a', '/', '+']) j r → Legible templateGraph j r := fun j r hr => by
    rcases reached_template hr with rfl | ⟨-, rfl⟩
    · exact ⟨List.cons_ne_nil _ _, fun _ _ => ⟨List.cons_ne_nil _ _,
        hplain ['a', '/', '+'] (by decide)⟩⟩
    · exact ⟨List.cons_ne_nil _ _, fun _ _ => ⟨List.cons_ne_nil _ _,
        hplain ['x', '+', '['] (by decide)⟩⟩
  have hcomplete : Complete templateGraph
      (templateDatabase ['x', '+', '['] ['a', '/', '+']).toDatabase 1
      (templateRow ['a', '/', '+']) := fun j r hr e he => by
    rcases reached_template hr with rfl | ⟨rfl, -⟩
    · exact Option.some_ne_none _
    · cases he
  obtain ⟨n, url, hurl, hpk⟩ := namedUrlToPk_generateNamedUrl asciiData
    (templateDatabase ['x', '+', '['] ['a', '/', '+']) (fun _ => rfl) (fun _ => none)
    "job_templates" (List.mem_singleton_self _) hlegible (.inl hcomplete)
  have htext := congrArg Prod.fst (Option.some.inj (hurl (n + 4) (Nat.le_add_right n 4)))
  have hurl' : url = "a%2F[+]++x[+]%5B".toList := htext.symm.trans (by decide)
  subst hurl'
  exact hpk rfl

end Forail.NamedUrl
