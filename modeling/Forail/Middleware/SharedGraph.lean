import Forail.Middleware.UrlModification

/-! The nodes of the graph are shared by all requests, with the counters that a walk keeps in them.
A walk that ends at the bottom of its stack leaves them at 0; one that ends with an unread name
leaves them where they are, and the next walk goes on from there. -/

namespace Forail.NamedUrl

open Percent Loop

section Definitions
variable (g : Graph)

/-! ### The format of a model -/

structure FormatState where
  counter : ℕ → ℕ
  currentFkName : String
  stack : List ℕ
  namedUrlComponents : List String

def namedUrlComponent (currentFkName : String) (i : ℕ) : String :=
  "+".intercalate ((g.nodes i).fields.map fun field => "<" ++ (currentFkName ++ field) ++ ">")

/-- The body of the loop of `named_url_format`. -/
def formatStep (s : FormatState) : FormatState ⊕ (String × (ℕ → ℕ)) :=
  match s.stack with
  | [] => .inr ("++".intercalate s.namedUrlComponents, s.counter)
  | i :: rest =>
    let components :=
      if s.counter i = 0 then s.namedUrlComponents ++ [namedUrlComponent g s.currentFkName i]
      else s.namedUrlComponents
    match (g.nodes i).adjList[s.counter i]? with
    | none => .inl ⟨Function.update s.counter i 0, s.currentFkName, rest, components⟩
    | some (fk, j) =>
      .inl ⟨Function.update s.counter i (s.counter i + 1), fk ++ ".", j :: i :: rest, components⟩

def namedUrlFormat (fuel : ℕ) (counter : ℕ → ℕ) (i : ℕ) : Option (String × (ℕ → ℕ)) :=
  loop (formatStep g) fuel ⟨counter, "", [i], []⟩

/-! ### Calls one after the other -/

/-- `obj` is what earlier calls left in the nodes, whatever that is. -/
inductive Call where
  | namedUrlFormat (i : ℕ)
  | generateNamedUrl (db : Database) (obj : ℕ → Option Row) (i : ℕ) (row : Row)
  | populateNamedUrlQueryKwargs (i : ℕ) (namedUrl : Str) (ignoreDigits : Bool)

inductive Answer where
  | format (text : String)
  | url (text : Str)
  | query (valid : Bool) (kwargs : List (Lookup × Str))
  | raised (error : String)

def Call.run (u : UnicodeData) (fuel : ℕ) (counter : ℕ → ℕ) : Call → Option (Answer × (ℕ → ℕ))
  | .namedUrlFormat i => (NamedUrl.namedUrlFormat g fuel counter i).map fun r => (.format r.1, r.2)
  | .generateNamedUrl db obj i row =>
    (NamedUrl.generateNamedUrl g db fuel counter obj i row).map fun r => (.url r.1, r.2)
  | .populateNamedUrlQueryKwargs i namedUrl ignoreDigits =>
    (NamedUrl.populateNamedUrlQueryKwargs g u fuel counter i namedUrl ignoreDigits).map fun
      | .error e => (.raised e, counter)
      | .ok r => (.query r.1 r.2.1, r.2.2)

/-- The answer of each call and the counters after it. -/
def runCalls (u : UnicodeData) (fuel : ℕ) : (ℕ → ℕ) → List Call → Option (List (Answer × (ℕ → ℕ)))
  | _, [] => some []
  | counter, call :: calls => do
    let r ← call.run g u fuel counter
    let trace ← runCalls u fuel r.2 calls
    return r :: trace

/-- Each call leaves all counters at 0 and is answered as it is on a fresh graph. -/
def LeftClean (u : UnicodeData) (calls : List Call) : Prop :=
  ∃ n, ∀ fuel, n ≤ fuel → ∃ trace, runCalls g u fuel (fun _ => 0) calls = some trace ∧
    List.Forall₂ (fun call r => (∀ j, r.2 j = 0) ∧
      (call.run g u fuel fun _ => 0).map Prod.fst = some r.1) calls trace

/-! ### The names that a walk reads -/

/-- The first names are those of the trees below the nodes, in preorder: a null has an empty name,
an item one part for each field. -/
inductive Listed : List ℕ → List Str → List Str → Prop
  | nil (names : List Str) : Listed [] names names
  | null {i : ℕ} {is : List ℕ} {names rest : List Str} : Listed is names rest →
      Listed (i :: is) ([] :: names) rest
  | item {i : ℕ} {is : List ℕ} {name : Str} {names rest : List Str} : name ≠ [] →
      (splitParts name).length = (g.nodes i).fields.length →
      Listed ((g.nodes i).adjList.map Prod.snd ++ is) names rest → Listed (i :: is) (name :: names) rest

/-- The first name is not one of the model at all. -/
def Misfit (i : ℕ) (names : List Str) : Prop :=
  ∃ name ∈ names.head?, name ≠ [] ∧ (splitParts name).length ≠ (g.nodes i).fields.length

/-- A text is taken for a primary key, or its first name is not one of the model, or it has a name
for all that the object refers to. -/
def Call.Finishes (u : UnicodeData) : Call → Prop
  | .namedUrlFormat _ => True
  | .generateNamedUrl _ _ _ _ => True
  | .populateNamedUrlQueryKwargs i namedUrl ignoreDigits =>
    (ignoreDigits = true ∧ isPrimaryKey u namedUrl ≠ .ok false) ∨
    Misfit g i (splitNames (replaceEscaped namedUrl)) ∨
    ∃ rest, Listed g [i] (splitNames (replaceEscaped namedUrl)) rest

end Definitions

variable {g : Graph}

/-! ### Listings -/

namespace Listed

variable {is js : List ℕ} {names mid rest rest' : List Str}

theorem append (h : Listed g is names mid) (h' : Listed g js mid rest) :
    Listed g (is ++ js) names rest := by
  induction h with
  | nil names => exact h'
  | null _ ih => exact .null (ih h')
  | item hne hlength _ ih =>
    have hall := ih h'
    rw [List.append_assoc] at hall
    exact .item hne hlength hall

theorem split {l : List ℕ} (h : Listed g l names rest) (hl : l = is ++ js) :
    ∃ mid, Listed g is names mid ∧ Listed g js mid rest := by
  induction h generalizing is with
  | nil names =>
    obtain ⟨rfl, rfl⟩ := List.append_eq_nil_iff.mp hl.symm
    exact ⟨names, .nil names, .nil names⟩
  | null h ih =>
    cases is with
    | nil =>
      subst hl
      exact ⟨_, .nil _, .null h⟩
    | cons i is =>
      obtain ⟨rfl, rfl⟩ := List.cons.inj hl
      obtain ⟨mid, hmid, hrest⟩ := ih rfl
      exact ⟨mid, .null hmid, hrest⟩
  | item hne hlength h ih =>
    cases is with
    | nil =>
      subst hl
      exact ⟨_, .nil _, .item hne hlength h⟩
    | cons i is =>
      obtain ⟨rfl, rfl⟩ := List.cons.inj hl
      obtain ⟨mid, hmid, hrest⟩ := ih (List.append_assoc _ _ _).symm
      exact ⟨mid, .item hne hlength hmid, hrest⟩

theorem unique (h : Listed g is names rest) (h' : Listed g is names rest') : rest = rest' := by
  induction h with
  | nil names =>
    cases h'
    rfl
  | null _ ih =>
    cases h' with
    | null h' => exact ih h'
    | item hne => exact absurd rfl hne
  | item hne _ _ ih =>
    cases h' with
    | null => exact absurd rfl hne
    | item _ _ h' => exact ih h'

theorem singleton_item {i : ℕ} {name : Str} (hne : name ≠ []) :
    Listed g [i] (name :: names) rest ↔
      (splitParts name).length = (g.nodes i).fields.length ∧
        Listed g ((g.nodes i).adjList.map Prod.snd) names rest := by
  constructor
  · intro h
    cases h with
    | null => exact absurd rfl hne
    | item _ hlength h =>
      rw [List.append_nil] at h
      exact ⟨hlength, h⟩
  · rintro ⟨hlength, h⟩
    refine .item hne hlength ?_
    rw [List.append_nil]
    exact h

end Listed

/-! ### Reading from a node -/

/-- The walk from a node on the top of the stack either reads a listing and is back below it, or
there is none and it fails, with the counters above the node as they were. -/
def Reading (g : Graph) (i : ℕ) : Prop :=
  ∀ names counter kwargs prefixes rest idx, (∀ j ≤ i, counter j = 0) →
    (∃ kwargs' idx', Listed g [i] (names.drop idx) (names.drop idx') ∧
      Leads (populateStep g names) ⟨counter, kwargs, prefixes, i :: rest, idx⟩
        ⟨counter, kwargs', prefixes.dropLast, rest, idx'⟩) ∨
    (∀ tail, ¬ Listed g [i] (names.drop idx) tail) ∧
      ∃ kwargs' counter', Returns (populateStep g names) ⟨counter, kwargs, prefixes, i :: rest, idx⟩
        (false, kwargs', counter') ∧ ∀ j, i < j → counter' j = counter j

/-- Below a node, whose own counter is then not 0 where the walk fails. -/
def ReadingBelow (g : Graph) (i : ℕ) (names : List Str) (counter : ℕ → ℕ) (prefixes : List String)
    (rest : List ℕ) (es : List (String × ℕ)) (idx : ℕ) (s : PopulateState) : Prop :=
  (∃ kwargs' idx', Listed g (es.map Prod.snd) (names.drop idx) (names.drop idx') ∧
    Leads (populateStep g names) s ⟨counter, kwargs', prefixes.dropLast, rest, idx'⟩) ∨
  (∀ tail, ¬ Listed g (es.map Prod.snd) (names.drop idx) tail) ∧
    ∃ kwargs' counter', Returns (populateStep g names) s (false, kwargs', counter') ∧
      counter' i ≠ 0 ∧ ∀ j, i < j → counter' j = counter j

/-- Back at a node, its counter is positive and the loop goes on with the next foreign key. -/
theorem populate_back {names : List Str} {s : PopulateState} {i : ℕ} {rest : List ℕ}
    (hs : s.stack = i :: rest) (hc : s.counter i ≠ 0) :
    populateStep g names s = .inl (s.advance g i rest) := by
  apply populateStep_eq hs
  rw [processTopNode, if_neg hc]

theorem reading_below {i : ℕ} (ih : ∀ j < i, Reading g j) (names : List Str) {counter : ℕ → ℕ}
    (hcounter : ∀ j ≤ i, counter j = 0) (prefixes : List String) (rest : List ℕ)
    (es : List (String × ℕ)) {c : ℕ} (hes : (g.nodes i).adjList.drop c = es) (idx : ℕ)
    (kwargs : List (Lookup × Str)) (stack : List ℕ) :
    ReadingBelow g i names counter prefixes rest es idx
      (PopulateState.advance g ⟨Function.update counter i c, kwargs, prefixes, stack, idx⟩ i rest) := by
  induction es generalizing c idx kwargs stack with
  | nil =>
    have hdone : (g.nodes i).adjList[c]? = none :=
      List.getElem?_eq_none (List.drop_eq_nil_iff.mp hes)
    refine .inl ⟨kwargs, idx, .nil _, ?_⟩
    rw [PopulateState.advance]
    simp only [Function.update_self, hdone, Function.update_idem]
    rw [Function.update_eq_self_iff.mpr (hcounter i le_rfl).symm]
    exact Leads.refl _
  | cons e es ih' =>
    obtain ⟨fk, j⟩ := e
    obtain ⟨hget, hdrop⟩ := getElem?_of_drop hes
    have hj : j < i := g.below (List.mem_of_getElem? hget)
    have hbelow : ∀ k ≤ j, Function.update counter i (c + 1) k = 0 := fun k hk => by
      rw [Function.update_of_ne (by omega)]
      exact hcounter k (by omega)
    have hpush : PopulateState.advance g ⟨Function.update counter i c, kwargs, prefixes, stack, idx⟩
        i rest = ⟨Function.update counter i (c + 1), kwargs, prefixes ++ [fk], j :: i :: rest, idx⟩ := by
      rw [PopulateState.advance]
      simp only [Function.update_self, hget, Function.update_idem]
    rw [hpush]
    rcases ih j hj names _ kwargs (prefixes ++ [fk]) (i :: rest) idx hbelow with
      ⟨kwargs₁, idx₁, hlisted, hleads⟩ | ⟨hnot, kwargs₁, counter₁, hfails, hcounter₁⟩
    · rw [List.dropLast_concat] at hleads
      have hback := hleads.trans (Leads.one (populate_back rfl (by simp)))
      rcases ih' hdrop idx₁ kwargs₁ (i :: rest) with
        ⟨kwargs₂, idx₂, hlisted₂, hleads₂⟩ | ⟨hnot₂, kwargs₂, counter₂, hfails₂, hcounter₂⟩
      · exact .inl ⟨kwargs₂, idx₂, hlisted.append hlisted₂, hback.trans hleads₂⟩
      · refine .inr ⟨fun tail h => ?_, kwargs₂, counter₂, hback.trans_returns hfails₂, hcounter₂⟩
        obtain ⟨mid, hmid, htail⟩ := h.split (rfl : _ = [j] ++ _)
        rw [hmid.unique hlisted] at htail
        exact hnot₂ tail htail
    · refine .inr ⟨fun tail h => ?_, kwargs₁, counter₁, hfails, ?_, fun k hk => ?_⟩
      · obtain ⟨mid, hmid, -⟩ := h.split (rfl : _ = [j] ++ _)
        exact hnot mid hmid
      · rw [hcounter₁ i hj, Function.update_self]
        exact Nat.succ_ne_zero c
      · rw [hcounter₁ k (hj.trans hk), Function.update_of_ne hk.ne']

/-- The walk fails at once where no item is left or the name is not one of the model. -/
theorem populate_fails {names : List Str} {s : PopulateState} {i : ℕ} {rest : List ℕ}
    (hs : s.stack = i :: rest) (hc : s.counter i = 0)
    (hfail : ∀ name ∈ names[s.idx]?, name ≠ [] ∧
      (splitParts name).length ≠ (g.nodes i).fields.length) :
    Returns (populateStep g names) s (false, s.kwargs, s.counter) := by
  refine (Leads.refl s).returns ?_
  rw [populateStep, hs]
  simp only [processTopNode, hc, if_true]
  cases hname : names[s.idx]? with
  | none => rfl
  | some name =>
    obtain ⟨hne, hlength⟩ := hfail name hname
    simp only [hne, if_false, ne_eq, hlength, not_false_eq_true, if_true]

/-- A name of the model is read, and the walk goes on below the node. -/
theorem populate_item (names : List Str) {s : PopulateState} {i : ℕ} {rest : List ℕ} {name : Str}
    (hs : s.stack = i :: rest) (hc : s.counter i = 0) (hname : names[s.idx]? = some name)
    (hne : name ≠ []) (hlength : (splitParts name).length = (g.nodes i).fields.length) :
    ∃ kwargs, populateStep g names s = .inl (PopulateState.advance g
      ⟨s.counter, kwargs, s.prefixes, s.stack, s.idx + 1⟩ i rest) := by
  refine ⟨s.kwargs ++ ((g.nodes i).fields.zip (splitParts name)).map fun e =>
    (s.prefixes ++ [e.1], unquote e.2), populateStep_eq hs ?_⟩
  rw [processTopNode, if_pos hc, hname]
  simp only [hne, if_false, ne_eq, hlength, not_true_eq_false]

/-- By induction on the node, since the nodes it leads to are below it. -/
theorem reading (i : ℕ) : Reading g i := by
  induction i using Nat.strong_induction_on with
  | _ i ih =>
    intro names counter kwargs prefixes rest idx hcounter
    have hc : counter i = 0 := hcounter i le_rfl
    have hfails : (∀ name ∈ names[idx]?, name ≠ [] ∧
        (splitParts name).length ≠ (g.nodes i).fields.length) → ∃ kwargs' counter',
        Returns (populateStep g names) ⟨counter, kwargs, prefixes, i :: rest, idx⟩
          (false, kwargs', counter') ∧ ∀ j, i < j → counter' j = counter j :=
      fun h => ⟨_, _, populate_fails rfl hc h, fun _ _ => rfl⟩
    cases hname : names[idx]? with
    | none =>
      have hdrop : names.drop idx = [] := List.drop_eq_nil_iff.mpr (List.getElem?_eq_none_iff.mp hname)
      refine .inr ⟨fun tail h => ?_, hfails (by simp [hname])⟩
      rw [hdrop] at h
      cases h
    | some name =>
      have hdrop : names.drop idx = name :: names.drop (idx + 1) := by
        obtain ⟨hlt, rfl⟩ := List.getElem?_eq_some_iff.mp hname
        exact List.drop_eq_getElem_cons hlt
      rw [hdrop]
      by_cases hne : name = []
      · subst hne
        exact .inl ⟨_, _, .null (.nil _), Leads.one (populate_null rfl hc hname)⟩
      by_cases hlength : (splitParts name).length = (g.nodes i).fields.length
      · obtain ⟨kwargs₁, hstep⟩ := populate_item (g := g) names
          (s := ⟨counter, kwargs, prefixes, i :: rest, idx⟩) rfl hc hname hne hlength
        have hbelow := reading_below ih names hcounter prefixes rest _ (c := 0) rfl (idx + 1)
          kwargs₁ (i :: rest)
        rw [Function.update_eq_self_iff.mpr hc.symm] at hbelow
        rcases hbelow with ⟨kwargs₂, idx₂, hlisted, hleads⟩ | ⟨hnot, kwargs₂, counter₂, hreturns, -, hkept⟩
        · exact .inl ⟨kwargs₂, idx₂, (Listed.singleton_item hne).mpr ⟨hlength, hlisted⟩,
            Leads.head hstep hleads⟩
        · refine .inr ⟨fun tail h => ?_, kwargs₂, counter₂, Leads.head_returns hstep hreturns, hkept⟩
          exact hnot tail ((Listed.singleton_item hne).mp h).2
      · refine .inr ⟨fun tail h => ?_, hfails ?_⟩
        · exact hlength ((Listed.singleton_item hne).mp h).1
        · intro name' hname'
          rw [hname] at hname'
          obtain rfl := Option.some.inj hname'
          exact ⟨hne, hlength⟩

/-! ### The format of a node -/

theorem format_children {i : ℕ} {counter : ℕ → ℕ} (hcounter : ∀ j ≤ i, counter j = 0)
    (ih : ∀ j < i, ∀ counter fkName rest components, (∀ k ≤ j, counter k = 0) →
      ∃ fkName' components', Leads (formatStep g) ⟨counter, fkName, j :: rest, components⟩
        ⟨counter, fkName', rest, components'⟩) (rest : List ℕ) (es : List (String × ℕ)) {c : ℕ}
    (hes : (g.nodes i).adjList.drop c = es) (fkName : String) (components : List String) :
    ∃ fkName' components', Leads (formatStep g)
      ⟨Function.update counter i c, fkName, i :: rest, components⟩
      ⟨counter, fkName', rest, components'⟩ := by
  induction es generalizing c fkName components with
  | nil =>
    have hdone : (g.nodes i).adjList[c]? = none :=
      List.getElem?_eq_none (List.drop_eq_nil_iff.mp hes)
    have hpop : formatStep g ⟨Function.update counter i c, fkName, i :: rest, components⟩ =
        .inl ⟨counter, fkName, rest,
          if c = 0 then components ++ [namedUrlComponent g fkName i] else components⟩ := by
      simp only [formatStep, Function.update_self, hdone, Function.update_idem]
      rw [Function.update_eq_self_iff.mpr (hcounter i le_rfl).symm]
    exact ⟨_, _, Leads.one hpop⟩
  | cons e es ih' =>
    obtain ⟨fk, j⟩ := e
    obtain ⟨hget, hdrop⟩ := getElem?_of_drop hes
    have hj : j < i := g.below (List.mem_of_getElem? hget)
    have hbelow : ∀ k ≤ j, Function.update counter i (c + 1) k = 0 := fun k hk => by
      rw [Function.update_of_ne (by omega)]
      exact hcounter k (by omega)
    have hpush : formatStep g ⟨Function.update counter i c, fkName, i :: rest, components⟩ =
        .inl ⟨Function.update counter i (c + 1), fk ++ ".", j :: i :: rest,
          if c = 0 then components ++ [namedUrlComponent g fkName i] else components⟩ := by
      simp only [formatStep, Function.update_self, hget, Function.update_idem]
    obtain ⟨fkName₁, components₁, hleads₁⟩ := ih j hj _ (fk ++ ".") (i :: rest)
      (if c = 0 then components ++ [namedUrlComponent g fkName i] else components) hbelow
    obtain ⟨fkName₂, components₂, hleads₂⟩ := ih' hdrop fkName₁ components₁
    exact ⟨fkName₂, components₂, Leads.head hpush (hleads₁.trans hleads₂)⟩

theorem format_walk (i : ℕ) : ∀ counter fkName rest components, (∀ j ≤ i, counter j = 0) →
    ∃ fkName' components', Leads (formatStep g) ⟨counter, fkName, i :: rest, components⟩
      ⟨counter, fkName', rest, components'⟩ := by
  induction i using Nat.strong_induction_on with
  | _ i ih =>
    intro counter fkName rest components hcounter
    have hwalk := format_children hcounter ih rest _ (c := 0) rfl fkName components
    rwa [Function.update_eq_self_iff.mpr (hcounter i le_rfl).symm] at hwalk

theorem namedUrlFormat_eq (g : Graph) (i : ℕ) : ∃ n text, ∀ fuel, n ≤ fuel →
    namedUrlFormat g fuel (fun _ => 0) i = some (text, fun _ => 0) := by
  obtain ⟨fkName, components, hleads⟩ := format_walk (g := g) i (fun _ => 0) "" [] [] fun _ _ => rfl
  obtain ⟨n, hn⟩ := (hleads.returns rfl).eventually
  exact ⟨n, _, hn⟩

/-! ### One call -/

/-- The end of the loop that reads: the stack is empty, or a name cannot be read. -/
theorem populate_spec (i : ℕ) {names : List Str} (hnames : names ≠ []) :
    ∃ r : Bool × List (Lookup × Str) × (ℕ → ℕ),
      Returns (populateStep g names) ⟨fun _ => 0, [], [], [i], 0⟩ r ∧
        ((∀ j, r.2.2 j = 0) ↔ Misfit g i names ∨ ∃ rest, Listed g [i] names rest) := by
  obtain ⟨name, names', rfl⟩ := List.exists_cons_of_ne_nil hnames
  by_cases hmisfit : Misfit g i (name :: names')
  · refine ⟨_, populate_fails rfl rfl ?_, iff_of_true (fun _ => rfl) (.inl hmisfit)⟩
    obtain ⟨first, hfirst, hne, hlength⟩ := hmisfit
    intro name' hname'
    obtain rfl : first = name' := (Option.some.inj hfirst).symm.trans (Option.some.inj hname')
    exact ⟨hne, hlength⟩
  rcases reading (g := g) i (name :: names') (fun _ => 0) [] [] [] 0 fun _ _ => rfl with
    ⟨kwargs, idx, hlisted, hleads⟩ | ⟨hnot, -⟩
  · exact ⟨_, hleads.returns rfl, iff_of_true (fun _ => rfl) (.inr ⟨_, hlisted⟩)⟩
  -- the first name is one of the model, so the walk fails below the node
  have hne : name ≠ [] := by
    rintro rfl
    exact hnot _ (.null (.nil _))
  have hlength : (splitParts name).length = (g.nodes i).fields.length := by
    by_contra h
    exact hmisfit ⟨name, rfl, hne, h⟩
  obtain ⟨kwargs₁, hstep⟩ := populate_item (g := g) (name :: names')
    (s := ⟨fun _ => 0, [], [], [i], 0⟩) rfl rfl rfl hne hlength
  have hbelow := reading_below (g := g) (i := i) (fun j _ => reading j) (name :: names')
    (fun _ _ => rfl) [] [] _ (c := 0) rfl 1 kwargs₁ [i]
  rw [Function.update_eq_self_iff.mpr rfl] at hbelow
  rcases hbelow with ⟨_, idx₂, hlisted, -⟩ | ⟨-, kwargs₂, counter₂, hreturns, hcounter, -⟩
  · exact absurd ((Listed.singleton_item hne).mpr ⟨hlength, hlisted⟩) (hnot _)
  · refine ⟨_, Leads.head_returns hstep hreturns, iff_of_false (fun h => hcounter (h i)) ?_⟩
    rintro (h | ⟨rest, h⟩)
    · exact hmisfit h
    · exact hnot rest h

theorem splitNames_ne_nil (s : Str) : splitNames s ≠ [] := by
  fun_cases splitNames s <;> simp_all

/-- From a graph at 0 every call ends, and the graph is at 0 again exactly if it finishes. -/
theorem Call.run_spec (u : UnicodeData) (call : Call) : ∃ n r, (∀ fuel, n ≤ fuel →
    call.run g u fuel (fun _ => 0) = some r) ∧ ((∀ j, r.2 j = 0) ↔ call.Finishes g u) := by
  cases call with
  | namedUrlFormat i =>
    obtain ⟨n, text, hn⟩ := namedUrlFormat_eq g i
    refine ⟨n, (.format text, fun _ => 0), fun fuel hf => ?_, iff_of_true (fun _ => rfl) trivial⟩
    rw [Call.run, hn fuel hf]
    rfl
  | generateNamedUrl db obj i row =>
    obtain ⟨n, hn⟩ : ∃ n, ∀ fuel, n ≤ fuel →
        NamedUrl.generateNamedUrl g db fuel (fun _ => 0) obj i row =
          some (joinNames ((objects g db i row).map itemText), fun _ => 0) :=
      generateNamedUrl_eq (fun _ => rfl) obj i row
    refine ⟨n, (.url (joinNames ((objects g db i row).map itemText)), fun _ => 0), fun fuel hf => ?_,
      iff_of_true (fun _ => rfl) trivial⟩
    rw [Call.run, hn fuel hf]
    rfl
  | populateNamedUrlQueryKwargs i namedUrl ignoreDigits =>
    have hread : (if ignoreDigits then isPrimaryKey u namedUrl else .ok false) = .ok false ↔
        ¬ (ignoreDigits = true ∧ isPrimaryKey u namedUrl ≠ .ok false) := by
      cases ignoreDigits <;> simp
    simp only [Call.run, NamedUrl.populateNamedUrlQueryKwargs, Call.Finishes]
    cases hkey : if ignoreDigits then isPrimaryKey u namedUrl else .ok false with
    | error e =>
      refine ⟨0, (.raised e, fun _ => 0), fun _ _ => rfl, iff_of_true (fun _ => rfl) (.inl ?_)⟩
      exact not_not.mp (mt hread.mpr (by simp [hkey]))
    | ok isKey =>
      cases isKey with
      | true =>
        refine ⟨0, (.query false [], fun _ => 0), fun _ _ => rfl, iff_of_true (fun _ => rfl) (.inl ?_)⟩
        exact not_not.mp (mt hread.mpr (by simp [hkey]))
      | false =>
        obtain ⟨r, hreturns, hclean⟩ :=
          populate_spec (g := g) i (splitNames_ne_nil (replaceEscaped namedUrl))
        obtain ⟨n, hn⟩ := hreturns.eventually
        refine ⟨n, (.query r.1 r.2.1, r.2.2), fun fuel hf => ?_, ?_⟩
        · rw [hn fuel hf]
          rfl
        · rw [hclean]
          exact (or_iff_right (hread.mp hkey)).symm

/-! ### All calls -/

theorem leftClean_nil (u : UnicodeData) : LeftClean g u [] := ⟨0, fun _ _ => ⟨[], rfl, .nil⟩⟩

theorem leftClean_cons {u : UnicodeData} {call : Call} {calls : List Call} :
    LeftClean g u (call :: calls) ↔ call.Finishes g u ∧ LeftClean g u calls := by
  obtain ⟨m, ⟨answer, counter⟩, hrun, hclean⟩ := call.run_spec (g := g) u
  constructor
  · rintro ⟨n, hn⟩
    have hsplit : ∀ fuel, max m n ≤ fuel → (∀ j, counter j = 0) ∧
        ∃ trace, runCalls g u fuel counter calls = some trace ∧
          List.Forall₂ (fun call r => (∀ j, r.2 j = 0) ∧
            (call.run g u fuel fun _ => 0).map Prod.fst = some r.1) calls trace := by
      intro fuel hf
      obtain ⟨trace, htrace, hall⟩ := hn fuel ((le_max_right m n).trans hf)
      rw [runCalls, hrun fuel ((le_max_left m n).trans hf), Option.bind_eq_bind, Option.bind_some] at htrace
      obtain ⟨tail, htail, htrace⟩ := Option.bind_eq_some_iff.mp htrace
      obtain rfl := Option.some.inj htrace
      cases hall with
      | cons hhead hall => exact ⟨hhead.1, tail, htail, hall⟩
    have hzero : counter = fun _ => 0 := funext (hsplit _ le_rfl).1
    refine ⟨hclean.mp (hsplit _ le_rfl).1, max m n, fun fuel hf => ?_⟩
    rw [← hzero]
    exact hzero ▸ (hsplit fuel hf).2
  · rintro ⟨hfinishes, n, hn⟩
    have hzero : counter = fun _ => 0 := funext (hclean.mpr hfinishes)
    subst hzero
    refine ⟨max m n, fun fuel hf => ?_⟩
    have hcall := hrun fuel ((le_max_left m n).trans hf)
    obtain ⟨trace, htrace, hall⟩ := hn fuel ((le_max_right m n).trans hf)
    refine ⟨(answer, fun _ => 0) :: trace, ?_, .cons ⟨fun _ => rfl, by rw [hcall]; rfl⟩ hall⟩
    rw [runCalls, hcall, Option.bind_eq_bind, Option.bind_some, htrace]
    rfl

/-- The graph is left clean by exactly those calls that all finish. -/
theorem leftClean_iff_finish (g : Graph) (u : UnicodeData) (calls : List Call) :
    LeftClean g u calls ↔ ∀ call ∈ calls, call.Finishes g u := by
  induction calls with
  | nil => exact iff_of_true (leftClean_nil u) (by simp)
  | cons call calls ih => rw [leftClean_cons, ih, List.forall_mem_cons]

def Answer.valid : Answer → Bool
  | .query valid _ => valid
  | _ => false

/-- After a name without its organization the URL of a template is no longer valid. -/
theorem unread_name_left :
    ¬ LeftClean templateGraph asciiData [.populateNamedUrlQueryKwargs 1 ['x'] true] ∧
    ((runCalls templateGraph asciiData 9 (fun _ => 0)
      [.populateNamedUrlQueryKwargs 1 ['a', '+', '+', 'b'] true,
        .populateNamedUrlQueryKwargs 1 ['x'] true,
        .populateNamedUrlQueryKwargs 1 ['a', '+', '+', 'b'] true]).map
      (List.map fun r => r.1.valid)) = some [true, false, false] := by
  refine ⟨?_, rfl⟩
  rintro ⟨n, hn⟩
  obtain ⟨trace, htrace, hall⟩ := hn (n + 9) (Nat.le_add_right n 9)
  have hcounter : (runCalls templateGraph asciiData (n + 9) (fun _ => 0)
      [.populateNamedUrlQueryKwargs 1 ['x'] true]).map (List.map fun r => r.2 1) = some [1] := rfl
  rw [htrace] at hcounter
  cases hall with
  | cons hhead hall =>
    cases hall
    have hzero := (List.cons.inj (Option.some.inj hcounter)).1
    exact absurd ((hhead.1 1).symm.trans hzero) (by decide)

end Forail.NamedUrl
