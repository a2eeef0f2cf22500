import Forail.Base.Percent
import Forail.Base.Runs
import Forail.Utils.NamedUrlText
import Mathlib.Logic.Function.Basic

/-! The graph of named URLs and its two stack machines. Both walk the tree of the objects
that an object refers to, with counters kept in the nodes of the graph; on an acyclic graph
they terminate, leave the counters at 0, and compute a recursion over that tree. -/

namespace Forail.NamedUrl

open Percent Loop

/-- A node: the key fields of its model, and its foreign keys with the nodes they lead to. -/
structure GraphNode where
  fields : List String
  adjList : List (String × ℕ)

/-- Nodes in the order of their creation, so that a node only leads to earlier ones; the
fields and foreign keys of a node are the members of one unique-together tuple. -/
structure Graph where
  nodes : ℕ → GraphNode
  below : ∀ {i : ℕ} {fk : String} {j : ℕ}, (fk, j) ∈ (nodes i).adjList → j < i
  fields_nodup : ∀ i, (nodes i).fields.Nodup
  fks_nodup : ∀ i, ((nodes i).adjList.map Prod.fst).Nodup

/-- A row of a table, with its texts and its foreign keys. -/
structure Row where
  pk : ℕ
  attr : String → Str
  fk : String → Option ℕ

/-- The rows of each model, in the order of its query sets and in the order of the creation
of their organizations. -/
structure Database where
  rows : ℕ → List Row
  rowsByOrganization : ℕ → List Row

/-- `getattr(obj, fk, None)`. -/
def Database.related (db : Database) (row : Row) (fk : String) (j : ℕ) : Option Row :=
  (row.fk fk).bind fun p => (db.rows j).find? fun r => r.pk = p

section Machines
variable (g : Graph) (db : Database)

/-! ### Generating -/

structure GenerateState where
  counter : ℕ → ℕ
  obj : ℕ → Option Row
  stack : List ℕ
  namedUrl : List Str

/-- The item of one object; a missing attribute is empty. -/
def namedUrlItem (i : ℕ) (obj : Option Row) : Str :=
  joinParts ((g.nodes i).fields.map fun field => encodeUri ((obj.map fun r => r.attr field).getD []))

/-- The body of the loop of `generate_named_url`. -/
def generateStep (s : GenerateState) : GenerateState ⊕ (Str × (ℕ → ℕ)) :=
  match s.stack with
  | [] => .inr (joinNames s.namedUrl, s.counter)
  | i :: rest =>
    let namedUrl := if s.counter i = 0 then s.namedUrl ++ [namedUrlItem g i (s.obj i)] else s.namedUrl
    match (g.nodes i).adjList[s.counter i]? with
    | none =>
      .inl ⟨Function.update s.counter i 0, Function.update s.obj i none, rest, namedUrl⟩
    | some (fk, j) =>
      let counter := Function.update s.counter i (s.counter i + 1)
      match (s.obj i).bind fun obj => db.related obj fk j with
      | some next => .inl ⟨counter, Function.update s.obj j (some next), j :: i :: rest, namedUrl⟩
      | none => .inl ⟨counter, s.obj, i :: rest, namedUrl ++ [[]]⟩

/-- The URL and the counters that the call leaves. -/
def generateNamedUrl (fuel : ℕ) (counter : ℕ → ℕ) (obj : ℕ → Option Row) (i : ℕ) (row : Row) :
    Option (Str × (ℕ → ℕ)) :=
  loop (generateStep g db) fuel ⟨counter, Function.update obj i (some row), [i], []⟩

/-! ### Reading -/

/-- A lookup is the path of a foreign key walk with the field at its end; the source joins
its components by `__`, which no name contains. -/
abbrev Lookup := List String

structure PopulateState where
  counter : ℕ → ℕ
  kwargs : List (Lookup × Str)
  prefixes : List String
  stack : List ℕ
  idx : ℕ

/-- The second half of `_process_top_node`: pop the node, or push its next neighbour. -/
def PopulateState.advance (s : PopulateState) (i : ℕ) (rest : List ℕ) : PopulateState :=
  match (g.nodes i).adjList[s.counter i]? with
  | none =>
    { s with
      counter := Function.update s.counter i 0
      stack := rest
      prefixes := s.prefixes.dropLast }
  | some (fk, j) =>
    { s with
      counter := Function.update s.counter i (s.counter i + 1)
      prefixes := s.prefixes ++ [fk]
      stack := j :: i :: rest }

/-- `_process_top_node` for the stack `i :: rest`. -/
def processTopNode (names : List Str) (s : PopulateState) (i : ℕ) (rest : List ℕ) :
    PopulateState × Bool :=
  if s.counter i = 0 then
    match names[s.idx]? with
    | none => (s, false)
    | some name =>
      if name = [] then
        ({ s with
          counter := Function.update s.counter i 0
          stack := rest
          prefixes := s.prefixes.dropLast
          idx := s.idx + 1 }, true)
      else
        let parts := splitParts name
        if parts.length ≠ (g.nodes i).fields.length then (s, false)
        else
          (PopulateState.advance g { s with
            kwargs := s.kwargs ++ ((g.nodes i).fields.zip parts).map fun e =>
              (s.prefixes ++ [e.1], unquote e.2)
            idx := s.idx + 1 } i rest, true)
  else (s.advance g i rest, true)

/-- The loop of `populate_named_url_query_kwargs`: its answer, `kwargs` and the counters. -/
def populateStep (names : List Str) (s : PopulateState) :
    PopulateState ⊕ (Bool × List (Lookup × Str) × (ℕ → ℕ)) :=
  match s.stack with
  | [] => .inr (s.idx == names.length, s.kwargs, s.counter)
  | i :: rest =>
    match processTopNode g names s i rest with
    | (s', true) => .inl s'
    | (s', false) => .inr (false, s'.kwargs, s'.counter)

/-- The names that are only digits and positive are primary keys; `int` may fail on digits. -/
def isPrimaryKey (u : UnicodeData) (namedUrl : Str) : Except String Bool :=
  if u.isdigit namedUrl then
    match u.int namedUrl with
    | none => .error "ValueError"
    | some n => .ok (decide (0 < n))
  else .ok false

def populateNamedUrlQueryKwargs (u : UnicodeData) (fuel : ℕ) (counter : ℕ → ℕ) (i : ℕ)
    (namedUrl : Str) (ignoreDigits : Bool) :
    Option (Except String (Bool × List (Lookup × Str) × (ℕ → ℕ))) :=
  match if ignoreDigits then isPrimaryKey u namedUrl else .ok false with
  | .error e => some (.error e)
  | .ok true => some (.ok (false, [], counter))
  | .ok false =>
    (loop (populateStep g (splitNames (replaceEscaped namedUrl))) fuel
      ⟨counter, [], [], [i], 0⟩).map .ok

/-! ### The tree of an object -/

/-- The key values of the object and of the objects it refers to; none for a null. -/
def objects (i : ℕ) (row : Row) : List (List Str) :=
  (g.nodes i).fields.map row.attr :: (g.nodes i).adjList.flatMap fun e =>
    match db.related row e.1 e.2 with
    | none => [[]]
    | some next => objects e.2 next
termination_by i
decreasing_by exact g.below ‹_›

/-- The lookups of the object, below a path of foreign keys, with their values. -/
def lookups (path : List String) (i : ℕ) (row : Row) : List (Lookup × Str) :=
  ((g.nodes i).fields.map fun f => (path ++ [f], row.attr f)) ++
    (g.nodes i).adjList.flatMap fun e =>
      match db.related row e.1 e.2 with
      | none => []
      | some next => lookups (path ++ [e.1]) e.2 next
termination_by i
decreasing_by exact g.below ‹_›

end Machines

section Walk
variable {g : Graph} {db : Database}

/-- The objects below one foreign key. -/
def objectsBelow (g : Graph) (db : Database) (row : Row) (e : String × ℕ) : List (List Str) :=
  match db.related row e.1 e.2 with
  | none => [[]]
  | some next => objects g db e.2 next

def lookupsBelow (g : Graph) (db : Database) (path : List String) (row : Row) (e : String × ℕ) :
    List (Lookup × Str) :=
  match db.related row e.1 e.2 with
  | none => []
  | some next => lookups g db (path ++ [e.1]) e.2 next

theorem objects_eq (i : ℕ) (row : Row) : objects g db i row =
    (g.nodes i).fields.map row.attr :: (g.nodes i).adjList.flatMap (objectsBelow g db row) := by
  rw [objects]
  rfl

theorem lookups_eq (path : List String) (i : ℕ) (row : Row) : lookups g db path i row =
    ((g.nodes i).fields.map fun f => (path ++ [f], row.attr f)) ++
      (g.nodes i).adjList.flatMap (lookupsBelow g db path row) := by
  rw [lookups]
  rfl

theorem getElem?_of_drop {α : Type*} {l es : List α} {c : ℕ} {e : α} (h : l.drop c = e :: es) :
    l[c]? = some e ∧ l.drop (c + 1) = es := by
  constructor
  · rw [← List.head?_drop, h]
    rfl
  · rw [← List.drop_drop, h]
    rfl

/-! ### The first machine walks the tree -/

/-- The item of an object as text. -/
def itemText (values : List Str) : Str := joinParts (values.map encodeUri)

theorem namedUrlItem_some (i : ℕ) (row : Row) :
    namedUrlItem g i (some row) = itemText ((g.nodes i).fields.map row.attr) := by
  simp [namedUrlItem, itemText, Function.comp_def]

theorem itemText_nil : itemText [] = [] := by simp [itemText, joinParts]

/-- A node on the top of the stack is popped in the end, with all that is below it named,
and nothing above it touched. -/
def GenerateWalk (g : Graph) (db : Database) (i : ℕ) (row : Row) : Prop :=
  ∀ counter obj rest namedUrl, (∀ j ≤ i, counter j = 0) → obj i = some row →
    ∃ obj', Leads (generateStep g db) ⟨counter, obj, i :: rest, namedUrl⟩
      ⟨counter, obj', rest, namedUrl ++ (objects g db i row).map itemText⟩ ∧
      ∀ j, i < j → obj' j = obj j

/-- The rest of the walk from the node `i` when `c` of its foreign keys are done. -/
theorem generate_children {i : ℕ} {row : Row} (ih : ∀ j < i, ∀ row, GenerateWalk g db j row)
    {counter : ℕ → ℕ} (hcounter : ∀ j ≤ i, counter j = 0) (rest : List ℕ)
    (es : List (String × ℕ)) {c : ℕ} (hes : (g.nodes i).adjList.drop c = es)
    {obj : ℕ → Option Row} (hobj : obj i = some row) (namedUrl : List Str) :
    ∃ obj', Leads (generateStep g db) ⟨Function.update counter i c, obj, i :: rest, namedUrl⟩
      ⟨counter, obj', rest, (if c = 0 then namedUrl ++ [namedUrlItem g i (some row)] else namedUrl) ++
        (es.flatMap (objectsBelow g db row)).map itemText⟩ ∧
      ∀ j, i < j → obj' j = obj j := by
  induction es generalizing c obj namedUrl with
  | nil =>
    have hdone : (g.nodes i).adjList[c]? = none :=
      List.getElem?_eq_none (List.drop_eq_nil_iff.mp hes)
    refine ⟨Function.update obj i none, Leads.one ?_, fun j hj => Function.update_of_ne hj.ne' _ _⟩
    simp only [generateStep, Function.update_self, hdone, hobj, Function.update_idem,
      List.flatMap_nil, List.map_nil, List.append_nil]
    rw [Function.update_eq_self_iff.mpr (hcounter i le_rfl).symm]
  | cons e es ih' =>
    obtain ⟨fk, j⟩ := e
    obtain ⟨hget, hdrop⟩ := getElem?_of_drop hes
    have hj : j < i := g.below (List.mem_of_getElem? hget)
    have hbelow : ∀ k ≤ j, Function.update counter i (c + 1) k = 0 := fun k hk => by
      rw [Function.update_of_ne (by omega)]
      exact hcounter k (by omega)
    cases hnext : db.related row fk j with
    | none =>
      have hbelow : objectsBelow g db row (fk, j) = [[]] := by rw [objectsBelow, hnext]
      obtain ⟨obj', hleads, hobj'⟩ := ih' hdrop hobj
        ((if c = 0 then namedUrl ++ [namedUrlItem g i (some row)] else namedUrl) ++ [[]])
      rw [if_neg (Nat.succ_ne_zero c), List.append_assoc] at hleads
      rw [List.flatMap_cons, hbelow, List.map_append, List.map_singleton, itemText_nil]
      refine ⟨obj', Leads.head ?_ hleads, hobj'⟩
      simp only [generateStep, Function.update_self, hget, hobj, Option.bind_some, hnext,
        Function.update_idem]
    | some next =>
      have hobjects : objectsBelow g db row (fk, j) = objects g db j next := by
        rw [objectsBelow, hnext]
      obtain ⟨obj₁, hleads₁, hobj₁⟩ := ih j hj next _ (Function.update obj j (some next)) (i :: rest)
        (if c = 0 then namedUrl ++ [namedUrlItem g i (some row)] else namedUrl) hbelow
        (Function.update_self _ _ _)
      have hkept : obj₁ i = some row := by
        rw [hobj₁ i hj, Function.update_of_ne hj.ne', hobj]
      obtain ⟨obj', hleads, hobj'⟩ := ih' hdrop hkept _
      rw [if_neg (Nat.succ_ne_zero c), List.append_assoc] at hleads
      rw [List.flatMap_cons, hobjects, List.map_append]
      refine ⟨obj', Leads.head ?_ (hleads₁.trans hleads), fun k hk => ?_⟩
      · simp only [generateStep, Function.update_self, hget, hobj, Option.bind_some, hnext,
          Function.update_idem]
      · rw [hobj' k hk, hobj₁ k (hj.trans hk), Function.update_of_ne (by omega)]

theorem generate_walk (i : ℕ) (row : Row) : GenerateWalk g db i row := by
  induction i using Nat.strong_induction_on generalizing row with
  | _ i ih =>
    intro counter obj rest namedUrl hcounter hobj
    obtain ⟨obj', hleads, hobj'⟩ := generate_children ih hcounter rest _ (c := 0) rfl hobj namedUrl
    rw [if_pos rfl, namedUrlItem_some, List.append_assoc] at hleads
    rw [Function.update_eq_self_iff.mpr (hcounter i le_rfl).symm] at hleads
    rw [objects_eq, List.map_cons]
    exact ⟨obj', hleads, hobj'⟩

/-- With enough fuel the URL is that of the tree, and the counters are at 0 again. -/
theorem generateNamedUrl_eq {counter : ℕ → ℕ} (hcounter : ∀ j, counter j = 0)
    (obj : ℕ → Option Row) (i : ℕ) (row : Row) : ∃ n, ∀ fuel, n ≤ fuel →
      generateNamedUrl g db fuel counter obj i row =
        some (joinNames ((objects g db i row).map itemText), counter) := by
  have hwalk : GenerateWalk g db i row := generate_walk i row
  obtain ⟨obj', hleads, -⟩ := hwalk counter (Function.update obj i (some row)) [] []
    (fun j _ => hcounter j) (Function.update_self _ _ _)
  exact (hleads.returns rfl).eventually

/-! ### The second machine walks the same tree -/

/-- The objects that an object refers to, directly or not, and itself. -/
inductive Reached (g : Graph) (db : Database) : ℕ → Row → ℕ → Row → Prop
  | refl (i : ℕ) (row : Row) : Reached g db i row i row
  | head {i j k : ℕ} {row next r : Row} {fk : String} : (fk, j) ∈ (g.nodes i).adjList →
      db.related row fk j = some next → Reached g db j next k r → Reached g db i row k r

/-- The model has key fields, and they hold texts that can be read back. -/
def Legible (g : Graph) (i : ℕ) (row : Row) : Prop :=
  (g.nodes i).fields ≠ [] ∧ ∀ f ∈ (g.nodes i).fields, row.attr f ≠ [] ∧ NoEscape (row.attr f)

/-- The item of an object as it is found after the replacement of `[+]`. -/
def readText (values : List Str) : Str := joinParts (values.map (quoteBy quoted))

theorem readText_nil : readText [] = [] := by simp [readText, joinParts]

/-- A node on the top of the stack is popped in the end, and the names of its objects are
turned into their lookups. -/
def PopulateWalk (g : Graph) (db : Database) (i : ℕ) (row : Row) : Prop :=
  ∀ names counter kwargs prefixes rest idx tail, (∀ j ≤ i, counter j = 0) →
    names.drop idx = (objects g db i row).map readText ++ tail →
    Leads (populateStep g names) ⟨counter, kwargs, prefixes, i :: rest, idx⟩
      ⟨counter, kwargs ++ lookups g db prefixes i row, prefixes.dropLast, rest,
        idx + (objects g db i row).length⟩

theorem populateStep_eq {names : List Str} {s s' : PopulateState} {i : ℕ} {rest : List ℕ}
    (hs : s.stack = i :: rest) (h : processTopNode g names s i rest = (s', true)) :
    populateStep g names s = .inl s' := by
  rw [populateStep, hs]
  simp only [h]

/-- The node of a null foreign key is popped at once. -/
theorem populate_null {names : List Str} {s : PopulateState} {j : ℕ} {rest : List ℕ}
    (hs : s.stack = j :: rest) (hc : s.counter j = 0) (hn : names[s.idx]? = some []) :
    populateStep g names s = .inl { s with
      stack := rest
      prefixes := s.prefixes.dropLast
      idx := s.idx + 1 } := by
  apply populateStep_eq hs
  rw [processTopNode, if_pos hc, hn]
  simp only [if_true]
  rw [Function.update_eq_self_iff.mpr hc.symm]

/-- The rest of the walk from the node `i` when `c` of its foreign keys are done. -/
theorem populate_children {i : ℕ} {row : Row}
    (ih : ∀ j next fk, (fk, j) ∈ (g.nodes i).adjList → db.related row fk j = some next →
      PopulateWalk g db j next) {names : List Str} {counter : ℕ → ℕ}
    (hcounter : ∀ j ≤ i, counter j = 0) (prefixes : List String) (rest : List ℕ)
    (es : List (String × ℕ)) {c : ℕ} (hes : (g.nodes i).adjList.drop c = es) {idx : ℕ}
    {tail : List Str}
    (hnames : names.drop idx = (es.flatMap (objectsBelow g db row)).map readText ++ tail)
    (kwargs : List (Lookup × Str)) (stack : List ℕ) :
    Leads (populateStep g names)
      (PopulateState.advance g ⟨Function.update counter i c, kwargs, prefixes, stack, idx⟩ i rest)
      ⟨counter, kwargs ++ es.flatMap (lookupsBelow g db prefixes row), prefixes.dropLast, rest,
        idx + (es.flatMap (objectsBelow g db row)).length⟩ := by
  induction es generalizing c idx kwargs stack with
  | nil =>
    have hdone : (g.nodes i).adjList[c]? = none :=
      List.getElem?_eq_none (List.drop_eq_nil_iff.mp hes)
    rw [PopulateState.advance]
    simp only [Function.update_self, hdone, Function.update_idem, List.flatMap_nil, List.append_nil,
      List.length_nil, Nat.add_zero]
    rw [Function.update_eq_self_iff.mpr (hcounter i le_rfl).symm]
    exact Leads.refl _
  | cons e es ih' =>
    obtain ⟨fk, j⟩ := e
    obtain ⟨hget, hdrop⟩ := getElem?_of_drop hes
    have hmem := List.mem_of_getElem? hget
    have hj : j < i := g.below hmem
    have hbelow : ∀ k ≤ j, Function.update counter i (c + 1) k = 0 := fun k hk => by
      rw [Function.update_of_ne (by omega)]
      exact hcounter k (by omega)
    have hpush : PopulateState.advance g ⟨Function.update counter i c, kwargs, prefixes, stack, idx⟩
        i rest = ⟨Function.update counter i (c + 1), kwargs, prefixes ++ [fk], j :: i :: rest, idx⟩ := by
      rw [PopulateState.advance]
      simp only [Function.update_self, hget, Function.update_idem]
    -- back at the node, its counter is positive and the loop goes on with the next foreign key
    have hback : ∀ kwargs idx, populateStep g names
        ⟨Function.update counter i (c + 1), kwargs, prefixes, i :: rest, idx⟩ =
        .inl (PopulateState.advance g
          ⟨Function.update counter i (c + 1), kwargs, prefixes, i :: rest, idx⟩ i rest) := by
      intro kwargs idx
      apply populateStep_eq rfl
      rw [processTopNode, if_neg (by simp)]
    rw [hpush]
    cases hnext : db.related row fk j with
    | none =>
      have hobj : objectsBelow g db row (fk, j) = [[]] := by rw [objectsBelow, hnext]
      have hlook : lookupsBelow g db prefixes row (fk, j) = [] := by rw [lookupsBelow, hnext]
      rw [List.flatMap_cons, hobj, List.map_append, List.map_singleton, readText_nil] at hnames
      obtain ⟨hname, hnames⟩ := getElem?_of_drop hnames
      rw [List.flatMap_cons, List.flatMap_cons, hobj, hlook, List.nil_append, List.length_append,
        ← Nat.add_assoc]
      apply Leads.head (populate_null rfl (hbelow j le_rfl) hname)
      simp only [List.dropLast_concat]
      exact Leads.head (hback _ _) (ih' hdrop hnames _ _)
    | some next =>
      have hobj : objectsBelow g db row (fk, j) = objects g db j next := by rw [objectsBelow, hnext]
      have hlook : lookupsBelow g db prefixes row (fk, j) = lookups g db (prefixes ++ [fk]) j next := by
        rw [lookupsBelow, hnext]
      rw [List.flatMap_cons, hobj, List.map_append, List.append_assoc] at hnames
      have hwalk := ih j next fk hmem hnext names _ kwargs (prefixes ++ [fk]) (i :: rest) idx _
        hbelow hnames
      have hrest : names.drop (idx + (objects g db j next).length) =
          (es.flatMap (objectsBelow g db row)).map readText ++ tail := by
        rw [← List.drop_drop, hnames]
        exact List.drop_left' (by rw [List.length_map])
      rw [List.flatMap_cons, List.flatMap_cons, hobj, hlook, List.length_append, ← Nat.add_assoc,
        ← List.append_assoc]
      rw [List.dropLast_concat] at hwalk
      exact hwalk.trans (Leads.head (hback _ _) (ih' hdrop hrest _ _))

/-- The name of an object is turned into the lookups of its own fields. -/
theorem processTopNode_item {names : List Str} {s : PopulateState} {i : ℕ} {row : Row}
    {rest : List ℕ} (hl : Legible g i row) (hc : s.counter i = 0)
    (hn : names[s.idx]? = some (readText ((g.nodes i).fields.map row.attr))) :
    processTopNode g names s i rest = (PopulateState.advance g { s with
      kwargs := s.kwargs ++ (g.nodes i).fields.map fun f => (s.prefixes ++ [f], row.attr f)
      idx := s.idx + 1 } i rest, true) := by
  obtain ⟨hfields, hlegible⟩ := hl
  have hne : (g.nodes i).fields.map row.attr ≠ [] := by simpa using hfields
  have hvalues : ∀ v ∈ (g.nodes i).fields.map row.attr, v ≠ [] := fun v hv => by
    obtain ⟨f, hf, rfl⟩ := List.mem_map.mp hv
    exact (hlegible f hf).1
  have hname : readText ((g.nodes i).fields.map row.attr) ≠ [] := joinParts_ne_nil hne hvalues
  have hparts : splitParts (readText ((g.nodes i).fields.map row.attr)) =
      ((g.nodes i).fields.map row.attr).map (quoteBy quoted) := splitParts_joinParts hne hvalues
  have hzip : ((g.nodes i).fields.zip (((g.nodes i).fields.map row.attr).map (quoteBy quoted))).map
      (fun e => (s.prefixes ++ [e.1], unquote e.2)) =
      (g.nodes i).fields.map fun f => (s.prefixes ++ [f], row.attr f) := by
    have hdiag := List.zip_map' (f := id) (g := quoteBy quoted ∘ row.attr) (l := (g.nodes i).fields)
    rw [List.map_id] at hdiag
    rw [List.map_map, hdiag, List.map_map]
    apply List.map_congr_left
    intro f hf
    exact congrArg (Prod.mk _) (unquote_quoted (hlegible f hf).2)
  rw [processTopNode, if_pos hc, hn]
  dsimp only
  rw [if_neg hname, hparts, if_neg (by simp), hzip]

theorem populate_walk (i : ℕ) (row : Row)
    (hl : ∀ j r, Reached g db i row j r → Legible g j r) : PopulateWalk g db i row := by
  induction i using Nat.strong_induction_on generalizing row with
  | _ i ih =>
    intro names counter kwargs prefixes rest idx tail hcounter hnames
    have hchildren : ∀ j next fk, (fk, j) ∈ (g.nodes i).adjList → db.related row fk j = some next →
        PopulateWalk g db j next := fun j next fk hm hnext =>
      ih j (g.below hm) next fun k r hr => hl k r (.head hm hnext hr)
    rw [objects_eq, List.map_cons, List.cons_append] at hnames
    obtain ⟨hname, hnames⟩ := getElem?_of_drop hnames
    have hstep : populateStep g names ⟨counter, kwargs, prefixes, i :: rest, idx⟩ = _ :=
      populateStep_eq rfl
        (processTopNode_item (hl i row (.refl i row)) (hcounter i le_rfl) hname)
    have hloop := populate_children hchildren hcounter prefixes rest _ (c := 0) rfl hnames
      (kwargs ++ (g.nodes i).fields.map fun f => (prefixes ++ [f], row.attr f)) (i :: rest)
    rw [Function.update_eq_self_iff.mpr (hcounter i le_rfl).symm] at hloop
    rw [objects_eq, lookups_eq, List.length_cons, ← List.append_assoc,
      Nat.add_comm _ 1, ← Nat.add_assoc]
    exact Leads.head hstep hloop

/-- On the text of an object the second machine accepts, with the lookups of the object, and
the counters are at 0 again. -/
theorem populate_url {counter : ℕ → ℕ} (hcounter : ∀ j, counter j = 0) {i : ℕ} {row : Row}
    (hl : ∀ j r, Reached g db i row j r → Legible g j r) :
    Returns (populateStep g ((objects g db i row).map readText)) ⟨counter, [], [], [i], 0⟩
      (true, lookups g db [] i row, counter) := by
  have hwalk := populate_walk i row hl ((objects g db i row).map readText) counter [] [] [] 0 []
    (fun j _ => hcounter j) (by rw [List.drop_zero, List.append_nil])
  refine hwalk.returns ?_
  rw [populateStep]
  simp

/-- Every value of a legible tree is a text that can be read back. -/
theorem objects_ne_nil {i : ℕ} {row : Row}
    (hl : ∀ j r, Reached g db i row j r → Legible g j r) :
    ∀ values ∈ objects g db i row, ∀ v ∈ values, v ≠ [] := by
  induction i using Nat.strong_induction_on generalizing row with
  | _ i ih =>
    intro values hv v hm
    rw [objects_eq] at hv
    rcases List.mem_cons.mp hv with rfl | hv
    · obtain ⟨f, hf, rfl⟩ := List.mem_map.mp hm
      exact ((hl i row (.refl i row)).2 f hf).1
    · obtain ⟨⟨fk, j⟩, he, hv⟩ := List.mem_flatMap.mp hv
      rw [objectsBelow] at hv
      cases hnext : db.related row fk j with
      | none =>
        rw [hnext] at hv
        rw [List.mem_singleton.mp hv] at hm
        cases hm
      | some next =>
        rw [hnext] at hv
        exact ih j (g.below he) (fun k r hr => hl k r (.head he hnext hr)) values hv v hm

end Walk

end Forail.NamedUrl
