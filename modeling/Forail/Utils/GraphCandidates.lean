import Forail.Base.Dict
import Forail.Base.Runs
import Mathlib.Data.List.Sort
import Mathlib.Data.Finset.Card
import Mathlib.Logic.Hydra
import Mathlib.Tactic.Abel

/-! From which nodes the graph of named URLs is chosen. Each model has the unique-together tuples of its class and its
base classes; those that consist of foreign keys, choices and a name are its candidates, and a generator yields one
choice of candidates for all models after the other. -/

namespace Forail.NamedUrl

open Loop Relation

inductive Stop
  | fuel
  | fieldDoesNotExist
  | keyError
  | indexError
  deriving DecidableEq

/-! ### Candidates -/

inductive Field (Model : Type)
  | foreignKey (relatedModel : Model)
  | charField (choices : Bool)
  | other

inductive UniqueTogether
  | flat (fields : List String)
  | nested (tuples : List (List String))

/-- The metadata of the models. -/
structure Meta (Model : Type) where
  getField : Model → String → Option (Field Model)
  /-- `get_field('name').unique`, and not where that raises. -/
  nameUnique : Model → Bool
  uniqueTogether : Model → UniqueTogether
  softUniqueTogether : Model → List (List String)
  bases : Model → List Model
  /-- A model class with a tuple `unique_together`. -/
  isParent : Model → Bool
  isContentType : Model → Bool

section Candidates
variable {Model : Type} [DecidableEq Model] (info : Meta Model)

def uniqueTogethers (model : Model) : List (List String) :=
  (match info.uniqueTogether model with
    | .flat [] => []
    | .flat uts => [uts]
    | .nested uts => uts) ++ info.softUniqueTogether model

/-- The body of the loop of `_get_all_unique_togethers`. -/
def uniqueTogethersStep (s : List Model × List (List String)) :
    (List Model × List (List String)) ⊕ List (List String) :=
  match s.1 with
  | [] => .inr s.2
  | model :: queue =>
    .inl (queue ++ (info.bases model).filter info.isParent, s.2 ++ uniqueTogethers info model)

def getAllUniqueTogethers (fuel : ℕ) (model : Model) : Option (List (List String)) :=
  (loop (uniqueTogethersStep info) fuel ([model], if info.nameUnique model then [["name"]] else [])).map
    fun ret => ret.insertionSort fun ut ut' => ut.length ≤ ut'.length

/-- The loop of `_check_unique_together_fields`, until a field is not valid. -/
def sortFields (model : Model) : List String → Option String → List String → List String →
    Except Stop (Option (Option String × List String × List String))
  | [], nameField, fkNames, fields => .ok (some (nameField, fkNames, fields))
  | fieldName :: ut, nameField, fkNames, fields =>
    match info.getField model fieldName with
    | none => .error .fieldDoesNotExist
    | some field =>
      if fieldName = "name" ∨ fieldName = "identifier" then sortFields model ut (some fieldName) fkNames fields
      else match field with
        | .foreignKey relatedModel =>
          if relatedModel ≠ model then sortFields model ut nameField (fkNames ++ [fieldName]) fields else .ok none
        | .charField true => sortFields model ut nameField fkNames (fields ++ [fieldName])
        | .charField false => .ok none
        | .other => .ok none

/-- The foreign keys and the fields of a tuple, if it is valid. -/
def checkUniqueTogetherFields (model : Model) (ut : List String) :
    Except Stop (Option (List String × List String)) :=
  (sortFields info model ut none [] []).map fun sorted => sorted.map fun (nameField, fkNames, fields) =>
    (fkNames.insertionSort (· ≤ ·),
      ((fields.insertionSort fun a b => b ≤ a) ++ nameField.toList).reverse)

/-- A base whose unique-together tuples are taken over. -/
def Inherits (model parent : Model) : Prop := parent ∈ (info.bases model).filter info.isParent

/-- A tuple of fields that makes an object of the model unique. -/
def IsTuple (model : Model) (ut : List String) : Prop :=
  (info.nameUnique model = true ∧ ut = ["name"]) ∨
    ∃ parent, ReflTransGen (Inherits info) model parent ∧ ut ∈ uniqueTogethers info parent

variable {info}

omit [DecidableEq Model] in
/-- The queue is worked off, whatever it holds: each class in it is replaced by its bases. -/
theorem returns_uniqueTogethers (hbases : WellFounded fun parent model => Inherits info model parent)
    (queue : Multiset Model) : ∀ (l : List Model) (ret : List (List String)), ↑l = queue →
      ∃ ret', Returns (uniqueTogethersStep info) (l, ret) ret' ∧ ∀ ut, ut ∈ ret' ↔ ut ∈ ret ∨
        ∃ model ∈ l, ∃ parent, ReflTransGen (Inherits info) model parent ∧ ut ∈ uniqueTogethers info parent := by
  induction queue using hbases.cutExpand.induction with
  | h queue ih =>
    rintro l ret rfl
    cases l with
    | nil => exact ⟨ret, (Leads.refl _).returns rfl, by simp⟩
    | cons model l =>
      have hcut : CutExpand (fun parent model => Inherits info model parent)
          ↑(l ++ (info.bases model).filter info.isParent) ↑(model :: l) := by
        refine ⟨↑((info.bases model).filter info.isParent), model, fun parent hparent => hparent, ?_⟩
        rw [← Multiset.coe_add, ← Multiset.cons_coe, ← Multiset.singleton_add]
        abel
      obtain ⟨ret', hreturns, hmem⟩ := ih _ hcut _ (ret ++ uniqueTogethers info model) rfl
      refine ⟨ret', Leads.head_returns rfl hreturns, fun ut => ?_⟩
      rw [hmem, List.mem_append]
      constructor
      · rintro ((hret | hown) | ⟨m, hm, parent, hparent, hut⟩)
        · exact .inl hret
        · exact .inr ⟨model, List.mem_cons_self, model, .refl, hown⟩
        · rcases List.mem_append.mp hm with hm | hm
          · exact .inr ⟨m, List.mem_cons_of_mem _ hm, parent, hparent, hut⟩
          · exact .inr ⟨model, List.mem_cons_self, parent, .head hm hparent, hut⟩
      · rintro (hret | ⟨m, hm, parent, hparent, hut⟩)
        · exact .inl (.inl hret)
        · rcases List.mem_cons.mp hm with rfl | hm
          · rcases hparent.cases_head with rfl | ⟨c, hc, hparent⟩
            · exact .inl (.inr hut)
            · exact .inr ⟨c, List.mem_append_right _ hc, parent, hparent, hut⟩
          · exact .inr ⟨m, List.mem_append_left _ hm, parent, hparent, hut⟩

omit [DecidableEq Model] in
theorem getAllUniqueTogethers_spec (hbases : WellFounded fun parent model => Inherits info model parent) (model : Model) :
    ∃ uts, (∃ n, ∀ fuel, n ≤ fuel → getAllUniqueTogethers info fuel model = some uts) ∧
      ∀ ut, ut ∈ uts ↔ IsTuple info model ut := by
  obtain ⟨ret, hreturns, hmem⟩ := returns_uniqueTogethers hbases _ [model]
    (if info.nameUnique model then [["name"]] else []) rfl
  obtain ⟨n, hn⟩ := hreturns.eventually
  refine ⟨ret.insertionSort fun ut ut' => ut.length ≤ ut'.length, ⟨n, fun fuel hfuel => ?_⟩, fun ut => ?_⟩
  · rw [getAllUniqueTogethers, hn fuel hfuel]
    rfl
  · rw [List.mem_insertionSort, hmem, IsTuple]
    refine or_congr ?_ (by simp)
    cases info.nameUnique model <;> simp

/-- What a valid tuple is sorted into. -/
structure Sorted (info : Meta Model) (model : Model) (ut fkNames fields : List String) : Prop where
  fkNames_sublist : fkNames.Sublist ut
  fields_sublist : fields.Sublist ut
  foreignKey : ∀ fk ∈ fkNames, ∃ next, info.getField model fk = some (.foreignKey next)
  plain : ∀ field ∈ fields, field ≠ "name" ∧ field ≠ "identifier"

theorem sortFields_spec {model : Model} {ut : List String} :
    (∀ field ∈ ut, (info.getField model field).isSome = true) → ∀ nameField fkNames fields,
      ∃ sorted, sortFields info model ut nameField fkNames fields = .ok sorted ∧
        ∀ name fks fs, sorted = some (name, fks, fs) → ∃ fks' fs', fks = fkNames ++ fks' ∧ fs = fields ++ fs' ∧
          Sorted info model ut fks' fs' ∧ (name = nameField ∨ name = some "name" ∨ name = some "identifier") := by
  induction ut with
  | nil =>
    intro _ nameField fkNames fields
    refine ⟨_, rfl, fun name fks fs h => ?_⟩
    cases h
    exact ⟨[], [], by simp, by simp, ⟨.refl _, .refl _, by simp, by simp⟩, .inl rfl⟩
  | cons fieldName ut ih =>
    intro hfields nameField fkNames fields
    obtain ⟨field, hfield⟩ := Option.isSome_iff_exists.mp (hfields fieldName List.mem_cons_self)
    have ih := ih fun f hf => hfields f (List.mem_cons_of_mem _ hf)
    rw [sortFields, hfield]
    dsimp only
    split_ifs with hname
    · obtain ⟨sorted, hok, hsorted⟩ := ih (some fieldName) fkNames fields
      refine ⟨sorted, hok, fun name fks fs h => ?_⟩
      obtain ⟨fks', fs', hfks, hfs, hs, hlast⟩ := hsorted name fks fs h
      refine ⟨fks', fs', hfks, hfs, ⟨hs.fkNames_sublist.cons _, hs.fields_sublist.cons _, hs.foreignKey, hs.plain⟩, .inr ?_⟩
      rcases hlast with rfl | hlast
      · exact hname.imp (congrArg some) (congrArg some)
      · exact hlast
    · rw [not_or] at hname
      cases field with
      | foreignKey relatedModel =>
        dsimp only
        split_ifs
        · obtain ⟨sorted, hok, hsorted⟩ := ih nameField (fkNames ++ [fieldName]) fields
          refine ⟨sorted, hok, fun name fks fs h => ?_⟩
          obtain ⟨fks', fs', hfks, hfs, hs, hlast⟩ := hsorted name fks fs h
          refine ⟨fieldName :: fks', fs', by rw [hfks, List.append_assoc]; rfl, hfs, ⟨hs.fkNames_sublist.cons_cons _,
            hs.fields_sublist.cons _, fun fk hfk => ?_, hs.plain⟩, hlast⟩
          rcases List.mem_cons.mp hfk with rfl | hfk
          · exact ⟨relatedModel, hfield⟩
          · exact hs.foreignKey fk hfk
        · exact ⟨none, rfl, fun _ _ _ h => by cases h⟩
      | charField withChoices =>
        cases withChoices with
        | true =>
          obtain ⟨sorted, hok, hsorted⟩ := ih nameField fkNames (fields ++ [fieldName])
          refine ⟨sorted, hok, fun name fks fs h => ?_⟩
          obtain ⟨fks', fs', hfks, hfs, hs, hlast⟩ := hsorted name fks fs h
          refine ⟨fks', fieldName :: fs', hfks, by rw [hfs, List.append_assoc]; rfl, ⟨hs.fkNames_sublist.cons _,
            hs.fields_sublist.cons_cons _, hs.foreignKey, fun f hf => ?_⟩, hlast⟩
          rcases List.mem_cons.mp hf with rfl | hf
          · exact hname
          · exact hs.plain f hf
        | false => exact ⟨none, rfl, fun _ _ _ h => by cases h⟩
      | other => exact ⟨none, rfl, fun _ _ _ h => by cases h⟩

/-- The foreign keys of a valid tuple are foreign keys, and no name comes twice if it does not in the tuple. -/
theorem checkUniqueTogetherFields_spec {model : Model} {ut : List String}
    (hfields : ∀ field ∈ ut, (info.getField model field).isSome = true) :
    ∃ checked, checkUniqueTogetherFields info model ut = .ok checked ∧ ∀ fkNames fields,
      checked = some (fkNames, fields) →
        (∀ fk ∈ fkNames, ∃ next, info.getField model fk = some (.foreignKey next)) ∧
        (ut.Nodup → fkNames.Nodup ∧ fields.Nodup) := by
  obtain ⟨sorted, hok, hsorted⟩ := sortFields_spec hfields none [] []
  rw [checkUniqueTogetherFields, hok]
  refine ⟨_, rfl, fun fkNames fields h => ?_⟩
  obtain ⟨⟨name, fks, fs⟩, rfl, heq⟩ := Option.map_eq_some_iff.mp h
  obtain ⟨fks', fs', rfl, rfl, hs, hname⟩ := hsorted name fks fs rfl
  cases heq
  refine ⟨fun fk hfk => hs.foreignKey fk ((List.mem_insertionSort _).mp hfk), fun hut => ⟨?_, ?_⟩⟩
  · exact (List.perm_insertionSort _ _).nodup_iff.mpr (hs.fkNames_sublist.nodup hut)
  · rw [List.nodup_reverse]
    refine List.nodup_append.mpr ⟨(List.perm_insertionSort _ _).nodup_iff.mpr (hs.fields_sublist.nodup hut), ?_, ?_⟩
    · cases name <;> simp
    · rintro f hf g hg rfl
      obtain ⟨hne, hne'⟩ := hs.plain f ((List.mem_insertionSort _).mp hf)
      rcases hname with rfl | rfl | rfl
      · cases hg
      · exact hne (List.mem_singleton.mp hg)
      · exact hne' (List.mem_singleton.mp hg)

end Candidates

/-! ### Configurations -/

section Configurations
variable {κ α : Type} [DecidableEq κ]

/-- `d.pop(k)`. -/
def pop (d : Dict κ α) (k : κ) : Option (Dict κ α) :=
  if k ∈ d.keys then some (d.erase k) else none

structure Choosing (κ α : Type) where
  idx : ℕ
  stack : List (List α)
  idxStack : List ℕ
  configuration : Dict κ α
  yielded : List (Dict κ α)

/-- The body of the loop of `_generate_configurations`. -/
def configurationsStep (nodes : List (κ × List α)) (s : Choosing κ α) :
    Choosing κ α ⊕ (List (Dict κ α) × Option Stop) :=
  match s.stack, s.idxStack, nodes[s.idx]? with
  | values :: stack, i :: idxStack, some (model, _) =>
    match values[i]? with
    | none =>
      match pop s.configuration model with
      | none => .inr (s.yielded, some .keyError)
      | some configuration =>
        .inl { s with idx := s.idx - 1, stack := stack, idxStack := idxStack, configuration := configuration }
    | some value =>
      match if s.configuration.entries.length = stack.length + 1 then pop s.configuration model
          else some s.configuration with
      | none => .inr (s.yielded, some .keyError)
      | some configuration =>
        let configuration := configuration.set model value
        if s.idx + 1 = nodes.length then
          .inl { s with
            idxStack := (i + 1) :: idxStack
            configuration := configuration
            yielded := s.yielded ++ [configuration] }
        else match nodes[s.idx + 1]? with
          | none => .inr (s.yielded, some .indexError)
          | some (_, next) =>
            .inl { s with
              idx := s.idx + 1
              stack := next :: values :: stack
              idxStack := 0 :: (i + 1) :: idxStack
              configuration := configuration }
  | _ :: _, _ :: _, none => .inr (s.yielded, some .indexError)
  | _, _, _ => .inr (s.yielded, none)

/-- The configurations that are yielded, and the error that ends them, if one does. -/
def generateConfigurations (nodes : List (κ × List α)) (fuel : ℕ) : Option (List (Dict κ α) × Option Stop) :=
  match nodes with
  | [] => some ([], none)
  | (_, values) :: _ => loop (configurationsStep nodes) fuel ⟨0, [values], [0], .empty, []⟩

/-- One value for each node, in lexicographic order. -/
def choices : List (κ × List α) → List (List (κ × α))
  | [] => [[]]
  | (model, values) :: nodes => values.flatMap fun value => (choices nodes).map ((model, value) :: ·)

omit [DecidableEq κ] in
theorem eq_of_entries {d e : Dict κ α} (h : d.entries = e.entries) : d = e := by
  obtain ⟨l, hl⟩ := d
  obtain ⟨l', hl'⟩ := e
  obtain rfl : l = l' := h
  rfl

variable {p q : Dict κ α} {model : κ}

theorem entries_set (h : model ∉ p.keys) (value : α) : (p.set model value).entries = p.entries ++ [(model, value)] :=
  Dict.setEntries_of_not_mem h

theorem pop_last {value : α} (h : q.entries = p.entries ++ [(model, value)]) : pop q model = some p := by
  have hkeys : q.keys = p.keys ++ [model] := by
    rw [Dict.keys, h, List.map_append]
    rfl
  have hnodup : (p.keys ++ [model]).Nodup := hkeys ▸ q.nodup
  have hnot : model ∉ p.keys := fun hmem => (List.nodup_append.mp hnodup).2.2 model hmem model List.mem_cons_self rfl
  rw [pop, if_pos (by rw [hkeys]; simp), Option.some.injEq]
  apply eq_of_entries
  change q.entries.filter _ = _
  rw [h, List.filter_append, List.filter_cons_of_neg (by simp), List.filter_nil, List.append_nil, List.filter_eq_self]
  intro e he
  exact decide_eq_true fun heq => hnot (heq ▸ List.mem_map_of_mem he)

/-- The value that is there before a node gets its next one: that of its last choice, or none yet. -/
def Before (p : Dict κ α) (model : κ) (q : Dict κ α) : Prop :=
  q = p ∨ ∃ value, q.entries = p.entries ++ [(model, value)]

theorem pop_before (h : Before p model q) :
    (if q.entries.length = p.entries.length + 1 then pop q model else some q) = some p := by
  obtain rfl | ⟨value, hvalue⟩ := h
  · rw [if_neg (by omega)]
  · rw [if_pos (by rw [hvalue]; simp), pop_last hvalue]

variable {nodes front behind : List (κ × List α)} {values : List α} {stack : List (List α)} {idxStack : List ℕ}

/-- The values of one node, where each of them is combined with the choices behind it. -/
theorem leads_values (hnodes : nodes[front.length]? = some (model, values))
    (hdeep : ∀ i value q yielded, values[i]? = some value → Before p model q →
      ∃ l, l.map Dict.entries = (choices behind).map (fun e => p.entries ++ (model, value) :: e) ∧
        Leads (configurationsStep nodes) ⟨front.length, values :: stack, i :: idxStack, q, yielded⟩
          ⟨front.length, values :: stack, (i + 1) :: idxStack, p.set model value, yielded ++ l⟩)
    (hmodel : model ∉ p.keys) (todo : List α) :
    ∀ (i : ℕ) (q : Dict κ α) (yielded : List (Dict κ α)), values.drop i = todo → Before p model q →
      (todo = [] → q ≠ p) →
      ∃ l, l.map Dict.entries = todo.flatMap (fun value => (choices behind).map fun e => p.entries ++ (model, value) :: e) ∧
        Leads (configurationsStep nodes) ⟨front.length, values :: stack, i :: idxStack, q, yielded⟩
          ⟨front.length - 1, stack, idxStack, p, yielded ++ l⟩ := by
  induction todo with
  | nil =>
    intro i q yielded htodo hbefore hne
    obtain ⟨value, hvalue⟩ := hbefore.resolve_left (hne rfl)
    have hend : values[i]? = none := List.getElem?_eq_none (List.drop_eq_nil_iff.mp htodo)
    refine ⟨[], rfl, .one ?_⟩
    simp only [configurationsStep, hnodes, hend, pop_last hvalue, List.append_nil]
  | cons value todo ih =>
    intro i q yielded htodo hbefore _
    have hi : i < values.length := by
      by_contra hi
      rw [List.drop_eq_nil_of_le (Nat.not_lt.mp hi)] at htodo
      cases htodo
    rw [List.drop_eq_getElem_cons hi] at htodo
    obtain ⟨hvalue, htodo⟩ := List.cons.inj htodo
    have hget : values[i]? = some value := by rw [List.getElem?_eq_getElem hi, hvalue]
    obtain ⟨l, hl, hleads⟩ := hdeep i value q yielded hget hbefore
    have hset := entries_set hmodel value
    obtain ⟨l', hl', hleads'⟩ := ih (i + 1) (p.set model value) (yielded ++ l) htodo (.inr ⟨value, hset⟩) fun _ heq => by
      have hlength := congrArg (fun d => d.entries.length) heq
      simp [hset] at hlength
    refine ⟨l ++ l', ?_, ?_⟩
    · rw [List.map_append, hl, hl', List.flatMap_cons]
    · rw [← List.append_assoc]
      exact hleads.trans hleads'

/-- The next value of a node: a value at the last node completes a configuration, before another one it leads on. -/
theorem step_value (hnodes : nodes[front.length]? = some (model, values)) (hp : p.entries.length = front.length)
    (hstack : stack.length = front.length) {i : ℕ} {value : α} (hvalue : values[i]? = some value)
    (hbefore : Before p model q) (yielded : List (Dict κ α)) :
    (front.length + 1 = nodes.length → configurationsStep nodes ⟨front.length, values :: stack, i :: idxStack, q, yielded⟩ =
      .inl ⟨front.length, values :: stack, (i + 1) :: idxStack, p.set model value, yielded ++ [p.set model value]⟩) ∧
    ∀ e, nodes[front.length + 1]? = some e →
      configurationsStep nodes ⟨front.length, values :: stack, i :: idxStack, q, yielded⟩ =
        .inl ⟨front.length + 1, e.2 :: values :: stack, 0 :: (i + 1) :: idxStack, p.set model value, yielded⟩ := by
  have hpop := pop_before hbefore
  rw [hp, ← hstack] at hpop
  constructor
  · intro hlast
    simp only [configurationsStep, hnodes, hvalue, hpop, if_pos hlast]
  · intro e he
    have hlast : front.length + 1 ≠ nodes.length := fun hlast => by
      rw [List.getElem?_eq_none (Nat.le_of_eq hlast.symm)] at he
      cases he
    simp only [configurationsStep, hnodes, hvalue, hpop, if_neg hlast, he]

omit [DecidableEq κ] in
theorem map_choices (p : List (κ × α)) :
    (choices ((model, values) :: behind)).map (p ++ ·) =
      values.flatMap fun value => (choices behind).map fun e => p ++ (model, value) :: e := by
  simp only [choices, List.map_flatMap, List.map_map, Function.comp_def]

omit [DecidableEq κ] in
theorem not_mem_front (hnodup : (nodes.map Prod.fst).Nodup) (hnodes : nodes = front ++ (model, values) :: behind)
    (hp : p.keys = front.map Prod.fst) : model ∉ p.keys := by
  rw [hnodes, List.map_append, List.map_cons] at hnodup
  exact fun hmem => (List.nodup_append.mp hnodup).2.2 model (hp ▸ hmem) model List.mem_cons_self rfl

/-- One node with all that comes behind it: each of its values is combined with each choice behind it, and then the
stack is as it was found. -/
theorem leads_node (hnodup : (nodes.map Prod.fst).Nodup) (hvalues : ∀ e ∈ nodes, e.2 ≠ []) (behind : List (κ × List α)) :
    ∀ (front : List (κ × List α)) (values : List α) (stack : List (List α)) (idxStack : List ℕ) (model : κ) (p : Dict κ α)
      (yielded : List (Dict κ α)), nodes = front ++ (model, values) :: behind → p.keys = front.map Prod.fst →
      stack.length = front.length →
      ∃ l, l.map Dict.entries = (choices ((model, values) :: behind)).map (p.entries ++ ·) ∧
        Leads (configurationsStep nodes) ⟨front.length, values :: stack, 0 :: idxStack, p, yielded⟩
          ⟨front.length - 1, stack, idxStack, p, yielded ++ l⟩ := by
  induction behind with
  | nil =>
    intro front values stack idxStack model p yielded hnodes hp hstack
    have hget : nodes[front.length]? = some (model, values) := by rw [hnodes]; simp
    have hmodel := not_mem_front hnodup hnodes hp
    have hlength : p.entries.length = front.length := by simpa [Dict.keys] using congrArg List.length hp
    rw [map_choices]
    refine leads_values hget (fun i value q yielded hvalue hbefore => ?_) hmodel values 0 p yielded rfl (.inl rfl) ?_
    · refine ⟨[p.set model value], ?_, .one ?_⟩
      · rw [List.map_singleton, entries_set hmodel]
        rfl
      · exact (step_value hget hlength hstack hvalue hbefore yielded).1 (by rw [hnodes]; simp)
    · exact fun hnil => absurd hnil (hvalues _ (List.mem_of_getElem? hget))
  | cons e behind ih =>
    intro front values stack idxStack model p yielded hnodes hp hstack
    have hget : nodes[front.length]? = some (model, values) := by rw [hnodes]; simp
    have hmodel := not_mem_front hnodup hnodes hp
    have hlength : p.entries.length = front.length := by simpa [Dict.keys] using congrArg List.length hp
    rw [map_choices]
    refine leads_values hget (fun i value q yielded hvalue hbefore => ?_) hmodel values 0 p yielded rfl (.inl rfl) ?_
    · have hnext : nodes[front.length + 1]? = some e := by rw [hnodes]; simp
      have hset := entries_set hmodel value
      have hkeys : (p.set model value).keys = (front ++ [(model, values)]).map Prod.fst := by
        rw [Dict.keys, hset, List.map_append, List.map_append, ← hp]
        rfl
      obtain ⟨l, hl, hleads⟩ := ih (front ++ [(model, values)]) e.2 (values :: stack) ((i + 1) :: idxStack) e.1
        (p.set model value) yielded (by rw [hnodes, List.append_assoc]; rfl) hkeys (by simp [hstack])
      rw [List.length_append, List.length_singleton] at hleads
      refine ⟨l, ?_, .head ((step_value hget hlength hstack hvalue hbefore yielded).2 e hnext) hleads⟩
      rw [hl, hset]
      exact List.map_congr_left fun e' _ => List.append_assoc ..
    · exact fun hnil => absurd hnil (hvalues _ (List.mem_of_getElem? hget))

omit [DecidableEq κ] in
theorem mem_choices {e : List (κ × α)} :
    e ∈ choices nodes ↔ List.Forall₂ (fun entry node => entry.1 = node.1 ∧ entry.2 ∈ node.2) e nodes := by
  induction nodes generalizing e with
  | nil => simp [choices]
  | cons node nodes ih =>
    rw [choices, List.mem_flatMap, List.forall₂_cons_right_iff]
    constructor
    · rintro ⟨value, hvalue, he⟩
      obtain ⟨e', he', rfl⟩ := List.mem_map.mp he
      exact ⟨_, e', ⟨rfl, hvalue⟩, ih.mp he', rfl⟩
    · rintro ⟨entry, e', ⟨hkey, hvalue⟩, he', rfl⟩
      refine ⟨entry.2, hvalue, List.mem_map.mpr ⟨e', ih.mpr he', ?_⟩⟩
      rw [← hkey]

omit [DecidableEq κ] in
theorem keys_of_mem_choices {e : List (κ × α)} (h : e ∈ choices nodes) : e.map Prod.fst = nodes.map Prod.fst := by
  induction mem_choices.mp h with
  | nil => rfl
  | cons hentry hrest ih => rw [List.map_cons, List.map_cons, hentry.1, ih (mem_choices.mpr hrest)]

omit [DecidableEq κ] in
theorem exists_of_mem_choices {e : List (κ × α)} (h : e ∈ choices nodes) {entry : κ × α} (hmem : entry ∈ e) :
    ∃ node ∈ nodes, entry.1 = node.1 ∧ entry.2 ∈ node.2 := by
  induction mem_choices.mp h with
  | nil => cases hmem
  | cons hentry hrest ih =>
    rcases List.mem_cons.mp hmem with rfl | hmem
    · exact ⟨_, List.mem_cons_self, hentry⟩
    · obtain ⟨node, hnode, h⟩ := ih (mem_choices.mpr hrest) hmem
      exact ⟨node, List.mem_cons_of_mem _ hnode, h⟩

omit [DecidableEq κ] in
theorem choices_ne_nil (h : ∀ node ∈ nodes, node.2 ≠ []) : choices nodes ≠ [] := by
  induction nodes with
  | nil => exact List.cons_ne_nil _ _
  | cons node nodes ih =>
    obtain ⟨value, hvalue⟩ := List.exists_mem_of_ne_nil _ (h node List.mem_cons_self)
    obtain ⟨e, he⟩ := List.exists_mem_of_ne_nil _ (ih fun node' hnode' => h node' (List.mem_cons_of_mem _ hnode'))
    exact List.ne_nil_of_mem (List.mem_flatMap.mpr ⟨value, hvalue, List.mem_map_of_mem he⟩)

omit [DecidableEq κ] in
theorem nodup_choices (h : ∀ node ∈ nodes, node.2.Nodup) : (choices nodes).Nodup := by
  induction nodes with
  | nil => exact List.nodup_singleton _
  | cons node nodes ih =>
    have hnodes := ih fun node' hnode' => h node' (List.mem_cons_of_mem _ hnode')
    rw [choices, List.nodup_flatMap]
    refine ⟨fun value _ => hnodes.map fun e e' heq => (List.cons.inj heq).2, ?_⟩
    refine (h node List.mem_cons_self).imp fun hne => ?_
    intro e he he'
    obtain ⟨x, -, rfl⟩ := List.mem_map.mp he
    obtain ⟨y, -, heq⟩ := List.mem_map.mp he'
    exact hne (congrArg Prod.snd (List.cons.inj heq).1).symm

/-- Exactly the choices of one value for each node are yielded, as dictionaries in the order of the nodes; they come in
lexicographic order, each once if no node has a value twice, and no error is raised. -/
theorem generateConfigurations_spec {nodes : List (κ × List α)} (hnodup : (nodes.map Prod.fst).Nodup)
    (hvalues : ∀ e ∈ nodes, e.2 ≠ []) (hnodes : nodes ≠ []) : ∃ configurations,
      configurations.map Dict.entries = choices nodes ∧
      (∀ configuration, configuration ∈ configurations ↔
        List.Forall₂ (fun entry node => entry.1 = node.1 ∧ entry.2 ∈ node.2) configuration.entries nodes) ∧
      ((∀ node ∈ nodes, node.2.Nodup) → configurations.Nodup) ∧
      ∃ n, ∀ fuel, n ≤ fuel → generateConfigurations nodes fuel = some (configurations, none) := by
  cases nodes with
  | nil => exact absurd rfl hnodes
  | cons e nodes =>
    obtain ⟨l, hl, hleads⟩ := leads_node hnodup hvalues nodes [] e.2 [] [] e.1 .empty [] rfl rfl rfl
    have hentries : l.map Dict.entries = choices (e :: nodes) := hl.trans (List.map_id _)
    refine ⟨l, hentries, fun c => ?_, fun h => ?_, (hleads.returns (r := (l, none)) rfl).eventually⟩
    · rw [← mem_choices, ← hentries, List.mem_map]
      constructor
      · exact fun hc => ⟨c, hc, rfl⟩
      · rintro ⟨c', hc', heq⟩
        exact eq_of_entries heq ▸ hc'
    · exact .of_map Dict.entries (hentries ▸ nodup_choices h)

/-- Two models with two values and one, of which the last changes first. -/
theorem generateConfigurations_two : ∃ configurations : List (Dict ℕ String),
    configurations.map Dict.entries = choices [(0, ["a", "b"]), (1, ["c"])] ∧
    (∀ configuration, configuration ∈ configurations ↔
      List.Forall₂ (fun entry node => entry.1 = node.1 ∧ entry.2 ∈ node.2) configuration.entries
        [(0, ["a", "b"]), (1, ["c"])]) ∧
    ((∀ node ∈ [(0, ["a", "b"]), (1, ["c"])], node.2.Nodup) → configurations.Nodup) ∧
    ∃ n, ∀ fuel, n ≤ fuel → generateConfigurations [(0, ["a", "b"]), (1, ["c"])] fuel = some (configurations, none) :=
  generateConfigurations_spec (by decide) (by decide) (by decide)

end Configurations

end Forail.NamedUrl
