import Forail.Utils.GraphCandidates
import Forail.Utils.NamedUrlGraph

/-! How the graph of named URLs comes about. One configuration after the other is searched depth first, which keeps the
models whose foreign keys all end within the graph; the first configuration with a largest graph is taken. -/

namespace Forail.NamedUrl

open Relation

/-! ### One graph -/

/-- The fields and the foreign keys of each model. -/
abbrev Configuration (Model : Type) := Dict Model (List String × List String)

/-- A node names the nodes of its foreign keys by their models. -/
structure Node (Model : Type) where
  fields : List String
  adjList : List (String × Model)

structure Search (Model : Type) where
  graph : Dict Model (Node Model)
  newDeadends : Finset Model
  parents : Finset Model

section Search
variable {Model : Type} [DecidableEq Model] (info : Meta Model) (configuration : Configuration Model)
  (deadEnds : Finset Model)

def Meta.relatedModel (model : Model) (fk : String) : Option Model :=
  match info.getField model fk with
  | some (.foreignKey relatedModel) => some relatedModel
  | _ => none

/-- The loop of `_dfs` over the foreign keys of a model: its list of neighbours, or none for a dead end. -/
def visitFks (dfs : Model → Search Model → Except Stop (Bool × Search Model)) (model : Model) :
    List String → List (String × Model) → Search Model → Except Stop (Option (List (String × Model)) × Search Model)
  | [], adjList, s => .ok (some adjList, s)
  | fk :: fkNames, adjList, s =>
    match info.relatedModel model fk with
    | none => .error .fieldDoesNotExist
    | some next =>
      if info.isContentType next then visitFks dfs model fkNames adjList s
      else if next ∉ configuration.keys ∨ next ∈ deadEnds ∨ next ∈ s.newDeadends ∨ next ∈ s.parents then
        .ok (none, s)
      else match if next ∈ s.graph.keys then .ok (true, s) else dfs next s with
        | .error e => .error e
        | .ok (false, s) => .ok (none, s)
        | .ok (true, s) =>
          if next ∈ s.graph.keys then visitFks dfs model fkNames (adjList ++ [(fk, next)]) s else .error .keyError

def dfs : ℕ → Model → Search Model → Except Stop (Bool × Search Model)
  | 0, _, _ => .error .fuel
  | fuel + 1, model, s =>
    match configuration.get? model with
    | none => .error .keyError
    | some (fields, fkNames) =>
      match visitFks info configuration deadEnds (dfs fuel) model fkNames []
          { s with parents := insert model s.parents } with
      | .error e => .error e
      | .ok (none, s) =>
        .ok (false, { s with newDeadends := insert model s.newDeadends, parents := s.parents.erase model })
      | .ok (some adjList, s) =>
        .ok (true, { s with graph := s.graph.set model ⟨fields, adjList⟩, parents := s.parents.erase model })

/-- The loop of `_generate_single_graph`. -/
def searchAll (fuel : ℕ) : List Model → Search Model → Except Stop (Search Model)
  | [], s => .ok s
  | model :: models, s =>
    if model ∉ s.graph.keys ∧ model ∉ s.newDeadends then
      match dfs info configuration deadEnds fuel model { s with parents := ∅ } with
      | .error e => .error e
      | .ok (_, s) => searchAll fuel models s
    else searchAll fuel models s

def generateSingleGraph (fuel : ℕ) : Except Stop (Dict Model (Node Model)) :=
  (searchAll info configuration deadEnds fuel configuration.keys ⟨.empty, ∅, ∅⟩).map Search.graph

/-! ### What a search finds -/

/-- A foreign key that the graph has to follow. -/
def Follows (model next : Model) : Prop :=
  ∃ fields fkNames fk, configuration.get? model = some (fields, fkNames) ∧ fk ∈ fkNames ∧
    info.relatedModel model fk = some next ∧ info.isContentType next = false

/-- All paths along foreign keys end, at models of the configuration. -/
inductive Grounded : Model → Prop
  | intro {model : Model} : model ∈ configuration.keys → (∀ next, Follows info configuration model next → next ∉ deadEnds) →
    (∀ next, Follows info configuration model next → Grounded next) → Grounded model

/-- The neighbours by the foreign keys of a model. -/
def neighbours (model : Model) (fkNames : List String) : List (String × Model) :=
  fkNames.filterMap fun fk => (info.relatedModel model fk).bind fun next =>
    if info.isContentType next then none else some (fk, next)

/-- Each node comes behind those it leads to. -/
def Ordered (entries : List (Model × Node Model)) : Prop :=
  ∀ front e behind, entries = front ++ e :: behind → ∀ fk next, (fk, next) ∈ e.2.adjList → next ∈ front.map Prod.fst

/-- What a search has found out is right, and the nodes it has made are in order. -/
structure Inv (s : Search Model) : Prop where
  grounded : ∀ model ∈ s.graph.keys, Grounded info configuration deadEnds model
  node : ∀ model node, s.graph.get? model = some node → ∃ fields fkNames,
    configuration.get? model = some (fields, fkNames) ∧ node = ⟨fields, neighbours info model fkNames⟩
  ordered : Ordered s.graph.entries
  dead : ∀ model ∈ s.newDeadends, ¬Grounded info configuration deadEnds model
  apart : ∀ model ∈ s.parents, model ∉ s.graph.keys
  known : ∀ model ∈ s.parents, model ∈ configuration.keys

/-- A search only adds. -/
structure Search.Grows (s s' : Search Model) : Prop where
  parents : s'.parents = s.parents
  graph : ∀ model ∈ s.graph.keys, model ∈ s'.graph.keys
  newDeadends : ∀ model ∈ s.newDeadends, model ∈ s'.newDeadends

variable {info configuration deadEnds} {model next : Model} {s s' s'' : Search Model}

omit [DecidableEq Model] in
theorem Search.Grows.refl (s : Search Model) : s.Grows s := ⟨rfl, fun _ h => h, fun _ h => h⟩

omit [DecidableEq Model] in
theorem Search.Grows.trans (h : s.Grows s') (h' : s'.Grows s'') : s.Grows s'' :=
  ⟨h'.parents.trans h.parents, fun m hm => h'.graph m (h.graph m hm), fun m hm => h'.newDeadends m (h.newDeadends m hm)⟩

theorem Grounded.follows (h : Grounded info configuration deadEnds model) (hnext : Follows info configuration model next) :
    next ∉ deadEnds ∧ Grounded info configuration deadEnds next := by
  cases h with
  | intro _ hdead hgrounded => exact ⟨hdead next hnext, hgrounded next hnext⟩

theorem Grounded.mem_keys (h : Grounded info configuration deadEnds model) : model ∈ configuration.keys := by
  cases h with
  | intro hmem _ _ => exact hmem

theorem Grounded.acyclic (h : Grounded info configuration deadEnds model) :
    ¬TransGen (Follows info configuration) model model := by
  induction h with
  | intro _ _ _ ih =>
    intro hloop
    obtain ⟨next, hnext, hback⟩ := TransGen.head'_iff.mp hloop
    exact ih next hnext (TransGen.tail' hback hnext)

omit [DecidableEq Model] in
theorem neighbours_cons {fk : String} {fkNames : List String} (hnext : info.relatedModel model fk = some next) :
    neighbours info model (fk :: fkNames) =
      (if info.isContentType next then [] else [(fk, next)]) ++ neighbours info model fkNames := by
  rw [neighbours, List.filterMap_cons, hnext, Option.bind_some]
  split_ifs <;> rfl

omit [DecidableEq Model] in
theorem mem_neighbours {fk : String} {fkNames : List String} : (fk, next) ∈ neighbours info model fkNames ↔
    fk ∈ fkNames ∧ info.relatedModel model fk = some next ∧ info.isContentType next = false := by
  simp only [neighbours, List.mem_filterMap, Option.bind_eq_some_iff]
  constructor
  · rintro ⟨fk', hfk', next', hnext', hif⟩
    split_ifs at hif with htype
    cases hif
    exact ⟨hfk', hnext', Bool.eq_false_iff.mpr htype⟩
  · rintro ⟨hfk, hnext, htype⟩
    exact ⟨fk, hfk, next, hnext, by rw [htype]; rfl⟩

omit [DecidableEq Model] in
theorem sublist_neighbours {fkNames : List String} : ((neighbours info model fkNames).map Prod.fst).Sublist fkNames := by
  induction fkNames with
  | nil => exact .refl _
  | cons fk fkNames ih =>
    cases hnext : info.relatedModel model fk with
    | none =>
      rw [neighbours, List.filterMap_cons_none (by rw [hnext, Option.bind_none])]
      exact ih.cons _
    | some next =>
      rw [neighbours_cons hnext]
      split_ifs
      · exact ih.cons _
      · exact ih.cons_cons _

omit [DecidableEq Model] in
/-- A node is added behind those it leads to. -/
theorem Ordered.concat {entries : List (Model × Node Model)} (h : Ordered entries) {e : Model × Node Model}
    (he : ∀ fk next, (fk, next) ∈ e.2.adjList → next ∈ entries.map Prod.fst) : Ordered (entries ++ [e]) := by
  intro front e' behind heq fk next hnext
  rcases List.eq_nil_or_concat behind with rfl | ⟨behind, last, rfl⟩
  · obtain ⟨rfl, hlast⟩ := List.append_inj' heq rfl
    cases hlast
    exact he fk next hnext
  · have hsplit : entries ++ [e] = (front ++ e' :: behind) ++ [last] := by rw [heq]; simp
    obtain ⟨rfl, -⟩ := List.append_inj' hsplit rfl
    exact h front e' behind rfl fk next hnext

/-- Every foreign key of a configuration is one. -/
def Typed (info : Meta Model) (configuration : Configuration Model) : Prop :=
  ∀ model fields fkNames, configuration.get? model = some (fields, fkNames) →
    ∀ fk ∈ fkNames, ∃ next, info.relatedModel model fk = some next

/-- A search from a model finds out whether it is grounded. -/
def Finds (info : Meta Model) (configuration : Configuration Model) (deadEnds : Finset Model)
    (search : Model → Search Model → Except Stop (Bool × Search Model)) (fuel : ℕ) : Prop :=
  ∀ model s, Inv info configuration deadEnds s → model ∈ configuration.keys → model ∉ s.graph.keys → model ∉ s.parents →
    (∀ parent ∈ s.parents, TransGen (Follows info configuration) parent model) →
    configuration.keys.length < fuel + s.parents.card →
    ∃ found s', search model s = .ok (found, s') ∧ Inv info configuration deadEnds s' ∧ s.Grows s' ∧
      if found then model ∈ s'.graph.keys else model ∈ s'.newDeadends

/-- The foreign keys of one model, those that are left of them. -/
theorem visitFks_spec {search : Model → Search Model → Except Stop (Bool × Search Model)} {fuel : ℕ}
    (hsearch : Finds info configuration deadEnds search fuel) {fields all : List String}
    (hget : configuration.get? model = some (fields, all)) (fkNames : List String) :
    ∀ adjList s, Inv info configuration deadEnds s →
      (∀ fk ∈ fkNames, fk ∈ all ∧ ∃ next, info.relatedModel model fk = some next) →
      (∀ parent ∈ s.parents, ReflTransGen (Follows info configuration) parent model) →
      configuration.keys.length < fuel + s.parents.card →
      ∃ result s', visitFks info configuration deadEnds search model fkNames adjList s = .ok (result, s') ∧
        Inv info configuration deadEnds s' ∧ s.Grows s' ∧
        ((result = none ∧ ¬Grounded info configuration deadEnds model) ∨
          (result = some (adjList ++ neighbours info model fkNames) ∧
            ∀ fk next, (fk, next) ∈ neighbours info model fkNames → next ∈ s'.graph.keys ∧ next ∉ deadEnds)) := by
  induction fkNames with
  | nil => exact fun adjList s hinv _ _ _ => ⟨_, s, rfl, hinv, .refl s, .inr ⟨by simp [neighbours], by simp [neighbours]⟩⟩
  | cons fk fkNames ih =>
    intro adjList s hinv hfks hparents hfuel
    obtain ⟨hfk, next, hnext⟩ := hfks fk List.mem_cons_self
    have hrest : ∀ fk ∈ fkNames, fk ∈ all ∧ ∃ next, info.relatedModel model fk = some next :=
      fun fk hfk => hfks fk (List.mem_cons_of_mem _ hfk)
    rw [visitFks, hnext, neighbours_cons hnext]
    dsimp only
    cases htype : info.isContentType next with
    | true => exact ih adjList s hinv hrest hparents hfuel
    | false =>
      have hfollows : Follows info configuration model next := ⟨fields, all, fk, hget, hfk, hnext, htype⟩
      rw [if_neg Bool.false_ne_true, if_neg Bool.false_ne_true]
      by_cases hend : next ∉ configuration.keys ∨ next ∈ deadEnds ∨ next ∈ s.newDeadends ∨ next ∈ s.parents
      · rw [if_pos hend]
        refine ⟨none, s, rfl, hinv, .refl s, .inl ⟨rfl, fun hgrounded => ?_⟩⟩
        obtain ⟨hdead, hnext⟩ := hgrounded.follows hfollows
        rcases hend with hend | hend | hend | hend
        · exact hend hnext.mem_keys
        · exact hdead hend
        · exact hinv.dead next hend hnext
        · exact hgrounded.acyclic (.head' hfollows (hparents next hend))
      · rw [if_neg hend]
        push Not at hend
        obtain ⟨hkeys, hdead, -, hparent⟩ := hend
        obtain ⟨found, s', hok, hinv', hgrows, hfound⟩ : ∃ found s',
            (if next ∈ s.graph.keys then .ok (true, s) else search next s) = .ok (found, s') ∧
            Inv info configuration deadEnds s' ∧ s.Grows s' ∧
            if found then next ∈ s'.graph.keys else next ∈ s'.newDeadends := by
          by_cases hmem : next ∈ s.graph.keys
          · exact ⟨true, s, if_pos hmem, hinv, .refl s, hmem⟩
          · rw [if_neg hmem]
            exact hsearch next s hinv hkeys hmem hparent (fun parent hp => .tail' (hparents parent hp) hfollows) hfuel
        rw [hok]
        cases found with
        | false => exact ⟨none, s', rfl, hinv', hgrows, .inl ⟨rfl, fun h => hinv'.dead next hfound (h.follows hfollows).2⟩⟩
        | true =>
          have hfound : next ∈ s'.graph.keys := hfound
          dsimp only
          rw [if_pos hfound]
          obtain ⟨result, s'', hok', hinv'', hgrows', hresult⟩ := ih (adjList ++ [(fk, next)]) s' hinv' hrest
            (hgrows.parents ▸ hparents) (hgrows.parents ▸ hfuel)
          refine ⟨result, s'', hok', hinv'', hgrows.trans hgrows', hresult.imp_right fun h => ⟨?_, fun fk' next' h' => ?_⟩⟩
          · rw [h.1, List.append_assoc]
          · rcases List.mem_cons.mp h' with heq | hmem
            · cases heq
              exact ⟨hgrows'.graph next hfound, hdead⟩
            · exact h.2 fk' next' hmem

/-- A model of which nothing is known yet is searched. -/
theorem finds_dfs (htyped : Typed info configuration) (fuel : ℕ) :
    Finds info configuration deadEnds (dfs info configuration deadEnds fuel) fuel := by
  induction fuel with
  | zero =>
    intro model s hinv hmodel _ _ _ hfuel
    have hcard : s.parents.card ≤ configuration.keys.length :=
      (Finset.card_le_card fun parent hp => List.mem_toFinset.mpr (hinv.known parent hp)).trans
        (List.toFinset_card_le _)
    omega
  | succ fuel ih =>
    intro model s hinv hmodel hnew hparent hparents hfuel
    obtain ⟨⟨fields, fkNames⟩, hget⟩ := Dict.get?_of_mem_keys hmodel
    have hinv' : Inv info configuration deadEnds { s with parents := insert model s.parents } :=
      { hinv with
        apart := fun parent hp => by
          rcases Finset.mem_insert.mp hp with rfl | hp
          · exact hnew
          · exact hinv.apart parent hp
        known := fun parent hp => by
          rcases Finset.mem_insert.mp hp with rfl | hp
          · exact hmodel
          · exact hinv.known parent hp }
    obtain ⟨result, s', hok, hinv'', hgrows, hresult⟩ := visitFks_spec ih hget fkNames [] _ hinv'
      (fun fk hfk => ⟨hfk, htyped model fields fkNames hget fk hfk⟩)
      (fun parent hp => by
        rcases Finset.mem_insert.mp hp with rfl | hp
        · exact .refl
        · exact (hparents parent hp).to_reflTransGen)
      (by rw [Finset.card_insert_of_notMem hparent]; omega)
    have hback : s'.parents.erase model = s.parents := by
      rw [hgrows.parents, Finset.erase_insert hparent]
    have hout : model ∉ s'.graph.keys := hinv''.apart model (by rw [hgrows.parents]; exact Finset.mem_insert_self _ _)
    rw [dfs, hget]
    dsimp only
    rw [hok]
    rcases hresult with ⟨rfl, hdead⟩ | ⟨rfl, hfound⟩
    · refine ⟨false, _, rfl, ?_, ⟨hback, hgrows.graph, fun m hm => Finset.mem_insert_of_mem (hgrows.newDeadends m hm)⟩,
        Finset.mem_insert_self _ _⟩
      exact
        { hinv'' with
          dead := fun m hm => by
            rcases Finset.mem_insert.mp hm with rfl | hm
            · exact hdead
            · exact hinv''.dead m hm
          apart := fun parent hp => hinv''.apart parent (Finset.mem_of_mem_erase hp)
          known := fun parent hp => hinv''.known parent (Finset.mem_of_mem_erase hp) }
    · have hentries : (s'.graph.set model ⟨fields, neighbours info model fkNames⟩).entries =
          s'.graph.entries ++ [(model, ⟨fields, neighbours info model fkNames⟩)] := entries_set hout _
      have hkeys : (s'.graph.set model ⟨fields, neighbours info model fkNames⟩).keys = s'.graph.keys ++ [model] := by
        rw [Dict.keys, hentries, List.map_append]
        rfl
      have hgrounded : Grounded info configuration deadEnds model := by
        have hnext : ∀ next, Follows info configuration model next → next ∈ s'.graph.keys ∧ next ∉ deadEnds := by
          rintro next ⟨fields', fkNames', fk, hget', hfk, hnext, htype⟩
          rw [hget] at hget'
          cases hget'
          exact hfound fk next (mem_neighbours.mpr ⟨hfk, hnext, htype⟩)
        exact .intro hmodel (fun next h => (hnext next h).2) fun next h => hinv''.grounded next (hnext next h).1
      rw [List.nil_append]
      refine ⟨true, _, rfl, ?_, ⟨hback, fun m hm => ?_, hgrows.newDeadends⟩, ?_⟩
      · exact
          { grounded := fun m hm => by
              rw [hkeys, List.mem_append, List.mem_singleton] at hm
              rcases hm with hm | rfl
              · exact hinv''.grounded m hm
              · exact hgrounded
            node := fun m node hm => by
              rw [Dict.get?_set] at hm
              split_ifs at hm with heq
              · cases hm
                exact ⟨fields, fkNames, heq ▸ hget, by rw [heq]⟩
              · exact hinv''.node m node hm
            ordered := hentries ▸ hinv''.ordered.concat fun fk next hnext => (hfound fk next hnext).1
            dead := hinv''.dead
            apart := fun parent hp => by
              obtain ⟨hne, hp⟩ := Finset.mem_erase.mp hp
              rw [hkeys, List.mem_append, List.mem_singleton, not_or]
              exact ⟨hinv''.apart parent hp, hne⟩
            known := fun parent hp => hinv''.known parent (Finset.mem_of_mem_erase hp) }
      · rw [hkeys]
        exact List.mem_append_left _ (hgrows.graph m hm)
      · change model ∈ Dict.keys _
        rw [hkeys]
        exact List.mem_append_right _ List.mem_cons_self

theorem searchAll_spec (htyped : Typed info configuration) {fuel : ℕ} (hfuel : configuration.keys.length < fuel)
    (models : List Model) (hmodels : ∀ model ∈ models, model ∈ configuration.keys) :
    ∀ s, Inv info configuration deadEnds s → s.parents = ∅ →
      ∃ s', searchAll info configuration deadEnds fuel models s = .ok s' ∧ Inv info configuration deadEnds s' ∧
        s.Grows s' ∧ ∀ model ∈ models, model ∈ s'.graph.keys ∨ model ∈ s'.newDeadends := by
  induction models with
  | nil => exact fun s hinv _ => ⟨s, rfl, hinv, .refl s, by simp⟩
  | cons model models ih =>
    intro s hinv hparents
    have hrest : ∀ model ∈ models, model ∈ configuration.keys := fun m hm => hmodels m (List.mem_cons_of_mem _ hm)
    have hsame : { s with parents := ∅ } = s := by rw [← hparents]
    rw [searchAll, hsame]
    split_ifs with hnew
    · obtain ⟨found, s', hok, hinv', hgrows, hfound⟩ := finds_dfs htyped fuel model s hinv
        (hmodels model List.mem_cons_self) hnew.1 (by simp [hparents]) (by simp [hparents]) (by simp [hparents, hfuel])
      obtain ⟨s'', hok', hinv'', hgrows', hall⟩ := ih hrest s' hinv' (hgrows.parents.trans hparents)
      rw [hok]
      refine ⟨s'', hok', hinv'', hgrows.trans hgrows', fun m hm => ?_⟩
      rcases List.mem_cons.mp hm with rfl | hm
      · cases found with
        | true => exact .inl (hgrows'.graph m hfound)
        | false => exact .inr (hgrows'.newDeadends m hfound)
      · exact hall m hm
    · obtain ⟨s', hok, hinv', hgrows, hall⟩ := ih hrest s hinv hparents
      refine ⟨s', hok, hinv', hgrows, fun m hm => ?_⟩
      rcases List.mem_cons.mp hm with rfl | hm
      · by_cases hgraph : m ∈ s.graph.keys
        · exact .inl (hgrows.graph m hgraph)
        · exact .inr (hgrows.newDeadends m (of_not_not fun hdead => hnew ⟨hgraph, hdead⟩))
      · exact hall m hm

theorem Inv.empty : Inv info configuration deadEnds ⟨.empty, ∅, ∅⟩ where
  grounded _ h := absurd h List.not_mem_nil
  node _ _ h := by cases h
  ordered := by
    intro front e behind h
    cases front <;> cases h
  dead _ h := absurd h (Finset.notMem_empty _)
  apart _ h := absurd h (Finset.notMem_empty _)
  known _ h := absurd h (Finset.notMem_empty _)

/-- The graph of a configuration: a model is in it exactly if all its paths along foreign keys end, wherever the
search starts and whatever is searched first; its node has what the configuration says and comes behind the nodes it
leads to. -/
theorem generateSingleGraph_spec (htyped : Typed info configuration) {fuel : ℕ}
    (hfuel : configuration.keys.length < fuel) :
    ∃ graph, generateSingleGraph info configuration deadEnds fuel = .ok graph ∧
      (∀ model, model ∈ graph.keys ↔ Grounded info configuration deadEnds model) ∧
      (∀ model node, graph.get? model = some node → ∃ fields fkNames,
        configuration.get? model = some (fields, fkNames) ∧ node = ⟨fields, neighbours info model fkNames⟩) ∧
      Ordered graph.entries := by
  obtain ⟨s, hok, hinv, -, hall⟩ := searchAll_spec htyped hfuel configuration.keys
    (fun _ h => h) ⟨.empty, ∅, ∅⟩ (Inv.empty : Inv info configuration deadEnds _) rfl
  refine ⟨s.graph, by rw [generateSingleGraph, hok]; rfl, fun model => ⟨hinv.grounded model, fun h => ?_⟩, hinv.node,
    hinv.ordered⟩
  exact (hall model h.mem_keys).resolve_right fun hdead => hinv.dead model hdead h

/-- Organizations have a name of their own, and teams one in their organization. -/
def teams : Meta ℕ where
  getField model field :=
    if field = "name" then some (.charField false)
    else if model = 1 ∧ field = "organization" then some (.foreignKey 0)
    else none
  nameUnique model := model = 0
  uniqueTogether model := if model = 1 then .flat ["organization", "name"] else .nested []
  softUniqueTogether _ := []
  bases _ := []
  isParent _ := true
  isContentType _ := false

/-- The fields and foreign keys that the names of organizations and teams consist of. -/
def teamNames : Configuration ℕ := ⟨[(1, ["name"], ["organization"]), (0, ["name"], [])], by decide⟩

theorem teamNames_typed : Typed teams teamNames := by
  intro model fields fkNames hget fk hfk
  have hmem := Dict.mem_entries_of_get? hget
  rcases List.mem_cons.mp hmem with heq | hmem
  · cases heq
    exact ⟨0, by rw [List.mem_singleton.mp hfk]; rfl⟩
  · cases List.mem_singleton.mp hmem
    cases hfk

theorem generateSingleGraph_teams : ∃ graph, generateSingleGraph teams teamNames ∅ 3 = .ok graph ∧
    (∀ model, model ∈ graph.keys ↔ Grounded teams teamNames ∅ model) ∧
    (∀ model node, graph.get? model = some node → ∃ fields fkNames,
      teamNames.get? model = some (fields, fkNames) ∧ node = ⟨fields, neighbours teams model fkNames⟩) ∧
    Ordered graph.entries :=
  generateSingleGraph_spec teamNames_typed (by decide)

end Search

/-! ### The largest graph -/

section Generate
variable {Model : Type} [DecidableEq Model] (info : Meta Model)

structure Candidates (Model : Type) where
  nodes : Dict Model (List (List String × List String))
  deadEnds : Finset Model

/-- The loop over the tuples of a model. -/
def addCandidates (model : Model) : List (List String) → Dict Model (List (List String × List String)) →
    Except Stop (Dict Model (List (List String × List String)))
  | [], nodes => .ok nodes
  | ut :: uts, nodes =>
    match checkUniqueTogetherFields info model ut with
    | .error e => .error e
    | .ok none => addCandidates model uts nodes
    | .ok (some (fkNames, fields)) =>
      addCandidates model uts (nodes.set model (nodes.getD model [] ++ [(fields, fkNames)]))

def candidates (fuel : ℕ) : List Model → Candidates Model → Except Stop (Candidates Model)
  | [], s => .ok s
  | model :: models, s =>
    match getAllUniqueTogethers info fuel model with
    | none => .error .fuel
    | some uts =>
      match addCandidates info model uts s.nodes with
      | .error e => .error e
      | .ok nodes =>
        candidates fuel models ⟨nodes, if model ∈ nodes.keys then s.deadEnds else insert model s.deadEnds⟩

/-- The loop over the configurations; the generator raises where it ends with an error. -/
def largestGraph (graphOf : Configuration Model → Except Stop (Dict Model (Node Model))) (size : ℕ)
    (raised : Option Stop) : List (Configuration Model) → Dict Model (Node Model) →
      Except Stop (Dict Model (Node Model))
  | [], largest => raised.elim (.ok largest) .error
  | configuration :: configurations, largest =>
    match graphOf configuration with
    | .error e => .error e
    | .ok graph =>
      let largest := if largest.entries.length < graph.entries.length then graph else largest
      if largest.entries.length = size then .ok largest
      else largestGraph graphOf size raised configurations largest

/-- `NAMED_URL_GRAPH` as `generate_graph` sets it. -/
def generateGraph (fuel : ℕ) (models : List Model) : Except Stop (Dict Model (Node Model)) :=
  match candidates info fuel models ⟨.empty, ∅⟩ with
  | .error e => .error e
  | .ok s =>
    match generateConfigurations s.nodes.entries fuel with
    | none => .error .fuel
    | some (configurations, raised) =>
      largestGraph (fun configuration => generateSingleGraph info configuration s.deadEnds fuel)
        s.nodes.entries.length raised configurations .empty

/-! ### What is generated -/

omit [DecidableEq Model] in
/-- The first of the largest graphs is kept: breaking off is no loss, since no graph is larger than there are nodes. -/
theorem largestGraph_spec {graphOf : Configuration Model → Except Stop (Dict Model (Node Model))}
    {γ : Configuration Model → Dict Model (Node Model)} {size : ℕ} (configurations : List (Configuration Model)) :
    (∀ c ∈ configurations, graphOf c = .ok (γ c) ∧ (γ c).entries.length ≤ size) → ∀ largest, largest.entries.length < size →
      ∃ graph, largestGraph graphOf size none configurations largest = .ok graph ∧
        (∀ c ∈ configurations, (γ c).entries.length ≤ graph.entries.length) ∧
        (graph = largest ∨ largest.entries.length < graph.entries.length ∧
          ∃ front c behind, configurations = front ++ c :: behind ∧ graph = γ c ∧
            ∀ c' ∈ front, (γ c').entries.length < graph.entries.length) := by
  induction configurations with
  | nil => exact fun _ largest _ => ⟨largest, rfl, by simp, .inl rfl⟩
  | cons c configurations ih =>
    intro hgraphs largest hlargest
    obtain ⟨hok, hsize⟩ := hgraphs c List.mem_cons_self
    have ih := ih fun c' hc' => hgraphs c' (List.mem_cons_of_mem _ hc')
    rw [largestGraph, hok]
    dsimp only
    by_cases hlt : largest.entries.length < (γ c).entries.length
    · rw [if_pos hlt]
      by_cases hall : (γ c).entries.length = size
      · rw [if_pos hall]
        refine ⟨γ c, rfl, fun c' hc' => ?_, .inr ⟨hlt, [], c, configurations, rfl, rfl, by simp⟩⟩
        exact hall ▸ (hgraphs c' hc').2
      · rw [if_neg hall]
        obtain ⟨graph, hresult, hrest, hfirst⟩ := ih (γ c) (by omega)
        rcases hfirst with rfl | ⟨hmore, front, c', behind, rfl, rfl, hfront⟩
        · refine ⟨_, hresult, fun c' hc' => ?_, .inr ⟨hlt, [], c, configurations, rfl, rfl, by simp⟩⟩
          rcases List.mem_cons.mp hc' with rfl | hc'
          · exact le_refl _
          · exact hrest c' hc'
        · refine ⟨_, hresult, fun d hd => ?_, .inr ⟨hlt.trans hmore, c :: front, c', behind, rfl, rfl, fun d hd => ?_⟩⟩
          · rcases List.mem_cons.mp hd with rfl | hd
            · exact hmore.le
            · exact hrest d hd
          · rcases List.mem_cons.mp hd with rfl | hd
            · exact hmore
            · exact hfront d hd
    · rw [if_neg hlt, if_neg (by omega)]
      obtain ⟨graph, hresult, hrest, hfirst⟩ := ih largest hlargest
      refine ⟨graph, hresult, fun c' hc' => ?_, hfirst.imp_right ?_⟩
      · rcases List.mem_cons.mp hc' with rfl | hc'
        · rcases hfirst with rfl | ⟨hmore, -⟩ <;> omega
        · exact hrest c' hc'
      · rintro ⟨hmore, front, c', behind, rfl, hgraph, hfront⟩
        refine ⟨hmore, c :: front, c', behind, rfl, hgraph, fun d hd => ?_⟩
        rcases List.mem_cons.mp hd with rfl | hd
        · omega
        · exact hfront d hd

variable {info}

/-- A value for a model: the fields and the foreign keys of a valid tuple. -/
def IsCandidate (info : Meta Model) (model : Model) (value : List String × List String) : Prop :=
  ∃ ut, IsTuple info model ut ∧ checkUniqueTogetherFields info model ut = .ok (some (value.2, value.1))

theorem addCandidates_spec {model : Model} (uts : List (List String)) :
    (∀ ut ∈ uts, ∃ checked, checkUniqueTogetherFields info model ut = .ok checked) → ∀ nodes,
      ∃ nodes', addCandidates info model uts nodes = .ok nodes' ∧ (∀ m ≠ model, nodes'.get? m = nodes.get? m) ∧
        (∀ value, value ∈ nodes'.getD model [] ↔ value ∈ nodes.getD model [] ∨
          ∃ ut ∈ uts, checkUniqueTogetherFields info model ut = .ok (some (value.2, value.1))) ∧
        ((∀ values, nodes.get? model = some values → values ≠ []) →
          ∀ values, nodes'.get? model = some values → values ≠ []) := by
  induction uts with
  | nil => exact fun _ nodes => ⟨nodes, rfl, fun _ _ => rfl, by simp, fun h => h⟩
  | cons ut uts ih =>
    intro hall nodes
    obtain ⟨checked, hchecked⟩ := hall ut List.mem_cons_self
    have ih := ih fun ut' hut' => hall ut' (List.mem_cons_of_mem _ hut')
    rw [addCandidates, hchecked]
    cases checked with
    | none =>
      obtain ⟨nodes', hok, hother, hmem, hne⟩ := ih nodes
      refine ⟨nodes', hok, hother, fun value => (hmem value).trans (or_congr_right ?_), hne⟩
      simp [hchecked]
    | some checked =>
      obtain ⟨fkNames, fields⟩ := checked
      obtain ⟨nodes', hok, hother, hmem, hne⟩ := ih (nodes.set model (nodes.getD model [] ++ [(fields, fkNames)]))
      refine ⟨nodes', hok, fun m hm => ?_, fun value => ?_, fun _ => hne fun values hvalues => ?_⟩
      · rw [hother m hm, Dict.get?_set, if_neg hm]
      · rw [hmem, Dict.getD_set, if_pos rfl, List.mem_append, List.mem_singleton, or_assoc]
        refine or_congr_right ?_
        rw [List.exists_mem_cons_iff, hchecked]
        refine or_congr_left ?_
        rw [Except.ok.injEq, Option.some.injEq, Prod.ext_iff, Prod.ext_iff]
        exact ⟨fun h => ⟨h.2.symm, h.1.symm⟩, fun h => ⟨h.2.symm, h.1.symm⟩⟩
      · rw [Dict.get?_set, if_pos rfl] at hvalues
        cases hvalues
        simp

theorem candidates_spec (hbases : WellFounded fun parent model => Inherits info model parent) (models : List Model) :
    (∀ model ∈ models, ∀ ut, IsTuple info model ut → ∀ field ∈ ut, (info.getField model field).isSome = true) →
      ∀ s : Candidates Model, (∀ m values, s.nodes.get? m = some values → values ≠ []) →
      (∀ m ∈ s.deadEnds, ∀ value, ¬IsCandidate info m value) →
      ∃ s', (∃ n, ∀ fuel, n ≤ fuel → candidates info fuel models s = .ok s') ∧
        (∀ m value, value ∈ s'.nodes.getD m [] ↔
          value ∈ s.nodes.getD m [] ∨ m ∈ models ∧ IsCandidate info m value) ∧
        (∀ m values, s'.nodes.get? m = some values → values ≠ []) ∧
        ∀ m ∈ s'.deadEnds, ∀ value, ¬IsCandidate info m value := by
  induction models with
  | nil => exact fun _ s hne hdead => ⟨s, ⟨0, fun _ _ => rfl⟩, by simp, hne, hdead⟩
  | cons model models ih =>
    intro hfields s hne hdead
    obtain ⟨uts, ⟨n, hn⟩, huts⟩ := getAllUniqueTogethers_spec hbases model
    have hchecks : ∀ ut ∈ uts, ∃ checked, checkUniqueTogetherFields info model ut = .ok checked := fun ut hut =>
      (checkUniqueTogetherFields_spec (hfields model List.mem_cons_self ut ((huts ut).mp hut))).imp fun _ h => h.1
    obtain ⟨nodes, hok, hother, hmem, hne'⟩ := addCandidates_spec uts hchecks s.nodes
    have hcandidate : ∀ value, (∃ ut ∈ uts, checkUniqueTogetherFields info model ut = .ok (some (value.2, value.1))) ↔
        IsCandidate info model value := fun value => exists_congr fun ut => and_congr_left' (huts ut)
    have hvalues : ∀ m values, nodes.get? m = some values → values ≠ [] := by
      intro m values hvalues
      by_cases hm : m = model
      · subst hm
        exact hne' (hne m) values hvalues
      · exact hne m values (hother m hm ▸ hvalues)
    obtain ⟨s', ⟨n', hn'⟩, hmem', hne'', hdead'⟩ := ih (fun m hm => hfields m (List.mem_cons_of_mem _ hm))
      ⟨nodes, if model ∈ nodes.keys then s.deadEnds else insert model s.deadEnds⟩ hvalues (by
        intro m hm value hvalue
        split_ifs at hm with hkeys
        · exact hdead m hm value hvalue
        · rcases Finset.mem_insert.mp hm with rfl | hm
          · have hin := (hmem value).mpr (.inr ((hcandidate value).mpr hvalue))
            rw [Dict.getD, Dict.get?_eq_none_of_not_mem _ hkeys] at hin
            cases hin
          · exact hdead m hm value hvalue)
    refine ⟨s', ⟨max n n', fun fuel hfuel => ?_⟩, fun m value => ?_, hne'', hdead'⟩
    · rw [candidates, hn fuel (le_of_max_le_left hfuel)]
      dsimp only
      rw [hok]
      exact hn' fuel (le_of_max_le_right hfuel)
    · rw [hmem', List.mem_cons]
      by_cases hm : m = model
      · subst hm
        rw [hmem, hcandidate]
        tauto
      · rw [Dict.getD, hother m hm, Dict.getD]
        tauto

/-- One valid tuple for each model that has one. -/
structure Chosen (info : Meta Model) (models : List Model) (configuration : Configuration Model) : Prop where
  keys : ∀ model, model ∈ configuration.keys ↔ model ∈ models ∧ ∃ value, IsCandidate info model value
  value : ∀ model value, configuration.get? model = some value → IsCandidate info model value

/-- The graph of the models whose paths all end. -/
structure GraphOf (info : Meta Model) (configuration : Configuration Model) (graph : Dict Model (Node Model)) : Prop where
  mem_iff : ∀ model, model ∈ graph.keys ↔ Grounded info configuration ∅ model
  node : ∀ model node, graph.get? model = some node → ∃ fields fkNames,
    configuration.get? model = some (fields, fkNames) ∧ node = ⟨fields, neighbours info model fkNames⟩
  ordered : Ordered graph.entries

variable {configuration configuration' : Configuration Model} {deadEnds deadEnds' : Finset Model}

theorem Grounded.congr {model : Model} (h : Grounded info configuration deadEnds model)
    (hget : ∀ m, configuration.get? m = configuration'.get? m) (hdead : ∀ m ∈ deadEnds', m ∉ configuration'.keys) :
    Grounded info configuration' deadEnds' model := by
  have hkeys : ∀ m, m ∈ configuration.keys → m ∈ configuration'.keys := fun m hm => by
    rw [Dict.mem_keys_iff] at hm ⊢
    rwa [← hget]
  induction h with
  | intro hmem _ hgrounded ih =>
    have hfollows : ∀ {m next}, Follows info configuration' m next → Follows info configuration m next := by
      rintro m next ⟨fields, fkNames, fk, hm, h⟩
      exact ⟨fields, fkNames, fk, (hget m).trans hm, h⟩
    refine .intro (hkeys _ hmem) (fun next hnext hin => ?_) fun next hnext => ih next (hfollows hnext)
    exact hdead next hin (hkeys next (hgrounded next (hfollows hnext)).mem_keys)

theorem Chosen.typed {models : List Model} (h : Chosen info models configuration)
    (hfields : ∀ model ∈ models, ∀ ut, IsTuple info model ut → ∀ field ∈ ut, (info.getField model field).isSome = true) :
    Typed info configuration := by
  intro model fields fkNames hget fk hfk
  have hmodel := ((h.keys model).mp (Dict.mem_keys_of_get? hget)).1
  obtain ⟨ut, hut, hcheck⟩ := h.value model _ hget
  obtain ⟨checked, hok, hall⟩ := checkUniqueTogetherFields_spec (hfields model hmodel ut hut)
  rw [hcheck] at hok
  obtain ⟨next, hnext⟩ := (hall fkNames fields (Except.ok.inj hok).symm).1 fk hfk
  exact ⟨next, by rw [Meta.relatedModel, hnext]⟩

section Result
variable {models : List Model} {s : Candidates Model}

theorem mem_keys_nodes (hmem : ∀ m value, value ∈ s.nodes.getD m [] ↔ m ∈ models ∧ IsCandidate info m value)
    (hne : ∀ m values, s.nodes.get? m = some values → values ≠ []) (m : Model) :
    m ∈ s.nodes.keys ↔ m ∈ models ∧ ∃ value, IsCandidate info m value := by
  constructor
  · intro hm
    obtain ⟨values, hvalues⟩ := Dict.get?_of_mem_keys hm
    obtain ⟨value, hvalue⟩ := List.exists_mem_of_ne_nil _ (hne m values hvalues)
    have hin := (hmem m value).mp (by rwa [Dict.getD, hvalues])
    exact ⟨hin.1, value, hin.2⟩
  · rintro ⟨hm, value, hvalue⟩
    by_contra hnone
    have hin := (hmem m value).mpr ⟨hm, hvalue⟩
    rw [Dict.getD, Dict.get?_eq_none_of_not_mem _ hnone] at hin
    cases hin

/-- A configuration that is yielded chooses one tuple for each model. -/
theorem Chosen.of_mem_choices
    (hmem : ∀ m value, value ∈ s.nodes.getD m [] ↔ m ∈ models ∧ IsCandidate info m value)
    (hne : ∀ m values, s.nodes.get? m = some values → values ≠ [])
    (h : configuration.entries ∈ choices s.nodes.entries) : Chosen info models configuration := by
  have hkeys : configuration.keys = s.nodes.keys := keys_of_mem_choices h
  refine ⟨fun m => by rw [hkeys, mem_keys_nodes hmem hne], fun m value hvalue => ?_⟩
  obtain ⟨node, hnode, rfl, hin⟩ := exists_of_mem_choices h (Dict.mem_entries_of_get? hvalue)
  exact ((hmem node.1 value).mp (by rwa [Dict.getD, Dict.get?_of_mem_entries hnode])).2

/-- Whatever is chosen is yielded, in the order of the nodes. -/
theorem Chosen.exists_mem_choices (h : Chosen info models configuration)
    (hmem : ∀ m value, value ∈ s.nodes.getD m [] ↔ m ∈ models ∧ IsCandidate info m value)
    (hkeys : ∀ m, m ∈ configuration.keys ↔ m ∈ s.nodes.keys) :
    ∃ e ∈ choices s.nodes.entries, ∀ m value, (m, value) ∈ e → configuration.get? m = some value := by
  have hchoose : ∀ node ∈ s.nodes.entries, ∃ value, configuration.get? node.1 = some value ∧ value ∈ node.2 := by
    intro node hnode
    have hin : node.1 ∈ configuration.keys := (hkeys node.1).mpr (List.mem_map_of_mem hnode)
    obtain ⟨value, hvalue⟩ := Dict.get?_of_mem_keys hin
    refine ⟨value, hvalue, ?_⟩
    have hvalues := (hmem node.1 value).mpr ⟨((h.keys node.1).mp hin).1, h.value node.1 value hvalue⟩
    rwa [Dict.getD, Dict.get?_of_mem_entries hnode] at hvalues
  generalize s.nodes.entries = nodes at hchoose
  induction nodes with
  | nil => exact ⟨[], List.mem_cons_self, fun _ _ h => by cases h⟩
  | cons node nodes ih =>
    obtain ⟨value, hvalue, hin⟩ := hchoose node List.mem_cons_self
    obtain ⟨e, he, hall⟩ := ih fun node' hnode' => hchoose node' (List.mem_cons_of_mem _ hnode')
    refine ⟨(node.1, value) :: e, ?_, fun m v hm => ?_⟩
    · exact List.mem_flatMap.mpr ⟨value, hin, List.mem_map_of_mem he⟩
    · rcases List.mem_cons.mp hm with heq | hm
      · cases heq
        exact hvalue
      · exact hall m v hm

/-- Graphs of configurations that choose the same tuples have the same size. -/
theorem GraphOf.length_eq {graph graph' : Dict Model (Node Model)} (h : GraphOf info configuration graph)
    (h' : GraphOf info configuration' graph') (hget : ∀ m, configuration.get? m = configuration'.get? m) :
    graph.entries.length = graph'.entries.length := by
  have hkeys : ∀ m, m ∈ graph.keys ↔ m ∈ graph'.keys := fun m => by
    rw [h.mem_iff, h'.mem_iff]
    exact ⟨fun hm => hm.congr hget (by simp), fun hm => hm.congr (fun m => (hget m).symm) (by simp)⟩
  have hperm := (List.perm_ext_iff_of_nodup graph.nodup graph'.nodup).mpr hkeys
  simpa using hperm.length_eq

/-- Searching a configuration with the models of no candidate as dead ends gives its graph. -/
theorem Chosen.exists_graph (h : Chosen info models configuration)
    (hfields : ∀ model ∈ models, ∀ ut, IsTuple info model ut → ∀ field ∈ ut, (info.getField model field).isSome = true)
    (hdead : ∀ m ∈ deadEnds, ∀ value, ¬IsCandidate info m value) {fuel : ℕ} (hfuel : configuration.keys.length < fuel) :
    ∃ graph, generateSingleGraph info configuration deadEnds fuel = .ok graph ∧ GraphOf info configuration graph := by
  obtain ⟨graph, hok, hmem, hnode, hordered⟩ := generateSingleGraph_spec (h.typed hfields) hfuel
  have hout : ∀ m ∈ deadEnds, m ∉ configuration.keys := fun m hm hin => by
    obtain ⟨-, value, hvalue⟩ := (h.keys m).mp hin
    exact hdead m hm value hvalue
  refine ⟨graph, hok, fun m => (hmem m).trans ⟨fun hm => ?_, fun hm => ?_⟩, hnode, hordered⟩
  · exact hm.congr (fun _ => rfl) (by simp)
  · exact hm.congr (fun _ => rfl) hout

theorem GraphOf.length_le {graph : Dict Model (Node Model)} (h : GraphOf info configuration graph) :
    graph.entries.length ≤ configuration.entries.length := by
  have hle := (List.subperm_of_subset graph.nodup fun m hm => ((h.mem_iff m).mp hm).mem_keys).length_le
  simpa [Dict.keys] using hle

theorem GraphOf.empty : GraphOf info .empty .empty where
  mem_iff _ := iff_of_false List.not_mem_nil fun h => absurd h.mem_keys List.not_mem_nil
  node _ _ h := by cases h
  ordered := (Inv.empty : Inv info .empty ∅ ⟨.empty, ∅, ∅⟩).ordered

/-- What is generated is the graph of one valid tuple for each model, and no other choice of tuples has a larger
graph. -/
theorem exists_generateGraph (hbases : WellFounded fun parent model => Inherits info model parent)
    (hfields : ∀ model ∈ models, ∀ ut, IsTuple info model ut → ∀ field ∈ ut, (info.getField model field).isSome = true) :
    ∃ n, ∀ fuel, n ≤ fuel → ∃ graph configuration, generateGraph info fuel models = .ok graph ∧
      Chosen info models configuration ∧ GraphOf info configuration graph ∧
      ∀ configuration' graph', Chosen info models configuration' → GraphOf info configuration' graph' →
        graph'.entries.length ≤ graph.entries.length := by
  obtain ⟨s, ⟨n, hn⟩, hmem, hne, hdead⟩ := candidates_spec hbases models hfields ⟨.empty, ∅⟩
    (fun _ _ h => by cases h) (fun _ h => absurd h (Finset.notMem_empty _))
  have hmem : ∀ m value, value ∈ s.nodes.getD m [] ↔ m ∈ models ∧ IsCandidate info m value := fun m value => by
    rw [hmem, Dict.getD_empty]
    simp
  have hkeys := mem_keys_nodes hmem hne
  by_cases hnil : s.nodes.entries = []
  · have hempty : ∀ c : Configuration Model, Chosen info models c → ∀ m, m ∉ c.keys := fun c hc m hm => by
      have hin := (hkeys m).mpr ((hc.keys m).mp hm)
      rw [Dict.keys, hnil] at hin
      cases hin
    refine ⟨n, fun fuel hfuel => ⟨.empty, .empty, ?_, ⟨fun m => ?_, fun _ _ h => (by cases h)⟩, .empty,
      fun c graph hc hgraph => ?_⟩⟩
    · rw [generateGraph, hn fuel hfuel]
      dsimp only
      rw [hnil]
      rfl
    · refine (iff_of_false List.not_mem_nil fun h => ?_)
      have hin := (hkeys m).mpr h
      rw [Dict.keys, hnil] at hin
      cases hin
    · have hnone : c.entries = [] := List.map_eq_nil_iff.mp (List.eq_nil_iff_forall_not_mem.mpr (hempty c hc))
      exact hgraph.length_le.trans (Nat.le_of_eq (congrArg List.length hnone))
  · have hvalues : ∀ e ∈ s.nodes.entries, e.2 ≠ [] := fun e he => hne e.1 e.2 (Dict.get?_of_mem_entries he)
    obtain ⟨cs, hcs, -, -, n', hn'⟩ := generateConfigurations_spec s.nodes.nodup hvalues hnil
    refine ⟨max (max n n') (s.nodes.entries.length + 1), fun fuel hfuel => ?_⟩
    have hlength : s.nodes.entries.length < fuel := (le_max_right _ _).trans hfuel
    have hchosen : ∀ c ∈ cs, c.entries ∈ choices s.nodes.entries := fun c hc => hcs ▸ List.mem_map_of_mem hc
    have hsize : ∀ c ∈ cs, c.entries.length = s.nodes.entries.length := fun c hc => by
      simpa using congrArg List.length (keys_of_mem_choices (hchosen c hc))
    -- The graph of each configuration, as this fuel gives it.
    let γ := fun c : Configuration Model => (generateSingleGraph info c s.deadEnds fuel).toOption.getD .empty
    have hγ : ∀ c ∈ cs, generateSingleGraph info c s.deadEnds fuel = .ok (γ c) ∧ GraphOf info c (γ c) := by
      intro c hc
      have hfuel' : c.keys.length < fuel := by
        rw [Dict.keys, List.length_map, hsize c hc]
        exact hlength
      obtain ⟨graph, hok, hgraph⟩ := (Chosen.of_mem_choices hmem hne (hchosen c hc)).exists_graph hfields hdead hfuel'
      have heq : γ c = graph := by
        change (generateSingleGraph info c s.deadEnds fuel).toOption.getD .empty = graph
        rw [hok]
        rfl
      exact ⟨heq ▸ hok, heq ▸ hgraph⟩
    have hsmall : ∀ c ∈ cs, (γ c).entries.length ≤ s.nodes.entries.length :=
      fun c hc => hsize c hc ▸ (hγ c hc).2.length_le
    obtain ⟨graph, hresult, hlargest, hfirst⟩ := largestGraph_spec cs
      (fun c hc => ⟨(hγ c hc).1, hsmall c hc⟩) .empty (List.length_pos_of_ne_nil hnil)
    have hgenerate : generateGraph info fuel models = .ok graph := by
      rw [generateGraph, hn fuel (((le_max_left _ _).trans (le_max_left _ _)).trans hfuel)]
      dsimp only
      rw [hn' fuel (((le_max_right _ _).trans (le_max_left _ _)).trans hfuel)]
      exact hresult
    obtain ⟨c, hc, hgraph⟩ : ∃ c ∈ cs, graph = γ c := by
      rcases hfirst with rfl | ⟨-, front, c, behind, rfl, rfl, -⟩
      · have hcs' : cs ≠ [] := fun hnone => choices_ne_nil hvalues (by rw [← hcs, hnone]; rfl)
        obtain ⟨c, hc⟩ := List.exists_mem_of_ne_nil _ hcs'
        refine ⟨c, hc, (Dict.eq_empty (List.eq_nil_of_length_eq_zero ?_)).symm⟩
        exact Nat.le_zero.mp (hlargest c hc)
      · exact ⟨c, by simp, rfl⟩
    have hc' := Chosen.of_mem_choices hmem hne (hchosen c hc)
    refine ⟨graph, c, hgenerate, hc', hgraph ▸ (hγ c hc).2, fun d graph' hd hgraph' => ?_⟩
    obtain ⟨e, he, hall⟩ := hd.exists_mem_choices hmem fun m => (hd.keys m).trans (hkeys m).symm
    obtain ⟨d', hd', rfl⟩ := List.mem_map.mp (hcs ▸ he)
    have hsame : ∀ m, d.get? m = d'.get? m := by
      intro m
      cases hget : d'.get? m with
      | some value => exact hall m value (Dict.mem_entries_of_get? hget)
      | none =>
        refine Dict.get?_eq_none_of_not_mem _ fun hin => ?_
        have hin' : m ∈ d'.keys := by
          rw [show d'.keys = s.nodes.keys from keys_of_mem_choices (hchosen d' hd'), hkeys]
          exact (hd.keys m).mp hin
        obtain ⟨value, hvalue⟩ := Dict.get?_of_mem_keys hin'
        rw [hget] at hvalue
        cases hvalue
    rw [hgraph'.length_eq (hγ d' hd').2 hsame]
    exact hlargest d' hd'

/-- The nodes in the order of their creation. -/
def toGraph (graph : Dict Model (Node Model)) (hordered : Ordered graph.entries)
    (hnodup : ∀ model node, graph.get? model = some node → node.fields.Nodup ∧ (node.adjList.map Prod.fst).Nodup) : Graph where
  nodes i := (graph.entries[i]?).elim ⟨[], []⟩ fun e => ⟨e.2.fields, e.2.adjList.map fun n => (n.1, graph.keys.idxOf n.2)⟩
  below := by
    intro i fk j h
    cases hget : graph.entries[i]? with
    | none =>
      rw [hget] at h
      cases h
    | some e =>
      rw [hget] at h
      obtain ⟨⟨fk', next⟩, hmem, heq⟩ := List.mem_map.mp h
      cases heq
      obtain ⟨hi, rfl⟩ := List.getElem?_eq_some_iff.mp hget
      have hsplit : graph.entries = graph.entries.take i ++ graph.entries[i] :: graph.entries.drop (i + 1) := by simp
      have hfront := hordered _ _ _ hsplit fk' next hmem
      have hkeys : graph.keys = (graph.entries.take i).map Prod.fst ++ (graph.entries[i] :: graph.entries.drop (i + 1)).map Prod.fst := by
        rw [← List.map_append, ← hsplit]
        rfl
      rw [hkeys, List.idxOf_append_of_mem hfront]
      refine (List.idxOf_lt_length_of_mem hfront).trans_le ?_
      rw [List.length_map]
      exact List.length_take_le _ _
  fields_nodup i := by
    cases hget : graph.entries[i]? with
    | none => exact List.nodup_nil
    | some e => exact (hnodup e.1 e.2 (Dict.get?_of_mem_entries (List.mem_of_getElem? hget))).1
  fks_nodup i := by
    cases hget : graph.entries[i]? with
    | none => exact List.nodup_nil
    | some e =>
      have h := (hnodup e.1 e.2 (Dict.get?_of_mem_entries (List.mem_of_getElem? hget))).2
      change ((e.2.adjList.map _).map Prod.fst).Nodup
      rwa [List.map_map]

/-- Tuples that name no field twice give nodes that do not either. -/
theorem GraphOf.nodup {graph : Dict Model (Node Model)} (h : GraphOf info configuration graph)
    (hchosen : Chosen info models configuration)
    (hfields : ∀ model ∈ models, ∀ ut, IsTuple info model ut → ut.Nodup ∧
      ∀ field ∈ ut, (info.getField model field).isSome = true)
    {model : Model} {node : Node Model} (hget : graph.get? model = some node) :
    node.fields.Nodup ∧ (node.adjList.map Prod.fst).Nodup := by
  obtain ⟨fields, fkNames, hvalue, rfl⟩ := h.node model node hget
  have hmodel := ((hchosen.keys model).mp (Dict.mem_keys_of_get? hvalue)).1
  obtain ⟨ut, hut, hcheck⟩ := hchosen.value model _ hvalue
  obtain ⟨hnodup, hsome⟩ := hfields model hmodel ut hut
  obtain ⟨checked, hok, hall⟩ := checkUniqueTogetherFields_spec hsome
  rw [hcheck] at hok
  obtain ⟨hfks, hfs⟩ := (hall fkNames fields (Except.ok.inj hok).symm).2 hnodup
  exact ⟨hfs, sublist_neighbours.nodup hfks⟩

/-- For all classes and tuples, what `generate_graph` sets is the graph of one valid tuple for each model: a model is in it
exactly if all its paths along foreign keys end. No other choice of tuples has a larger graph. The nodes in the order
of their creation are a graph in which a node only leads to earlier ones. -/
theorem generateGraph_spec (hbases : WellFounded fun parent model => Inherits info model parent)
    (hfields : ∀ model ∈ models, ∀ ut, IsTuple info model ut → ut.Nodup ∧
      ∀ field ∈ ut, (info.getField model field).isSome = true) :
    ∃ n, ∀ fuel, n ≤ fuel → ∃ graph configuration, generateGraph info fuel models = .ok graph ∧
      Chosen info models configuration ∧ GraphOf info configuration graph ∧
      (∀ configuration' graph', Chosen info models configuration' → GraphOf info configuration' graph' →
        graph'.entries.length ≤ graph.entries.length) ∧
      ∃ g : Graph, ∀ i model node, graph.entries[i]? = some (model, node) →
        g.nodes i = ⟨node.fields, node.adjList.map fun n => (n.1, graph.keys.idxOf n.2)⟩ := by
  obtain ⟨n, hn⟩ := exists_generateGraph hbases fun model hmodel ut hut => (hfields model hmodel ut hut).2
  refine ⟨n, fun fuel hfuel => ?_⟩
  obtain ⟨graph, configuration, hok, hchosen, hgraph, hlargest⟩ := hn fuel hfuel
  refine ⟨graph, configuration, hok, hchosen, hgraph, hlargest,
    toGraph graph hgraph.ordered fun model node hget => hgraph.nodup hchosen hfields hget, fun i model node hget => ?_⟩
  change (graph.entries[i]?).elim _ _ = _
  rw [hget]
  rfl

end Result

end Generate

theorem teams_tuple {model : ℕ} {ut : List String} (h : IsTuple teams model ut) :
    ut = ["name"] ∨ model = 1 ∧ ut = ["organization", "name"] := by
  rcases h with ⟨-, rfl⟩ | ⟨parent, hparent, hut⟩
  · exact .inl rfl
  · obtain rfl : model = parent := by
      rcases hparent.cases_head with heq | ⟨_, hin, -⟩
      · exact heq
      · cases hin
    by_cases hmodel : model = 1
    · subst hmodel
      exact .inr ⟨rfl, List.mem_singleton.mp hut⟩
    · rw [uniqueTogethers, show teams.uniqueTogether model = .nested [] from if_neg hmodel] at hut
      cases hut

theorem generateGraph_teams : ∃ n, ∀ fuel, n ≤ fuel → ∃ graph configuration,
    generateGraph teams fuel [1, 0] = .ok graph ∧ Chosen teams [1, 0] configuration ∧ GraphOf teams configuration graph ∧
    (∀ configuration' graph', Chosen teams [1, 0] configuration' → GraphOf teams configuration' graph' →
      graph'.entries.length ≤ graph.entries.length) ∧
    ∃ g : Graph, ∀ i model node, graph.entries[i]? = some (model, node) →
      g.nodes i = ⟨node.fields, node.adjList.map fun n => (n.1, graph.keys.idxOf n.2)⟩ :=
  generateGraph_spec ⟨fun _ => ⟨_, fun _ h => by cases h⟩⟩ fun model _ ut hut => by
    rcases teams_tuple hut with rfl | ⟨rfl, rfl⟩
    · exact ⟨by decide, fun field hfield => by rw [List.mem_singleton.mp hfield]; rfl⟩
    · refine ⟨by decide, fun field hfield => ?_⟩
      rcases List.mem_cons.mp hfield with rfl | hfield
      · rfl
      · rw [List.mem_singleton.mp hfield]
        rfl

example : (generateGraph teams 9 [1, 0]).toOption.map (fun graph => graph.entries.map fun e => (e.1, e.2.fields, e.2.adjList)) =
    some [(0, ["name"], []), (1, ["name"], [("organization", 0)])] := by
  decide

end Forail.NamedUrl
