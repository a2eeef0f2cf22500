import Forail.Ui.JobEvents
import Mathlib.Algebra.Order.Group.Int
import Mathlib.Data.List.Induction
import Mathlib.Tactic.Common

/-! Rows of a job's events. The events form a forest, of which some are loaded; a row counts the events
without a collapsed event above them. Looked up by its row, a visible event is found when it is loaded. -/

namespace Forail.JobEvents

/-- An event with those below it; a loaded one has a flag whether it is collapsed. -/
inductive EventTree
  | mk (counter : ℕ) (loaded : Option Bool) (children : List EventTree)

namespace EventTree

def counter : EventTree → ℕ
  | mk counter _ _ => counter

def loaded : EventTree → Option Bool
  | mk _ loaded _ => loaded

def children : EventTree → List EventTree
  | mk _ _ children => children

mutual

def preorder : EventTree → List EventTree
  | mk counter loaded children => mk counter loaded children :: preorderAll children

def preorderAll : List EventTree → List EventTree
  | [] => []
  | t :: ts => preorder t ++ preorderAll ts

end

mutual

/-- The visible events, in order; unloaded events are not collapsed. -/
def visible : EventTree → List EventTree
  | mk counter loaded children =>
    mk counter loaded children :: if loaded = some true then [] else visibleAll children

def visibleAll : List EventTree → List EventTree
  | [] => []
  | t :: ts => visible t ++ visibleAll ts

end

mutual

/-- The node of a loaded event. -/
def node : EventTree → Option Node
  | mk _ none _ => none
  | mk counter (some isCollapsed) children => some (.mk counter isCollapsed (nodes children))

def nodes : List EventTree → List Node
  | [] => []
  | t :: ts => (node t).toList ++ nodes ts

end

/-! ### Counting events -/

theorem preorder_eq (t : EventTree) : t.preorder = t :: preorderAll t.children := by
  cases t
  rw [preorder, children]

theorem preorderAll_cons (t : EventTree) (ts : List EventTree) :
    preorderAll (t :: ts) = t :: (preorderAll t.children ++ preorderAll ts) := by
  rw [preorderAll, preorder_eq, List.cons_append]

theorem visible_eq (t : EventTree) :
    t.visible = t :: if t.loaded = some true then [] else visibleAll t.children := by
  cases t
  rw [visible, children, loaded]

theorem nodes_cons_of_unloaded {t : EventTree} (h : t.loaded = none) (ts : List EventTree) :
    nodes (t :: ts) = nodes ts := by
  obtain ⟨counter, loaded, children⟩ := t
  obtain rfl : loaded = none := h
  rw [nodes, node]
  rfl

theorem node_of_unloaded {t : EventTree} (h : t.loaded = none) : t.node = none := by
  obtain ⟨counter, loaded, children⟩ := t
  obtain rfl : loaded = none := h
  rw [node]

theorem node_of_loaded {t : EventTree} {c : Bool} (h : t.loaded = some c) :
    t.node = some (.mk t.counter c (nodes t.children)) := by
  obtain ⟨counter, loaded, children⟩ := t
  obtain rfl : loaded = some c := h
  rw [node]
  rfl

theorem nodes_cons_of_loaded {t : EventTree} {c : Bool} (h : t.loaded = some c) (ts : List EventTree) :
    nodes (t :: ts) = .mk t.counter c (nodes t.children) :: nodes ts := by
  rw [nodes, node_of_loaded h]
  rfl

/-- Induction on a list of trees, with the children of the first one. -/
theorem forest_induction {P : List EventTree → Prop} (nil : P [])
    (cons : ∀ t ts, P t.children → P ts → P (t :: ts)) (ts : List EventTree) : P ts := by
  induction h : (preorderAll ts).length using Nat.strong_induction_on generalizing ts with
  | _ k ih =>
    subst h
    cases ts with
    | nil => exact nil
    | cons t ts =>
      have hlength := congrArg List.length (preorderAll_cons t ts)
      rw [List.length_cons, List.length_append] at hlength
      exact cons t ts (ih _ (by omega) _ rfl) (ih _ (by omega) _ rfl)

/-- Unloaded events hide none. -/
theorem visibleAll_of_unloaded {ts : List EventTree} (h : ∀ t ∈ preorderAll ts, t.loaded = none) :
    visibleAll ts = preorderAll ts := by
  induction ts using forest_induction with
  | nil => rw [visibleAll, preorderAll]
  | cons t ts ihc iht =>
    rw [preorderAll_cons] at h
    have ht : t.loaded = none := h t List.mem_cons_self
    have hchildren := ihc fun d hd => h d (List.mem_cons_of_mem t (List.mem_append_left _ hd))
    have hrest := iht fun d hd => h d (List.mem_cons_of_mem t (List.mem_append_right _ hd))
    rw [visibleAll, visible_eq, preorderAll_cons, hrest, ht, if_neg (Option.some_ne_none true).symm, hchildren,
      List.cons_append]

end EventTree

open EventTree

variable {υ : Type}

/-- A state shows a forest from a row on: loaded events have their positions as row numbers, what is below an
unloaded event is unloaded, and the summary has the number of events below each one. -/
structure Shown (state : State υ) (base : ℤ) (ts : List EventTree) : Prop where
  placed : ∀ (i : ℕ) (t : EventTree), (preorderAll ts)[i]? = some t → t.loaded ≠ none →
    ∃ e, state.events.get? t.counter = some e ∧ e.rowNumber = base + i
  closed : ∀ t ∈ preorderAll ts, t.loaded = none → ∀ d ∈ preorderAll t.children, d.loaded = none
  exact_total : ∀ t ∈ preorderAll ts, ∀ n, state.childrenSummary.get? t.counter = some n →
    n = (preorderAll t.children).length
  has_total : ∀ t ∈ preorderAll ts, t.children ≠ [] → (state.childrenSummary.get? t.counter).isSome = true

namespace Shown

variable {state : State υ} {base : ℤ} {t : EventTree} {ts : List EventTree}

theorem of_children (h : Shown state base (t :: ts)) : Shown state (base + 1) t.children := by
  have hmem : ∀ d ∈ preorderAll t.children, d ∈ preorderAll (t :: ts) := fun d hd => by
    rw [preorderAll_cons]
    exact List.mem_cons_of_mem t (List.mem_append_left _ hd)
  refine ⟨fun i d hd hloaded => ?_, fun d hd => h.closed d (hmem d hd),
    fun d hd => h.exact_total d (hmem d hd), fun d hd => h.has_total d (hmem d hd)⟩
  have hi := (List.getElem?_eq_some_iff.mp hd).1
  obtain ⟨e, he, hrow⟩ := h.placed (i + 1) d
    (by rw [preorderAll_cons, List.getElem?_cons_succ, List.getElem?_append_left hi, hd]) hloaded
  exact ⟨e, he, by rw [hrow]; push_cast; omega⟩

theorem of_rest (h : Shown state base (t :: ts)) : Shown state (base + t.preorder.length) ts := by
  have hmem : ∀ d ∈ preorderAll ts, d ∈ preorderAll (t :: ts) := fun d hd => by
    rw [preorderAll]
    exact List.mem_append_right _ hd
  refine ⟨fun i d hd hloaded => ?_, fun d hd => h.closed d (hmem d hd),
    fun d hd => h.exact_total d (hmem d hd), fun d hd => h.has_total d (hmem d hd)⟩
  obtain ⟨e, he, hrow⟩ := h.placed (t.preorder.length + i) d
    (by rw [preorderAll, List.getElem?_append_right (Nat.le_add_right _ _), Nat.add_sub_cancel_left, hd]) hloaded
  exact ⟨e, he, by rw [hrow]; push_cast; omega⟩

theorem head_event (h : Shown state base (t :: ts)) (hloaded : t.loaded ≠ none) :
    ∃ e, state.events.get? t.counter = some e ∧ e.rowNumber = base := by
  obtain ⟨e, he, hrow⟩ := h.placed 0 t (by rw [preorderAll_cons]; rfl) hloaded
  exact ⟨e, he, by rw [hrow]; simp⟩

theorem mem_head (t : EventTree) (ts : List EventTree) : t ∈ preorderAll (t :: ts) := by
  rw [preorderAll_cons]
  exact List.mem_cons_self

/-- The number of events below a node is exact, also where it is counted. -/
theorem total (h : Shown state base (t :: ts)) (c : Bool) :
    getTotalNumChildren state.childrenSummary (.mk t.counter c (nodes t.children)) =
      (preorderAll t.children).length := by
  rw [getTotalNumChildren]
  cases hn : state.childrenSummary.get? t.counter with
  | some n => exact h.exact_total t (mem_head t ts) n hn
  | none =>
    have hchildren : t.children = [] := by
      by_contra hne
      have hsome := h.has_total t (mem_head t ts) hne
      rw [hn] at hsome
      cases hsome
    rw [hchildren, nodes, preorderAll, totalOf]
    rfl

theorem unloaded_below (h : Shown state base (t :: ts)) (ht : t.loaded = none) :
    visible t = t.preorder := by
  rw [visible_eq, preorder_eq, ht, if_neg (Option.some_ne_none true).symm,
    visibleAll_of_unloaded (h.closed t (mem_head t ts) ht)]

/-- Visible and hidden events are all events. -/
theorem visible_add_collapsed (h : Shown state base ts) :
    (visibleAll ts).length + collapsedOf state.childrenSummary (nodes ts) = (preorderAll ts).length := by
  induction ts using forest_induction generalizing base with
  | nil => rw [visibleAll, nodes, collapsedOf, preorderAll]; rfl
  | cons t ts ihc iht =>
    have hrest := iht h.of_rest
    rw [visibleAll, preorderAll, List.length_append, List.length_append]
    cases ht : t.loaded with
    | none =>
      rw [nodes_cons_of_unloaded ht, h.unloaded_below ht]
      omega
    | some c =>
      rw [nodes_cons_of_loaded ht, collapsedOf, visible_eq, preorder_eq, ht, List.length_cons, List.length_cons,
        getNumCollapsedChildren, h.total]
      cases c with
      | true =>
        simp only [if_true, List.length_nil]
        omega
      | false =>
        have hchildren := ihc h.of_children
        simp only [Option.some.injEq, Bool.false_eq_true, if_false]
        omega

theorem visible_add_collapsed_head (h : Shown state base (t :: ts)) {c : Bool} (ht : t.loaded = some c) :
    (visible t).length + getNumCollapsedChildren state.childrenSummary (.mk t.counter c (nodes t.children)) =
      t.preorder.length := by
  have hall := h.visible_add_collapsed
  have hrest := h.of_rest.visible_add_collapsed
  rw [visibleAll, preorderAll, nodes_cons_of_loaded ht, collapsedOf, List.length_append,
    List.length_append] at hall
  omega

/-! ### Rows between loaded events -/

/-- The rows before the first loaded one of the siblings are of unloaded events. -/
theorem before_first (h : Shown state base ts) :
    (nodes ts = [] → ∀ v : ℕ, (visibleAll ts)[v]?.bind node = none) ∧
      ∀ n, (nodes ts).head? = some n → ∃ e, state.eventOf n = some e ∧ base ≤ e.rowNumber ∧
        ∀ v : ℕ, base + v < e.rowNumber → (visibleAll ts)[v]?.bind node = none := by
  induction ts generalizing base with
  | nil =>
    refine ⟨fun _ v => by rw [visibleAll]; rfl, fun n hn => ?_⟩
    rw [nodes] at hn
    cases hn
  | cons t ts ih =>
    cases ht : t.loaded with
    | none =>
      obtain ⟨hnil, hhead⟩ := ih h.of_rest
      have hvisible : visibleAll (t :: ts) = t.preorder ++ visibleAll ts := by
        rw [visibleAll, h.unloaded_below ht]
      have hfront : ∀ v : ℕ, v < t.preorder.length → (visibleAll (t :: ts))[v]?.bind node = none := by
        intro v hv
        have hmem : t.preorder[v] ∈ preorderAll (t :: ts) := by
          rw [preorderAll]
          exact List.mem_append_left _ (List.getElem_mem hv)
        rw [hvisible, List.getElem?_append_left hv, List.getElem?_eq_getElem hv, Option.bind_some]
        refine node_of_unloaded ?_
        have hbelow : t.preorder[v] ∈ t :: preorderAll t.children := preorder_eq t ▸ List.getElem_mem hv
        rcases List.mem_cons.mp hbelow with heq | hbelow
        · rw [heq]
          exact ht
        · exact h.closed t (mem_head t ts) ht _ hbelow
      have hback : ∀ v : ℕ, t.preorder.length ≤ v →
          (visibleAll (t :: ts))[v]? = (visibleAll ts)[v - t.preorder.length]? := by
        intro v hv
        rw [hvisible, List.getElem?_append_right hv]
      rw [nodes_cons_of_unloaded ht]
      constructor
      · intro hnodes v
        rcases Nat.lt_or_ge v t.preorder.length with hv | hv
        · exact hfront v hv
        · rw [hback v hv]
          exact hnil hnodes _
      · intro n hn
        obtain ⟨e, he, hbase, hrows⟩ := hhead n hn
        refine ⟨e, he, by omega, fun v hv => ?_⟩
        rcases Nat.lt_or_ge v t.preorder.length with hlt | hge
        · exact hfront v hlt
        · rw [hback v hge]
          exact hrows _ (by omega)
    | some c =>
      rw [nodes_cons_of_loaded ht]
      refine ⟨fun hnodes => absurd hnodes (List.cons_ne_nil _ _), fun n hn => ?_⟩
      obtain rfl := Option.some.inj hn
      obtain ⟨e, he, hrow⟩ := h.head_event (by rw [ht]; exact Option.some_ne_none c)
      exact ⟨e, he, by omega, fun v hv => by omega⟩

/-- The last descendant of loaded nodes is loaded. -/
theorem last_event (h : Shown state base ts) {last : Node}
    (hlast : getLastDescendantNode (nodes ts) = some last) : ∃ e, state.eventOf last = some e := by
  induction ts using forest_induction generalizing base last with
  | nil =>
    rw [nodes, getLastDescendantNode] at hlast
    cases hlast
  | cons t ts ihc iht =>
    cases ht : t.loaded with
    | none =>
      rw [nodes_cons_of_unloaded ht] at hlast
      exact iht h.of_rest hlast
    | some c =>
      rw [nodes_cons_of_loaded ht, getLastDescendantNode] at hlast
      cases hrest : getLastDescendantNode (nodes ts) with
      | some l =>
        rw [hrest] at hlast
        exact iht h.of_rest (hrest.trans hlast)
      | none =>
        rw [hrest, lastDescendant] at hlast
        obtain rfl := Option.some.inj hlast
        cases hbelow : getLastDescendantNode (nodes t.children) with
        | some l => exact ihc h.of_children hbelow
        | none =>
          obtain ⟨e, he, -⟩ := h.head_event (by rw [ht]; exact Option.some_ne_none c)
          exact ⟨e, he⟩

/-- The guess behind the last descendant of a node does not throw, and finds no node. -/
theorem guess (h : Shown state base (t :: ts)) {c : Bool} (ht : t.loaded = some c) (row : ℤ) :
    ∃ result, state.guessBehind (lastDescendant (.mk t.counter c (nodes t.children))) row = some result ∧
      result.node = none := by
  have hlast : ∃ e, state.eventOf (lastDescendant (.mk t.counter c (nodes t.children))) = some e := by
    rw [lastDescendant]
    cases hbelow : getLastDescendantNode (nodes t.children) with
    | some l => exact h.of_children.last_event hbelow
    | none =>
      obtain ⟨e, he, -⟩ := h.head_event (by rw [ht]; exact Option.some_ne_none c)
      exact ⟨e, he⟩
  obtain ⟨e, he⟩ := hlast
  exact ⟨_, by rw [State.guessBehind, he]; rfl, rfl⟩

/-! ### The search -/

/-- In the children of a node. -/
theorem findRowInChildren_spec (h : Shown state base (t :: ts)) {c : Bool} (ht : t.loaded = some c) (v : ℕ)
    (hchildren : ∃ result, state.findRow (nodes t.children) (base + 1 + v) = some result ∧
      result.node = (visibleAll t.children)[v]?.bind node) :
    ∃ result, state.findRowInChildren (.mk t.counter c (nodes t.children)) (base + 1 + v) = some result ∧
      result.node = (visibleAll t.children)[v]?.bind node := by
  obtain ⟨e, he, -⟩ := h.head_event (by rw [ht]; exact Option.some_ne_none c)
  obtain ⟨hnil, hhead⟩ := h.of_children.before_first
  rw [State.findRowInChildren, he, Option.bind_eq_bind, Option.bind_some]
  cases hfirst : (nodes t.children).head? with
  | none =>
    exact ⟨_, rfl, (hnil (List.head?_eq_none_iff.mp hfirst) v).symm⟩
  | some n =>
    obtain ⟨e', he', -, hrows⟩ := hhead n hfirst
    rw [Option.bind_some, he']
    dsimp only
    split_ifs with hlt
    · exact ⟨_, rfl, (hrows v hlt).symm⟩
    · exact hchildren

/-- A row before all siblings. -/
theorem findRow_before (h : Shown state base ts) {row : ℤ} (hrow : row < base) :
    ∃ result, state.findRow (nodes ts) row = some result ∧ result.node = none := by
  induction ts generalizing base with
  | nil =>
    rw [nodes, State.findRow]
    exact ⟨_, rfl, rfl⟩
  | cons t ts ih =>
    cases ht : t.loaded with
    | none =>
      rw [nodes_cons_of_unloaded ht]
      exact ih h.of_rest (by omega)
    | some c =>
      obtain ⟨e, he, hbase⟩ := h.head_event (by rw [ht]; exact Option.some_ne_none c)
      have he' : state.eventOf (.mk t.counter c (nodes t.children)) = some e := he
      have hcount := h.visible_add_collapsed_head ht
      have htotal := h.total c
      have hpos : 0 < (visible t).length := by
        rw [visible_eq]
        exact Nat.succ_pos _
      have hlength := congrArg List.length (preorder_eq t)
      rw [List.length_cons] at hlength
      rw [nodes_cons_of_loaded ht, State.findRow, he', Option.bind_eq_bind, Option.bind_some,
        if_neg (by omega), htotal]
      dsimp only
      rw [if_pos (by omega), State.findRowInChildren, he, Option.bind_eq_bind, Option.bind_some]
      cases hfirst : (nodes t.children).head? with
      | none => exact ⟨_, rfl, rfl⟩
      | some n =>
        obtain ⟨e', he', hbase', -⟩ := h.of_children.before_first.2 n hfirst
        rw [Option.bind_some, he']
        dsimp only
        rw [if_pos (by omega)]
        exact ⟨_, rfl, rfl⟩

/-- Siblings from a row on are searched for the visible event of their number. -/
theorem findRow_spec (h : Shown state base ts) (v : ℕ) :
    ∃ result, state.findRow (nodes ts) (base + v) = some result ∧
      result.node = (visibleAll ts)[v]?.bind node := by
  induction ts using forest_induction generalizing base v with
  | nil =>
    rw [nodes, visibleAll, State.findRow]
    exact ⟨_, rfl, rfl⟩
  | cons t ts ihc iht =>
    cases ht : t.loaded with
    | none =>
      have hvisible : visibleAll (t :: ts) = t.preorder ++ visibleAll ts := by
        rw [visibleAll, h.unloaded_below ht]
      rw [nodes_cons_of_unloaded ht]
      rcases Nat.lt_or_ge v t.preorder.length with hv | hv
      · -- An event at or below the unloaded one.
        have hrow : base + (v : ℤ) < base + t.preorder.length := by omega
        obtain ⟨result, hresult, hnode⟩ := h.of_rest.findRow_before hrow
        refine ⟨result, hresult, hnode.trans ?_⟩
        obtain ⟨hnil, hhead⟩ := h.before_first
        rw [nodes_cons_of_unloaded ht] at hnil hhead
        cases hfirst : (nodes ts).head? with
        | none => exact (hnil (List.head?_eq_none_iff.mp hfirst) v).symm
        | some n =>
          obtain ⟨e, he, -, hrows⟩ := hhead n hfirst
          obtain ⟨e', he', hbase, -⟩ := h.of_rest.before_first.2 n hfirst
          obtain rfl := Option.some.inj (he.symm.trans he')
          exact (hrows v (by omega)).symm
      · obtain ⟨result, hresult, hnode⟩ := iht h.of_rest (v - t.preorder.length)
        refine ⟨result, ?_, ?_⟩
        · rw [← hresult]
          congr 1
          omega
        · rw [hnode, hvisible, List.getElem?_append_right hv]
    | some c =>
      obtain ⟨e, he, hbase⟩ := h.head_event (by rw [ht]; exact Option.some_ne_none c)
      have he' : state.eventOf (.mk t.counter c (nodes t.children)) = some e := he
      have hcount := h.visible_add_collapsed_head ht
      have htotal := h.total c
      have hlength := congrArg List.length (preorder_eq t)
      rw [List.length_cons] at hlength
      rw [nodes_cons_of_loaded ht, State.findRow, he', Option.bind_eq_bind, Option.bind_some, htotal, visibleAll]
      rcases Nat.eq_zero_or_pos v with rfl | hv
      · -- The event itself.
        rw [if_pos (by omega)]
        refine ⟨_, rfl, ?_⟩
        rw [visible_eq, List.cons_append, List.getElem?_cons_zero, Option.bind_some, node_of_loaded ht]
      · rw [if_neg (by omega)]
        dsimp only
        rcases Nat.lt_or_ge v (visible t).length with hlt | hge
        · -- A visible event below it.
          have hflag : c = false := by
            cases c with
            | false => rfl
            | true =>
              rw [visible_eq, ht, if_pos rfl] at hlt
              simp at hlt
              omega
          subst hflag
          obtain ⟨v, rfl⟩ := Nat.exists_eq_succ_of_ne_zero hv.ne'
          have hvisible : visible t = t :: visibleAll t.children := by
            rw [visible_eq, ht]
            rfl
          obtain ⟨result, hresult, hnode⟩ := h.findRowInChildren_spec ht v (ihc h.of_children v)
          rw [if_pos (by omega)]
          refine ⟨result, ?_, ?_⟩
          · rw [← hresult]
            congr 1
            push_cast
            omega
          · rw [hnode, List.getElem?_append_left hlt, hvisible, List.getElem?_cons_succ]
        · -- An event behind all below it: the row skips the hidden ones.
          have hrow : base + (v : ℤ) +
              (getNumCollapsedChildren state.childrenSummary (.mk t.counter c (nodes t.children)) : ℤ) =
                base + t.preorder.length + (v - (visible t).length : ℕ) := by
            omega
          obtain ⟨hnil, hhead⟩ := h.of_rest.before_first
          rw [if_neg (by omega), hrow, List.getElem?_append_right hge]
          cases hfirst : (nodes ts).head? with
          | none =>
            obtain ⟨result, hresult, hnode⟩ :=
              h.guess ht (base + t.preorder.length + (v - (visible t).length : ℕ))
            exact ⟨result, hresult, hnode.trans (hnil (List.head?_eq_none_iff.mp hfirst) _).symm⟩
          | some n =>
            obtain ⟨e', he', -, hrows⟩ := hhead n hfirst
            dsimp only
            rw [he', Option.bind_some]
            split_ifs with hgap
            · obtain ⟨result, hresult, hnode⟩ :=
                h.guess ht (base + t.preorder.length + (v - (visible t).length : ℕ))
              exact ⟨result, hresult, hnode.trans (hrows _ hgap).symm⟩
            · exact iht h.of_rest _

end Shown

/-- A job of which some events are loaded, with every event above a loaded one, and some of these collapsed. -/
structure Job (υ : Type) where
  state : State υ
  forest : List EventTree
  tree_eq : state.tree = nodes forest
  shown : Shown state 0 forest

/-- The lookup of a row never throws: it gives the visible event of this number with its node if the event is
loaded, and nothing if it is not or if there are fewer visible events. -/
theorem rows_exact (job : Job υ) (r : ℕ) :
    job.state.getEventForRow r = some ((visibleAll job.forest)[r]?.bind fun t =>
        t.node.map fun n => (n, job.state.events.get? t.counter)) ∧
      ∀ t ∈ preorderAll job.forest, t.loaded ≠ none → (job.state.events.get? t.counter).isSome = true := by
  constructor
  · obtain ⟨result, hresult, hnode⟩ := job.shown.findRow_spec r
    rw [zero_add] at hresult
    rw [State.getEventForRow, job.tree_eq, hresult, Option.bind_eq_bind, Option.bind_some, hnode]
    cases (visibleAll job.forest)[r]? with
    | none => rfl
    | some t =>
      cases ht : t.loaded with
      | none => rw [Option.bind_some, Option.bind_some, node_of_unloaded ht]; rfl
      | some c => rw [Option.bind_some, Option.bind_some, node_of_loaded ht]; rfl
  · intro t ht hloaded
    obtain ⟨i, hi⟩ := List.mem_iff_getElem?.mp ht
    obtain ⟨e, he, -⟩ := job.shown.placed i t hi hloaded
    rw [he]
    rfl

/-- A collapsed play with a loaded task, an event that is not loaded and another one. -/
def partlyLoaded : Job String where
  state :=
    { tree := nodes [.mk 1 (some true) [.mk 2 (some false) []], .mk 3 none [], .mk 4 (some false) []]
      events := ((Dict.empty.set 1 ⟨1, "play", none, 0⟩).set 2 ⟨2, "task", some "play", 1⟩).set 4 ⟨4, "stats", none, 3⟩
      uuidMap := ((Dict.empty.set "play" 1).set "task" 2).set "stats" 4
      eventsWithoutParents := .empty
      childrenSummary := Dict.empty.set 1 1
      metaEventParentUuid := .empty
      isAllCollapsed := false }
  forest := [.mk 1 (some true) [.mk 2 (some false) []], .mk 3 none [], .mk 4 (some false) []]
  tree_eq := rfl
  shown := by
    have hall : preorderAll [.mk 1 (some true) [.mk 2 (some false) []], .mk 3 none [], .mk 4 (some false) []] =
        [.mk 1 (some true) [.mk 2 (some false) []], .mk 2 (some false) [], .mk 3 none [],
          .mk 4 (some false) []] := rfl
    refine ⟨fun i t hi hloaded => ?_, fun t ht hnone => ?_, fun t ht n hn => ?_, fun t ht hne => ?_⟩
    · rw [hall] at hi
      rcases i with _ | _ | _ | _ | i
      · obtain rfl := Option.some.inj hi
        exact ⟨_, rfl, rfl⟩
      · obtain rfl := Option.some.inj hi
        exact ⟨_, rfl, rfl⟩
      · obtain rfl := Option.some.inj hi
        exact absurd rfl hloaded
      · obtain rfl := Option.some.inj hi
        exact ⟨_, rfl, rfl⟩
      · cases hi
    · rw [hall] at ht
      simp only [List.mem_cons, List.not_mem_nil, or_false] at ht
      rcases ht with rfl | rfl | rfl | rfl
      · cases hnone
      · cases hnone
      · exact fun d hd => absurd hd List.not_mem_nil
      · cases hnone
    · rw [hall] at ht
      simp only [List.mem_cons, List.not_mem_nil, or_false] at ht
      rcases ht with rfl | rfl | rfl | rfl
      · exact (Option.some.inj hn).symm
      · cases hn
      · cases hn
      · cases hn
    · rw [hall] at ht
      simp only [List.mem_cons, List.not_mem_nil, or_false] at ht
      rcases ht with rfl | rfl | rfl | rfl
      · rfl
      · exact absurd rfl hne
      · exact absurd rfl hne
      · exact absurd rfl hne

/-- The collapsed event hides the task, and the event that is not loaded keeps its row. -/
example : (List.range 4).map (fun r => (partlyLoaded.state.getEventForRow r).map fun found =>
    found.map fun row => row.1.eventIndex) = [some (some 1), some none, some (some 4), some none] := by decide

end Forail.JobEvents
