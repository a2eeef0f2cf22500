import Forail.Base.DoubleSplit
import Mathlib.Data.Rat.Defs

/-! Host filters over facts (`main/utils/filters.py`): the key `ansible_facts__p1__...__pn` becomes a
containment pattern for the database. The pattern is built by changing dictionaries and lists that are
already part of it, so that the loop works on a heap of Python objects. -/

namespace Forail.SmartFilter

abbrev Str := List Char

/-- A value of a query. -/
inductive Scalar
  | null
  | bool (b : Bool)
  | number (q : ℚ)
  | text (s : Str)
  deriving DecidableEq

/-- A Python value: a scalar or the address of an object. -/
inductive Ref
  | scalar (v : Scalar)
  | object (address : ℕ)
  deriving DecidableEq

/-- A mutable object. The entries of a dictionary stand in their order of insertion. -/
inductive Cell
  | list (items : List Ref)
  | dict (entries : List (Str × Ref))
  deriving DecidableEq

/-- The objects by address. -/
abbrev Heap := List Cell

def searchableRelationship : Str := "ansible_facts".toList

def stripQuotesTraditionalLogic : Scalar → Scalar
  | .text s => .text (if ['"'] <+: s ∧ ['"'] <:+ s then (s.drop 1).dropLast else s)
  | v => v

def stripQuotesJsonLogic : Scalar → Scalar
  | .text s =>
    .text (if ['"'] <+: s ∧ ['"'] <:+ s ∧ s ≠ "\"null\"".toList then (s.drop 1).dropLast else s)
  | v => v

/-- `__exact` is taken off; of another lookup there is only a message in the log. -/
def stripLookup (k lookup : Str) : Str :=
  if "__".toList ++ lookup <:+ k then
    if "__".toList ++ lookup = "__exact".toList then k.take (k.length - ("__".toList ++ lookup).length)
    else k
  else k

def stripLookups (lookups : List Str) (k : Str) : Str := lookups.foldl stripLookup k

def stripRelationship (k : Str) : Str :=
  if searchableRelationship ++ "__".toList <+: k then k.drop (searchableRelationship.length + 2)
  else k.drop searchableRelationship.length

/-- The variables of the loop over the pieces. `last_v` and `last_kv` are set together. -/
structure Loop where
  heap : Heap
  assembledV : Option ℕ
  lastVKv : Option (ℕ × ℕ)

/-- A list is extended and a dictionary replaced in the one that holds it, under that one's first key. -/
def put (heap : Heap) (lastV lastKv : ℕ) (r : Ref) : Option Heap :=
  match heap[lastV]? with
  | some (.list items) => some (heap.set lastV (.list (items ++ [r])))
  | some (.dict _) =>
    match heap[lastKv]? with
    | some (.dict ((key, _) :: entries)) => some (heap.set lastKv (.dict ((key, r) :: entries)))
    | _ => none
  | none => none

def Loop.putLast (s : Loop) (r : Ref) : Option Heap := do
  let (lastV, lastKv) ← s.lastVKv
  put s.heap lastV lastKv r

/-- The segment steps into a list. -/
def StepsInto (piece : Str) : Prop := "[]".toList <:+ piece

instance (piece : Str) : Decidable (StepsInto piece) := inferInstanceAs (Decidable (_ <:+ _))

def keyOf (piece : Str) : Str := if StepsInto piece then piece.take (piece.length - 2) else piece

/-- One piece: `new_kv` and then `new_v` are allocated. -/
def assemble (s : Loop) (piece : Str) : Option Loop := do
  let newKv := s.heap.length
  let newV := newKv + 1
  let heap := s.heap ++ [.dict [(keyOf piece, .object newV)],
    if StepsInto piece then .list [] else .dict []]
  match s.lastVKv with
  | none => some ⟨heap, some newKv, some (newV, newKv)⟩
  | some (lastV, lastKv) => do
    let heap ← put heap lastV lastKv (.object newKv)
    some ⟨heap, s.assembledV, some (newV, newKv)⟩

/-- The key and the value of the query, and the objects. `lookups` are the keys of
`models.JSONField.get_lookups()`. -/
def jsonPathToContains (lookups : List Str) (k : Str) (v : Scalar) : Option (Str × Ref × Heap) := do
  if ¬ searchableRelationship <+: k then
    return (k, .scalar (stripQuotesTraditionalLogic v), [])
  let pieces := splitDouble '_' (stripRelationship (stripLookups lookups k))
  let s ← pieces.foldlM assemble ⟨[], none, none⟩
  let assembledV ← s.assembledV
  let heap ← s.putLast (.scalar (stripQuotesJsonLogic v))
  return (searchableRelationship ++ "__contains".toList, .object assembledV, heap)

/-! ### What the database does with the pattern -/

/-- A `jsonb` value. -/
inductive Json
  | scalar (v : Scalar)
  | array (items : List Json)
  | object (entries : List (Str × Json))

mutual

/-- Containment below the top: an object has the keys, an array has elements for those of the pattern. -/
def containedIn : Json → Json → Bool
  | .scalar v, .scalar w => v = w
  | .array ps, .array ds => itemsIn ps ds
  | .object ps, .object ds => entriesIn ps ds
  | _, _ => false

def itemsIn : List Json → List Json → Bool
  | [], _ => true
  | p :: ps, ds => ds.any (containedIn p) && itemsIn ps ds

def entriesIn : List (Str × Json) → List (Str × Json) → Bool
  | [], _ => true
  | (k, p) :: ps, ds => ((ds.lookup k).any (containedIn p)) && entriesIn ps ds

end

/-- `d @> pattern`, where an array contains a scalar of its own too. -/
def contains (d pattern : Json) : Bool :=
  containedIn pattern d ||
    match d, pattern with
    | .array ds, .scalar v => ds.any (containedIn (.scalar v))
    | _, _ => false

/-- The objects as a `jsonb` value, with the addresses of those that were read, as often as they were. -/
def read (heap : Heap) : ℕ → Ref → Option (Json × List ℕ)
  | _, .scalar v => some (.scalar v, [])
  | 0, .object _ => none
  | depth + 1, .object a =>
    match heap[a]? with
    | none => none
    | some (.list items) => do
      let read ← items.mapM (read heap depth)
      some (.array (read.map Prod.fst), a :: read.flatMap Prod.snd)
    | some (.dict entries) => do
      let read ← entries.mapM fun e => read heap depth e.2
      some (.object ((entries.map Prod.fst).zip (read.map Prod.fst)), a :: read.flatMap Prod.snd)

/-! ### Following a path -/

def Json.member (key : Str) : Json → Option Json
  | .object entries => entries.lookup key
  | _ => none

def Json.elements : Json → List Json
  | .array items => items
  | _ => []

/-- The scalar is reached along the path, of which a segment `p[]` steps into some element of the array
under `p`. -/
def Reached : Json → List Str → Scalar → Prop
  | d, [], v => d = .scalar v
  | d, p :: ps, v => ∃ w, d.member (keyOf p) = some w ∧
    if StepsInto p then ∃ x ∈ w.elements, Reached x ps v else Reached w ps v

/-- One level of a pattern, with a single key. -/
def level (p : Str) (below : Json) : Json :=
  .object [(keyOf p, if StepsInto p then .array [below] else below)]

def nested (ps : List Str) (v : Scalar) : Json := ps.foldr level (.scalar v)

end Forail.SmartFilter
