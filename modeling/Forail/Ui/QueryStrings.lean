import Forail.Base.Dict
import Forail.Base.UriComponent

/-! Parameters in query strings (`qs.js`). The parameters of a namespace are read from the query and written to
it, new ones are joined with old ones and others are removed. Objects have prototypes, from which keys that are
not their own are inherited. -/

namespace Forail.QueryStrings

open UriComponent

/-- A string, an integer or a value that comes with the language. -/
inductive Item (β : Type)
  | str (s : Str)
  | num (n : ℤ)
  | builtin (b : β)
deriving DecidableEq

/-- A list has the address of its object, or none if it is a new one. -/
inductive Val (β : Type)
  | undefined
  | null
  | nan
  | one (i : Item β)
  | many (address : Option ℕ) (items : List (Item β))

/-- What the language gives: the values that objects and arrays inherit, as texts, the texts of numbers, and the
double that is nearest to a whole number. -/
structure Platform (β : Type) where
  objectPrototype : β
  ofObject : Str → Option β
  ofArray : Str → Option β
  builtinText : β → Str
  numberText : ℤ → Str
  nearest : ℤ → ℤ
  ofObject_dot : ∀ k, '.' ∈ k → ofObject k = none
  ofArray_dot : ∀ k, '.' ∈ k → ofArray k = none
  numberText_zero : numberText 0 = ['0']
  nearest_zero : nearest 0 = 0

/-- An object; its prototype is `Object.prototype`, or an array. -/
structure Obj (β : Type) where
  own : Dict Str (Val β)
  proto : Option (List (Item β))

structure QSConfig (β : Type) where
  «namespace» : Str
  defaultParams : Dict Str (Val β)
  integerFields : List Str

variable {β : Type}

namespace Val

def items : Val β → List (Item β)
  | one i => [i]
  | many _ items => items
  | _ => []

/-- False, and not the empty string. -/
def isMissing : Val β → Bool
  | undefined => true
  | null => true
  | nan => true
  | one (.num n) => n = 0
  | _ => false

def isFalsy : Val β → Bool
  | one (.str s) => s.isEmpty
  | v => v.isMissing

def isNullish : Val β → Bool
  | undefined => true
  | null => true
  | _ => false

variable [DecidableEq β]

def strictEq : Val β → Val β → Bool
  | undefined, undefined => true
  | null, null => true
  | one i, one j => i = j
  | many (some a) _, many (some b) _ => a = b
  | _, _ => false

end Val

/-! ### Numbers and texts -/

def isWhitespace (c : Char) : Bool :=
  c.toNat ∈ [9, 10, 11, 12, 13, 32, 0xA0, 0x1680, 0x2028, 0x2029, 0x202F, 0x205F, 0x3000, 0xFEFF] ∨
    (0x2000 ≤ c.toNat ∧ c.toNat ≤ 0x200A)

def digitsValue (digits : Str) : ℕ := digits.foldl (fun n c => 10 * n + (c.toNat - 48)) 0

def joinWith (separator : Char) (parts : List Str) : Str := [separator].intercalate parts

namespace Platform

variable (platform : Platform β)

/-- The digits at the beginning, none for `NaN`. -/
def parseDigits (s : Str) : Option ℤ :=
  let digits := s.takeWhile Char.isDigit
  if digits.isEmpty then none else some (digitsValue digits)

/-- `parseInt` to the base 10. -/
def parseInt (s : Str) : Val β :=
  let value := match s.dropWhile isWhitespace with
    | '-' :: s => (parseDigits s).map (- ·)
    | '+' :: s => parseDigits s
    | s => parseDigits s
  match value with
  | some n => .one (.num (platform.nearest n))
  | none => .nan

def itemText : Item β → Str
  | .str s => s
  | .num n => platform.numberText n
  | .builtin b => platform.builtinText b

def valueText : Val β → Str
  | .undefined => "undefined".toList
  | .null => "null".toList
  | .nan => "NaN".toList
  | .one i => platform.itemText i
  | .many _ items => joinWith ',' (items.map platform.itemText)

/-! ### Objects -/

/-- An array's element at a key. -/
def elementOf (items : List (Item β)) (k : Str) : Option (Item β) :=
  ((List.range items.length).find? fun i => Nat.toDigits 10 i = k).bind fun i => items[i]?

def inherited (proto : Option (List (Item β))) (k : Str) : Val β :=
  match proto with
  | none => match platform.ofObject k with
    | some b => .one (.builtin b)
    | none => .undefined
  | some items => match elementOf items k with
    | some i => .one i
    | none =>
      if k = "length".toList then .one (.num items.length)
      else match platform.ofArray k with
        | some b => .one (.builtin b)
        | none => .undefined

end Platform

def protoKey : Str := "__proto__".toList

namespace Obj

def empty : Obj β := ⟨.empty, none⟩

def protoVal (platform : Platform β) (o : Obj β) : Val β :=
  match o.proto with
  | none => .one (.builtin platform.objectPrototype)
  | some items => .many none items

def lookup (platform : Platform β) (o : Obj β) (k : Str) : Val β :=
  match o.own.get? k with
  | some v => v
  | none => if k = protoKey then o.protoVal platform else platform.inherited o.proto k

/-- An array that is put at `__proto__` becomes the prototype; what is no object is ignored there. -/
def assign (o : Obj β) (k : Str) (v : Val β) : Obj β :=
  if k = protoKey ∧ (o.own.get? k).isNone then
    match v with
    | .many _ items => { o with proto := some items }
    | _ => o
  else { o with own := o.own.set k v }

end Obj

/-! ### Merging -/

variable [DecidableEq β]

def dedupeArray (arr : List (Item β)) : Val β :=
  match arr.eraseDups with
  | [i] => .one i
  | deduped => .many none deduped

def mergeParam (oldVal newVal : Val β) : Val β :=
  if newVal.isMissing then oldVal
  else if oldVal.isMissing then newVal
  else dedupeArray (oldVal.items ++ newVal.items)

variable (platform : Platform β)

def mergeParams (oldParams newParams : Dict Str (Val β)) : Obj β :=
  let lookup := fun params : Dict Str (Val β) => (Obj.mk params none).lookup platform
  let merged := oldParams.keys.foldl
    (fun merged key => merged.assign key (mergeParam (lookup oldParams key) (lookup newParams key))) Obj.empty
  newParams.keys.foldl
    (fun merged key => if (merged.lookup platform key).isFalsy then merged.assign key (lookup newParams key) else merged)
    merged

/-! ### Removing -/

/-- `removeParam` of a value that is no list. -/
def removeValue (oldVal deleteVal : Val β) : Val β :=
  if oldVal.strictEq deleteVal then .null
  else match oldVal with
    | .many address items =>
      let items := match deleteVal with
        | .one i => items.erase i
        | _ => items
      match items with
      | [i] => .one i
      | items => .many address items
    | oldVal => oldVal

def removeParam (oldVal deleteVal : Val β) : Val β :=
  match deleteVal with
  | .many _ items =>
    if oldVal.strictEq deleteVal then .null
    else items.foldl (fun oldVal i => removeValue oldVal (.one i)) oldVal
  | deleteVal => removeValue oldVal deleteVal

def removeParams (config : QSConfig β) (oldParams paramsToRemove : Dict Str (Val β)) : Obj β :=
  let lookup := fun params : Dict Str (Val β) => (Obj.mk params none).lookup platform
  oldParams.keys.foldl
    (fun updated key =>
      let valToRemove := lookup paramsToRemove key
      let updatedValue := removeParam (lookup oldParams key)
        (if key ∈ config.integerFields then platform.parseInt (platform.valueText valToRemove) else valToRemove)
      if updatedValue.isNullish ∧ (updated.own.get? key).isSome then updated else updated.assign key updatedValue)
    ⟨config.defaultParams, none⟩

/-! ### Reading -/

/-- The keys and values of a query, still encoded. -/
def splitQuery (queryString : Str) : List (Str × Option Str) :=
  let qs := match queryString with
    | '?' :: qs => qs
    | qs => qs
  (qs.splitOn '&').map fun s =>
    match s.splitOn '=' with
    | key :: value :: _ => (key, some value)
    | [key] => (key, none)
    | [] => ([], none)

/-- A missing value is read as the text of `undefined`. -/
def rawText (rawValue : Option Str) : Str := rawValue.getD "undefined".toList

def namespaceMatches (ns fieldname : Str) : Bool :=
  if ns = [] then '.' ∉ fieldname else (ns ++ ['.']) <+: fieldname

def parseValue (config : QSConfig β) (key : Str) (rawValue : Option Str) : Option (Val β) :=
  if key ∈ config.integerFields then some (platform.parseInt (rawText rawValue))
  else (decodeURIComponent (rawText rawValue)).map fun s => .one (.str s)

/-- None where it throws. -/
def stringToObject (config : QSConfig β) (qs : Str) : Option (Obj β) :=
  (splitQuery qs).foldlM
    (fun params (nsKey, rawValue) =>
      if nsKey = [] ∨ ¬namespaceMatches config.namespace nsKey then some params
      else do
        let key ← decodeURIComponent
          (if config.namespace = [] then nsKey else nsKey.drop (config.namespace.length + 1))
        let value ← parseValue platform config key rawValue
        some (params.assign key (mergeParam (params.lookup platform key) value)))
    Obj.empty

def parseQueryString (config : QSConfig β) (queryString : Str) : Option (Dict Str (Val β)) :=
  if queryString = [] then some config.defaultParams
  else do
    let params ← stringToObject platform config queryString
    some (config.defaultParams.update params.own.entries)

def parseFullQueryString (queryString : Str) : Option (Obj β) :=
  (splitQuery queryString).foldlM
    (fun allParams (rawKey, rawValue) =>
      if rawKey = [] then some allParams
      else do
        let key ← decodeURIComponent rawKey
        let value ← decodeURIComponent (rawText rawValue)
        some (allParams.assign key (mergeParam (allParams.lookup platform key) (.one (.str value)))))
    Obj.empty

/-! ### Writing -/

def encodePair (key value : Str) : Str := encodeURIComponent key ++ '=' :: encodeURIComponent value

def encodeValue (key : Str) : Val β → Str
  | .many _ items => joinWith '&' (items.map fun val => encodePair key (platform.itemText val))
  | value => encodePair key (platform.valueText value)

/-- The code units by which `sort` compares. -/
def codeUnits (s : Str) : List ℕ :=
  s.flatMap fun c =>
    if c.toNat < 0x10000 then [c.toNat]
    else [0xD800 + (c.toNat - 0x10000) / 0x400, 0xDC00 + (c.toNat - 0x10000) % 0x400]

def unitsLE : List ℕ → List ℕ → Bool
  | [], _ => true
  | _ :: _, [] => false
  | m :: s, n :: t => m < n ∨ m = n ∧ unitsLE s t

def sortKeys (keys : List Str) : List Str := keys.mergeSort fun a b => unitsLE (codeUnits a) (codeUnits b)

def isNull : Val β → Bool
  | .null => true
  | _ => false

def encodeQueryString (params : Dict Str (Val β)) : Str :=
  let values := (sortKeys params.keys).filterMap fun key => (params.get? key).map fun value => (key, value)
  joinWith '&' ((values.filter fun e => ¬isNull e.2).map fun e => encodeValue platform e.1 e.2)

def fullKey (config : QSConfig β) (key : Str) : Str :=
  if config.namespace = [] then key else config.namespace ++ '.' :: key

/-- A parameter that is removed from the query. -/
def isReset (config : QSConfig β) (key : Str) (val : Val β) : Bool :=
  isNull val ∨ val.strictEq ((Obj.mk config.defaultParams none).lookup platform key)

def updateParam (config : QSConfig β) (allParams : Obj β) (param : Str × Val β) : Obj β :=
  if isReset platform config param.1 param.2 then
    { allParams with own := allParams.own.erase (fullKey config param.1) }
  else allParams.assign (fullKey config param.1) param.2

def updateQueryString (config : QSConfig β) (queryString : Str) (newParams : Dict Str (Val β)) : Option Str := do
  let allParams ← parseFullQueryString platform queryString
  let allParams := newParams.entries.foldl (updateParam platform config) allParams
  some (encodeQueryString platform allParams.own)

end Forail.QueryStrings
