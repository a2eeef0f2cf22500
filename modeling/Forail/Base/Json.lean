import Forail.Base.Percent
import Forail.Base.Value

/-! `json.dumps` and `json.loads`. The reader goes through the text with the scanner of Python, which
yields a value and what is left of the text. The value of a number with a fraction or an exponent is a
parameter; what is accepted does not depend on it. A text that breaks off with an ellipsis is not. -/

namespace Forail.Json

/-! ### The writer -/

def hexDigit (n : ℕ) : Char :=
  ['0', '1', '2', '3', '4', '5', '6', '7', '8', '9', 'a', 'b', 'c', 'd', 'e', 'f'].getD n '0'

/-- An escape of a code unit with four digits. -/
def escapeUnit (n : ℕ) : Str :=
  ['\\', 'u', hexDigit (n / 4096 % 16), hexDigit (n / 256 % 16), hexDigit (n / 16 % 16), hexDigit (n % 16)]

/-- A character inside of a string: printable ASCII characters stand for themselves, those outside the
basic plane are two surrogates. -/
def escape (c : Char) : Str :=
  if c = '"' then ['\\', '"']
  else if c = '\\' then ['\\', '\\']
  else if c = '\n' then ['\\', 'n']
  else if c = '\r' then ['\\', 'r']
  else if c = '\t' then ['\\', 't']
  else if c.toNat = 12 then ['\\', 'f']
  else if c.toNat = 8 then ['\\', 'b']
  else if 32 ≤ c.toNat ∧ c.toNat ≤ 126 then [c]
  else if c.toNat < 65536 then escapeUnit c.toNat
  else escapeUnit (55296 + (c.toNat - 65536) / 1024) ++ escapeUnit (56320 + (c.toNat - 65536) % 1024)

def dumpsString (s : String) : Str := '"' :: s.toList.flatMap escape ++ ['"']

def dumpsFloat (repr : String) : Str :=
  if repr = "nan" then "NaN".toList
  else if repr = "inf" then "Infinity".toList
  else if repr = "-inf" then "-Infinity".toList
  else repr.toList

mutual
/-- `json.dumps`. -/
def dumps : Value → Str
  | .null => "null".toList
  | .bool b => if b then "true".toList else "false".toList
  | .int n => if n < 0 then '-' :: Nat.toDigits 10 n.natAbs else Nat.toDigits 10 n.natAbs
  | .float repr _ => dumpsFloat repr
  | .str s => dumpsString s
  | .list vs => '[' :: dumpsList vs ++ [']']
  | .dict es => '\x7b' :: dumpsEntries es ++ ['\x7d']

def dumpsList : List Value → Str
  | [] => []
  | [v] => dumps v
  | v :: vs => dumps v ++ ", ".toList ++ dumpsList vs

def dumpsEntries : List (String × Value) → Str
  | [] => []
  | [(key, v)] => dumpsString key ++ ": ".toList ++ dumps v
  | (key, v) :: es => dumpsString key ++ ": ".toList ++ dumps v ++ ", ".toList ++ dumpsEntries es
end

/-! ### The reader -/

def isSpace (c : Char) : Bool := c = ' ' || c = '\t' || c = '\n' || c = '\r'

def skipSpace (s : Str) : Str := s.dropWhile isSpace

def isDigit (c : Char) : Bool := '0' ≤ c && c ≤ '9'

def hexValue (c : Char) : Option ℕ :=
  if '0' ≤ c ∧ c ≤ '9' then some (c.toNat - 48)
  else if 'A' ≤ c ∧ c ≤ 'F' then some (c.toNat - 55)
  else if 'a' ≤ c ∧ c ≤ 'f' then some (c.toNat - 87)
  else none

/-- The code unit of an escape. -/
def codeUnit : Str → Option (ℕ × Str)
  | a :: b :: c :: d :: s => do
    let a ← hexValue a
    let b ← hexValue b
    let c ← hexValue c
    let d ← hexValue d
    some (4096 * a + 256 * b + 16 * c + d, s)
  | _ => none

/-- The character of a code unit, with the second surrogate where one follows. A single surrogate, which
is no character here, is replaced. -/
def unicodeEscape (s : Str) : Option (Char × Str) := do
  let (unit, s) ← codeUnit s
  if 55296 ≤ unit ∧ unit < 56320 then
    match s with
    | '\\' :: 'u' :: s' =>
      match codeUnit s' with
      | some (low, s'') =>
        if 56320 ≤ low ∧ low < 57344 then
          some (Char.ofNat (65536 + 1024 * (unit - 55296) + (low - 56320)), s'')
        else some (Char.ofNat 65533, s)
      | none => some (Char.ofNat 65533, s)
    | _ => some (Char.ofNat 65533, s)
  else if 56320 ≤ unit ∧ unit < 57344 then some (Char.ofNat 65533, s)
  else some (Char.ofNat unit, s)

def simpleEscape (c : Char) : Option Char :=
  if c = '"' then some '"'
  else if c = '\\' then some '\\'
  else if c = '/' then some '/'
  else if c = 'b' then some (Char.ofNat 8)
  else if c = 'f' then some (Char.ofNat 12)
  else if c = 'n' then some '\n'
  else if c = 'r' then some '\r'
  else if c = 't' then some '\t'
  else none

/-- `scanstring`: the text after the opening quote up to the closing one. -/
def scanString : ℕ → Str → Str → Option (String × Str)
  | 0, _, _ => none
  | _ + 1, _, [] => none
  | fuel + 1, read, c :: s =>
    if c = '"' then some (String.ofList read.reverse, s)
    else if c = '\\' then
      match s with
      | [] => none
      | 'u' :: s => do
        let (c, s) ← unicodeEscape s
        scanString fuel (c :: read) s
      | e :: s => do
        let c ← simpleEscape e
        scanString fuel (c :: read) s
    else if c.toNat < 32 then none
    else scanString fuel (c :: read) s

/-- The digits at the start, and what follows. -/
def digits (s : Str) : Str × Str := s.span isDigit

/-- The integer part of a number, without leading zeros. -/
def scanInteger (s : Str) : Option (Str × Str) :=
  match s with
  | '0' :: s => some (['0'], s)
  | c :: _ => if isDigit c then some (digits s) else none
  | [] => none

/-- The fraction, where a digit follows the point. -/
def scanFraction (s : Str) : Str × Str :=
  match s with
  | '.' :: s' => if (digits s').1 = [] then ([], s) else ('.' :: (digits s').1, (digits s').2)
  | _ => ([], s)

/-- The sign of an exponent. -/
def scanSign (s : Str) : Str × Str :=
  match s with
  | '+' :: s => (['+'], s)
  | '-' :: s => (['-'], s)
  | s => ([], s)

/-- The exponent, where a digit follows its letter and sign. -/
def scanExponent (s : Str) : Str × Str :=
  match s with
  | e :: s' =>
    if e = 'e' ∨ e = 'E' then
      if (digits (scanSign s').2).1 = [] then ([], s)
      else (e :: (scanSign s').1 ++ (digits (scanSign s').2).1, (digits (scanSign s').2).2)
    else ([], s)
  | [] => ([], s)

/-- The minus in front of a number. -/
def scanMinus (s : Str) : Bool × Str :=
  match s with
  | '-' :: s => (true, s)
  | s => (false, s)

def natOfDigits (ds : Str) : ℕ := ds.foldl (fun n c => 10 * n + (c.toNat - 48)) 0

section Loads
variable (readFloat : Str → Value)

/-- A number, an integer where it has neither fraction nor exponent. -/
def scanNumber (s : Str) : Option (Value × Str) := do
  let (negative, s) := scanMinus s
  let (integer, s) ← scanInteger s
  let (fraction, s) := scanFraction s
  let (exponent, s) := scanExponent s
  let sign : ℤ := if negative then -1 else 1
  some (if fraction = [] ∧ exponent = [] then .int (sign * natOfDigits integer)
    else readFloat ((if negative then ['-'] else []) ++ integer ++ fraction ++ exponent), s)

/-- The values that are words. -/
def words : List (Str × Value) :=
  [("null".toList, .null), ("true".toList, .bool true), ("false".toList, .bool false),
    ("NaN".toList, .float ⟨"nan", by decide⟩ none),
    ("Infinity".toList, .float ⟨"inf", by decide⟩ (some (.fraction "inf"))),
    ("-Infinity".toList, .float ⟨"-inf", by decide⟩ (some (.fraction "-inf")))]

def scanWord (s : Str) : Option (Value × Str) :=
  (words.find? fun w => w.1.isPrefixOf s).map fun w => (w.2, s.drop w.1.length)

mutual
/-- `scan_once`. -/
def scanOnce : ℕ → Str → Option (Value × Str)
  | 0, _ => none
  | _ + 1, [] => none
  | fuel + 1, c :: s =>
    if c = '"' then (scanString (s.length + 1) [] s).map fun r => (.str r.1, r.2)
    else if c = '\x7b' then
      match skipSpace s with
      | '\x7d' :: s => some (.dict [], s)
      | s => (scanEntries fuel [] s).map fun r => (.dict r.1, r.2)
    else if c = '[' then
      match skipSpace s with
      | ']' :: s => some (.list [], s)
      | s => (scanItems fuel [] s).map fun r => (.list r.1, r.2)
    else (scanWord (c :: s)).or (scanNumber readFloat (c :: s))

/-- The entries of an object up to its end; a key that comes again changes its value. -/
def scanEntries : ℕ → List (String × Value) → Str → Option (List (String × Value) × Str)
  | 0, _, _ => none
  | fuel + 1, es, s =>
    match s with
    | '"' :: s =>
      match scanString (s.length + 1) [] s with
      | none => none
      | some (key, s) =>
        match skipSpace s with
        | ':' :: s =>
          match scanOnce fuel (skipSpace s) with
          | none => none
          | some (v, s) =>
            match skipSpace s with
            | '\x7d' :: s => some (Dict.setEntries key v es, s)
            | ',' :: s => scanEntries fuel (Dict.setEntries key v es) (skipSpace s)
            | _ => none
        | _ => none
    | _ => none

/-- The items of an array up to its end. -/
def scanItems : ℕ → List Value → Str → Option (List Value × Str)
  | 0, _, _ => none
  | fuel + 1, vs, s =>
    match scanOnce fuel s with
    | none => none
    | some (v, s) =>
      match skipSpace s with
      | ']' :: s => some (vs ++ [v], s)
      | ',' :: s => scanItems fuel (vs ++ [v]) (skipSpace s)
      | _ => none
end

/-- `json.loads`, none where it raises. -/
def loads (s : Str) : Option Value :=
  if s.head? = some (Char.ofNat 65279) then none
  else
    match scanOnce readFloat (2 * s.length + 1) (skipSpace s) with
    | some (v, rest) => if skipSpace rest = [] then some v else none
    | none => none

end Loads

/-! ### Texts that are cut off -/

/-- An ellipsis that would end a string, and more text. -/
def cut (c : Char) (r : Str) : Str := '.' :: '.' :: '.' :: '"' :: c :: r

section Cut
variable {c : Char} {r : Str}

/-- What may be left of a text that is cut off: the ellipsis is there, or ended a string. -/
def Left (c : Char) (r : Str) (s : Str) : Prop := (∃ u, s = u ++ cut c r) ∨ s = c :: r

theorem skipSpace_cut (u : Str) : ∃ u', skipSpace (u ++ cut c r) = u' ++ cut c r := by
  induction u with
  | nil => exact ⟨[], rfl⟩
  | cons x u ih =>
    unfold skipSpace at ih ⊢
    rw [List.cons_append, List.dropWhile_cons]
    split_ifs
    · exact ih
    · exact ⟨x :: u, rfl⟩

theorem codeUnit_cut {u rest : Str} {n : ℕ} (h : codeUnit (u ++ cut c r) = some (n, rest)) :
    ∃ u', rest = u' ++ cut c r := by
  have hdot : hexValue '.' = none := by decide
  match u with
  | [] => simp [cut, codeUnit, hdot] at h
  | [a] => simp [cut, codeUnit, hdot] at h
  | [a, b] => simp [cut, codeUnit, hdot] at h
  | [a, b, d] => simp [cut, codeUnit, hdot] at h
  | a :: b :: d :: e :: u =>
    simp only [List.cons_append, codeUnit, Option.bind_eq_bind, Option.bind_eq_some_iff,
      Option.some.injEq, Prod.mk.injEq] at h
    obtain ⟨_, _, _, _, _, _, _, _, -, rfl⟩ := h
    exact ⟨u, rfl⟩

theorem unicodeEscape_cut {u rest : Str} {x : Char}
    (h : unicodeEscape (u ++ cut c r) = some (x, rest)) : ∃ u', rest = u' ++ cut c r := by
  unfold unicodeEscape at h
  obtain ⟨⟨unit, s⟩, hunit, h⟩ := Option.bind_eq_some_iff.mp h
  obtain ⟨u', rfl⟩ := codeUnit_cut hunit
  dsimp only at h
  split_ifs at h
  · split at h
    case h_1 s' hs' =>
      split at h
      case h_1 low s'' hlow =>
        split_ifs at h
        · obtain ⟨-, rfl⟩ := Prod.mk.inj (Option.some.inj h)
          match u' with
          | [] => simp [cut] at hs'
          | [a] => simp [cut] at hs'
          | a :: b :: u' =>
            have htail : u' ++ cut c r = s' := by simpa using congrArg (List.drop 2) hs'
            rw [← htail] at hlow
            exact codeUnit_cut hlow
        · exact ⟨u', (Prod.mk.inj (Option.some.inj h)).2.symm⟩
      case h_2 => exact ⟨u', (Prod.mk.inj (Option.some.inj h)).2.symm⟩
    case h_2 => exact ⟨u', (Prod.mk.inj (Option.some.inj h)).2.symm⟩
  · exact ⟨u', (Prod.mk.inj (Option.some.inj h)).2.symm⟩
  · exact ⟨u', (Prod.mk.inj (Option.some.inj h)).2.symm⟩

theorem scanString_cut {fuel : ℕ} {read u rest : Str} {s : String}
    (h : scanString fuel read (u ++ cut c r) = some (s, rest)) : Left c r rest := by
  induction fuel generalizing read u with
  | zero => cases h
  | succ fuel ih =>
    match u with
    | [] =>
      match fuel with
      | 0 | 1 | 2 => simp [cut, scanString] at h
      | fuel + 3 =>
        simp only [cut, List.nil_append, scanString] at h
        simp at h
        exact .inr h.2.symm
    | x :: u =>
      rw [List.cons_append, scanString.eq_def] at h
      dsimp only at h
      split_ifs at h with hquote hslash hcontrol
      · exact .inl ⟨u, (Prod.mk.inj (Option.some.inj h)).2.symm⟩
      · match u with
        | [] =>
          have hdot : simpleEscape '.' = none := by decide
          simp [cut, hdot] at h
        | e :: u =>
          rw [List.cons_append] at h
          split at h
          case h_1 heq => cases heq
          case h_2 s' heq =>
            obtain ⟨rfl, rfl⟩ := List.cons.inj heq
            obtain ⟨⟨x', s'⟩, hescape, h⟩ := Option.bind_eq_some_iff.mp h
            obtain ⟨u', rfl⟩ := unicodeEscape_cut hescape
            exact ih h
          case h_3 e' s' _ heq =>
            obtain ⟨rfl, rfl⟩ := List.cons.inj heq
            obtain ⟨x', hescape, h⟩ := Option.bind_eq_some_iff.mp h
            exact ih h
      · exact ih h

theorem digits_cut (u : Str) : digits (u ++ cut c r) = ((digits u).1, (digits u).2 ++ cut c r) := by
  unfold digits
  rw [List.span_eq_takeWhile_dropWhile, List.span_eq_takeWhile_dropWhile]
  induction u with
  | nil => rfl
  | cons x u ih =>
    rw [List.cons_append, List.takeWhile_cons, List.dropWhile_cons, List.takeWhile_cons,
      List.dropWhile_cons]
    split_ifs
    · rw [(Prod.mk.inj ih).1, (Prod.mk.inj ih).2]
    · rfl

theorem scanInteger_cut {u ds rest : Str} (h : scanInteger (u ++ cut c r) = some (ds, rest)) :
    ∃ u', rest = u' ++ cut c r := by
  unfold scanInteger at h
  match u with
  | [] => simp [cut, isDigit] at h
  | x :: u =>
    rw [List.cons_append] at h
    split at h
    case h_1 s heq =>
      obtain ⟨rfl, rfl⟩ := List.cons.inj heq
      exact ⟨u, (Prod.mk.inj (Option.some.inj h)).2.symm⟩
    case h_2 y s _ heq =>
      obtain ⟨rfl, rfl⟩ := List.cons.inj heq
      split_ifs at h
      rw [← List.cons_append, digits_cut] at h
      exact ⟨_, (Prod.mk.inj (Option.some.inj h)).2.symm⟩
    case h_3 heq => cases heq

theorem scanFraction_cut (u : Str) : ∃ u', (scanFraction (u ++ cut c r)).2 = u' ++ cut c r := by
  unfold scanFraction
  split
  case h_1 s' heq =>
    match u with
    | [] =>
      have htail : s' = '.' :: '.' :: '"' :: c :: r := (List.cons.inj heq).2.symm
      have hdigits : (digits s').1 = [] := by
        rw [htail]
        rfl
      rw [if_pos hdigits]
      exact ⟨[], rfl⟩
    | x :: u =>
      have htail : s' = u ++ cut c r := (List.cons.inj heq).2.symm
      rw [htail, digits_cut]
      split_ifs
      · exact ⟨x :: u, rfl⟩
      · exact ⟨_, rfl⟩
  case h_2 => exact ⟨u, rfl⟩

theorem scanSign_cut (u : Str) : ∃ u', (scanSign (u ++ cut c r)).2 = u' ++ cut c r := by
  unfold scanSign
  match u with
  | [] => exact ⟨[], rfl⟩
  | x :: u =>
    rw [List.cons_append]
    split
    case h_1 heq => exact ⟨u, (List.cons.inj heq).2.symm⟩
    case h_2 heq => exact ⟨u, (List.cons.inj heq).2.symm⟩
    case h_3 => exact ⟨x :: u, rfl⟩

theorem scanExponent_cut (u : Str) : ∃ u', (scanExponent (u ++ cut c r)).2 = u' ++ cut c r := by
  match u with
  | [] => exact ⟨[], by simp [cut, scanExponent]⟩
  | e :: u =>
    obtain ⟨u', hu'⟩ := scanSign_cut (c := c) (r := r) u
    rw [List.cons_append, scanExponent, hu', digits_cut]
    split_ifs with he hdigits
    · exact ⟨e :: u, rfl⟩
    · exact ⟨_, rfl⟩
    · exact ⟨e :: u, rfl⟩

theorem scanMinus_cut (u : Str) : ∃ u', (scanMinus (u ++ cut c r)).2 = u' ++ cut c r := by
  unfold scanMinus
  match u with
  | [] => exact ⟨[], rfl⟩
  | x :: u =>
    rw [List.cons_append]
    split
    case h_1 heq => exact ⟨u, (List.cons.inj heq).2.symm⟩
    case h_2 => exact ⟨x :: u, rfl⟩

variable {readFloat : Str → Value}

theorem scanNumber_cut {u rest : Str} {v : Value}
    (h : scanNumber readFloat (u ++ cut c r) = some (v, rest)) : ∃ u', rest = u' ++ cut c r := by
  obtain ⟨u₁, h₁⟩ := scanMinus_cut (c := c) (r := r) u
  unfold scanNumber at h
  dsimp only at h
  rw [h₁] at h
  obtain ⟨⟨ds, s⟩, hinteger, h⟩ := Option.bind_eq_some_iff.mp h
  obtain ⟨u₂, rfl⟩ := scanInteger_cut hinteger
  obtain ⟨u₃, h₃⟩ := scanFraction_cut (c := c) (r := r) u₂
  dsimp only at h
  rw [h₃] at h
  obtain ⟨u₄, h₄⟩ := scanExponent_cut (c := c) (r := r) u₃
  rw [h₄] at h
  exact ⟨u₄, (Prod.mk.inj (Option.some.inj h)).2.symm⟩

theorem scanWord_cut {u rest : Str} {v : Value} (h : scanWord (u ++ cut c r) = some (v, rest)) :
    ∃ u', rest = u' ++ cut c r := by
  obtain ⟨w, hw, heq⟩ := Option.map_eq_some_iff.mp h
  obtain ⟨-, rfl⟩ := Prod.mk.inj heq
  have hdot : ∀ w ∈ words, '.' ∉ w.1 := by
    unfold words
    simp only [List.forall_mem_cons]
    decide
  have htest : w.1.isPrefixOf (u ++ cut c r) = true :=
    (List.find?_eq_some_iff_append.mp hw).1
  obtain ⟨t, ht⟩ := List.isPrefixOf_iff_prefix.mp htest
  rcases List.append_eq_append_iff.mp ht with ⟨a, ha, -⟩ | ⟨a, ha, hcut⟩
  · exact ⟨a, by rw [ha, List.append_assoc, List.drop_left]⟩
  · cases a with
    | nil =>
      rw [List.append_nil] at ha
      exact ⟨[], by rw [ha, List.drop_left, List.nil_append]⟩
    | cons x a =>
      have hx : x = '.' := (List.cons.inj hcut).1.symm
      refine absurd ?_ (hdot w (List.mem_of_find?_eq_some hw))
      rw [ha, hx]
      exact List.mem_append_right u List.mem_cons_self

/-- No scanner gets past an ellipsis, if what comes after it cannot follow a string. -/
theorem scan_cut (hc : c ∉ [' ', '\t', '\n', '\r', ',', ':', '\x7d', ']']) (fuel : ℕ) :
    (∀ {u rest : Str} {v : Value}, scanOnce readFloat fuel (u ++ cut c r) = some (v, rest) →
      Left c r rest) ∧
    (∀ {u rest : Str} {es es' : List (String × Value)},
      scanEntries readFloat fuel es (u ++ cut c r) = some (es', rest) → Left c r rest) ∧
    ∀ {u rest : Str} {vs vs' : List Value},
      scanItems readFloat fuel vs (u ++ cut c r) = some (vs', rest) → Left c r rest := by
  have hafter : ∀ {u s : Str} {x : Char}, u ++ cut c r = x :: s → x ≠ '.' →
      ∃ u', s = u' ++ cut c r := by
    intro u s x hs hx
    cases u with
    | nil => exact absurd (List.cons.inj hs).1.symm hx
    | cons y u => exact ⟨u, (List.cons.inj hs).2.symm⟩
  have hnext : ∀ {s s' : Str} {x : Char}, Left c r s → skipSpace s = x :: s' →
      x ∈ [',', ':', '\x7d', ']'] → ∃ u, s' = u ++ cut c r := by
    intro s s' x hs hskip hx
    rcases hs with ⟨u, rfl⟩ | rfl
    · obtain ⟨u', hu'⟩ := skipSpace_cut (c := c) (r := r) u
      rw [hu'] at hskip
      refine hafter hskip fun hdot => ?_
      rw [hdot] at hx
      exact absurd hx (by decide)
    · have hspace : isSpace c = false := by
        simp only [List.mem_cons, not_or] at hc
        simp [isSpace, hc]
      rw [skipSpace, List.dropWhile_cons, hspace] at hskip
      have hxc : x = c := (List.cons.inj hskip).1.symm
      rw [hxc] at hx
      exact absurd (List.mem_append_right [' ', '\t', '\n', '\r'] hx) hc
  induction fuel with
  | zero => exact ⟨nofun, nofun, nofun⟩
  | succ fuel ih =>
    obtain ⟨honce, hentries, hitems⟩ := ih
    refine ⟨?_, ?_, ?_⟩
    · intro u rest v h
      match u with
      | [] => simp [cut, scanOnce, scanWord, words, scanNumber, scanMinus, scanInteger, isDigit] at h
      | x :: u =>
        rw [List.cons_append, scanOnce] at h
        obtain ⟨u', hu'⟩ := skipSpace_cut (c := c) (r := r) u
        rw [hu'] at h
        split_ifs at h with hquote hbrace hbracket
        · obtain ⟨t, ht, heq⟩ := Option.map_eq_some_iff.mp h
          obtain ⟨-, rfl⟩ := Prod.mk.inj heq
          exact scanString_cut ht
        · split at h
          case h_1 s hs =>
            obtain ⟨u'', rfl⟩ := hafter hs (by decide)
            exact .inl ⟨u'', (Prod.mk.inj (Option.some.inj h)).2.symm⟩
          case h_2 =>
            obtain ⟨t, ht, heq⟩ := Option.map_eq_some_iff.mp h
            obtain ⟨-, rfl⟩ := Prod.mk.inj heq
            exact hentries ht
        · split at h
          case h_1 s hs =>
            obtain ⟨u'', rfl⟩ := hafter hs (by decide)
            exact .inl ⟨u'', (Prod.mk.inj (Option.some.inj h)).2.symm⟩
          case h_2 =>
            obtain ⟨t, ht, heq⟩ := Option.map_eq_some_iff.mp h
            obtain ⟨-, rfl⟩ := Prod.mk.inj heq
            exact hitems ht
        · rw [← List.cons_append] at h
          rcases Option.or_eq_some_iff.mp h with hword | ⟨-, hnumber⟩
          · exact .inl (scanWord_cut hword)
          · exact .inl (scanNumber_cut hnumber)
    · intro u rest es es' h
      rw [scanEntries.eq_def] at h
      dsimp only at h
      split at h
      case h_1 s hs =>
        obtain ⟨u', rfl⟩ := hafter hs (by decide)
        split at h
        case h_1 => cases h
        case h_2 key s hkey =>
          have hleft := scanString_cut hkey
          split at h
          case h_1 s' hskip =>
            obtain ⟨u₁, rfl⟩ := hnext hleft hskip (by decide)
            obtain ⟨u₂, hu₂⟩ := skipSpace_cut (c := c) (r := r) u₁
            rw [hu₂] at h
            split at h
            case h_1 => cases h
            case h_2 v s hv =>
              have hs := honce hv
              split at h
              case h_1 s' hskip =>
                obtain ⟨u₃, rfl⟩ := hnext hs hskip (by decide)
                exact .inl ⟨u₃, (Prod.mk.inj (Option.some.inj h)).2.symm⟩
              case h_2 s' hskip =>
                obtain ⟨u₃, rfl⟩ := hnext hs hskip (by decide)
                obtain ⟨u₄, hu₄⟩ := skipSpace_cut (c := c) (r := r) u₃
                rw [hu₄] at h
                exact hentries h
              case h_3 => cases h
          case h_2 => cases h
      case h_2 => cases h
    · intro u rest vs vs' h
      rw [scanItems] at h
      split at h
      case h_1 => cases h
      case h_2 v s hv =>
        have hs := honce hv
        split at h
        case h_1 s' hskip =>
          obtain ⟨u', rfl⟩ := hnext hs hskip (by decide)
          exact .inl ⟨u', (Prod.mk.inj (Option.some.inj h)).2.symm⟩
        case h_2 s' hskip =>
          obtain ⟨u', rfl⟩ := hnext hs hskip (by decide)
          obtain ⟨u'', hu''⟩ := skipSpace_cut (c := c) (r := r) u'
          rw [hu''] at h
          exact hitems h
        case h_3 => cases h

/-- A text that is cut off in this way is not read. -/
theorem loads_cut (hc : c ∉ [' ', '\t', '\n', '\r', ',', ':', '\x7d', ']']) (u : Str) :
    loads readFloat (u ++ cut c r) = none := by
  unfold loads
  obtain ⟨u', hu'⟩ := skipSpace_cut (c := c) (r := r) u
  rw [hu']
  split_ifs
  · rfl
  · split
    case h_1 v rest hv =>
      rcases (scan_cut hc _).1 hv with ⟨u'', rfl⟩ | rfl
      · obtain ⟨u₃, hu₃⟩ := skipSpace_cut (c := c) (r := r) u''
        rw [hu₃, if_neg]
        cases u₃ <;> nofun
      · have hspace : isSpace c = false := by
          simp only [List.mem_cons, not_or] at hc
          simp [isSpace, hc]
        rw [skipSpace, List.dropWhile_cons, hspace]
        rfl
    case h_2 => rfl

end Cut

end Forail.Json
