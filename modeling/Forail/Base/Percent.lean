import Mathlib.Algebra.Group.Nat.Defs
import Mathlib.Data.List.Infix
import Mathlib.Data.Nat.Init

/-! Percent-encoding of text, with the decoder of `urllib.parse.unquote`: runs of ASCII
characters are read as bytes, which are decoded as UTF-8 with replacement. Encoding some
ASCII characters and decoding gives the text back, if it contains no escape of its own. -/

namespace Forail

/-- Text, as its list of code points. -/
abbrev Str := List Char

namespace Percent

def hexDigit (n : ℕ) : Char :=
  ['0', '1', '2', '3', '4', '5', '6', '7', '8', '9', 'A', 'B', 'C', 'D', 'E', 'F'].getD n '0'

def hexValue (c : Char) : Option ℕ :=
  if '0' ≤ c ∧ c ≤ '9' then some (c.toNat - 48)
  else if 'A' ≤ c ∧ c ≤ 'F' then some (c.toNat - 55)
  else if 'a' ≤ c ∧ c ≤ 'f' then some (c.toNat - 87)
  else none

/-- `quote` of an ASCII character. -/
def quote (c : Char) : Str := ['%', hexDigit (c.toNat / 16), hexDigit (c.toNat % 16)]

/-- An escape needs two hexadecimal digits; any other `%` stands for itself. -/
def unquoteToBytes : Str → List ℕ
  | '%' :: a :: b :: s =>
    match hexValue a, hexValue b with
    | some m, some n => (16 * m + n) :: unquoteToBytes s
    | _, _ => '%'.toNat :: unquoteToBytes (a :: b :: s)
  | c :: s => c.toNat :: unquoteToBytes s
  | [] => []

/-- How many continuation bytes a lead byte needs, and the range of the first one. -/
def lead (a : ℕ) : Option (ℕ × ℕ × ℕ) :=
  if 0xC2 ≤ a ∧ a ≤ 0xDF then some (1, 0x80, 0xBF)
  else if a = 0xE0 then some (2, 0xA0, 0xBF)
  else if a = 0xED then some (2, 0x80, 0x9F)
  else if 0xE1 ≤ a ∧ a ≤ 0xEF then some (2, 0x80, 0xBF)
  else if a = 0xF0 then some (3, 0x90, 0xBF)
  else if 0xF1 ≤ a ∧ a ≤ 0xF3 then some (3, 0x80, 0xBF)
  else if a = 0xF4 then some (3, 0x80, 0x8F)
  else none

/-- The value, when all continuation bytes are there, and how many were read. -/
def continuation : (need low high value : ℕ) → List ℕ → Option ℕ × ℕ
  | 0, _, _, value, _ => (some value, 0)
  | _ + 1, _, _, _, [] => (none, 0)
  | need + 1, low, high, value, b :: bs =>
    if low ≤ b ∧ b ≤ high then
      let (r, k) := continuation need 0x80 0xBF (64 * value + b % 64) bs
      (r, k + 1)
    else (none, 0)

/-- UTF-8 with one replacement character for each maximal invalid part. -/
def decodeUtf8 : List ℕ → Str
  | [] => []
  | a :: bs =>
    if a < 0x80 then Char.ofNat a :: decodeUtf8 bs
    else match lead a with
      | none => '\uFFFD' :: decodeUtf8 bs
      | some (need, low, high) =>
        let (r, k) := continuation need low high (a % 2 ^ (6 - need)) bs
        (r.map Char.ofNat).getD '\uFFFD' :: decodeUtf8 (bs.drop k)
termination_by bs => bs.length

/-- The loop over the text; `run` is the ASCII run read so far. -/
def unquoteRuns (run : Str) : Str → Str
  | [] => decodeUtf8 (unquoteToBytes run)
  | c :: s =>
    if c.toNat < 128 then unquoteRuns (run ++ [c]) s
    else decodeUtf8 (unquoteToBytes run) ++ c :: unquoteRuns [] s

def unquote (s : Str) : Str := unquoteRuns [] s

/-- Quote the characters of a class. -/
def quoteBy (enc : Char → Bool) (s : Str) : Str := s.flatMap fun c => if enc c then quote c else [c]

/-- The text has no `%` followed by two hexadecimal digits. -/
def NoEscape (s : Str) : Prop :=
  ∀ a b, (hexValue a).isSome = true → (hexValue b).isSome = true → ¬ ['%', a, b] <:+: s

theorem NoEscape.sub {s t : Str} (h : NoEscape s) (ht : t <:+: s) : NoEscape t :=
  fun a b ha hb hi => h a b ha hb (hi.trans ht)

theorem hexValue_hexDigit {n : ℕ} (h : n < 16) : hexValue (hexDigit n) = some n := by
  have hall : ∀ n : Fin 16, hexValue (hexDigit n) = some n.val := by decide
  exact hall ⟨n, h⟩

theorem unquoteToBytes_quote {c : Char} (hc : c.toNat < 128) (s : Str) :
    unquoteToBytes (quote c ++ s) = c.toNat :: unquoteToBytes s := by
  have hhigh : hexValue (hexDigit (c.toNat / 16)) = some (c.toNat / 16) :=
    hexValue_hexDigit (by omega)
  have hlow : hexValue (hexDigit (c.toNat % 16)) = some (c.toNat % 16) :=
    hexValue_hexDigit (by omega)
  rw [quote, List.cons_append, List.cons_append, List.cons_append, List.nil_append, unquoteToBytes,
    hhigh, hlow]
  dsimp only
  rw [Nat.div_add_mod]

theorem unquoteToBytes_cons {c : Char} {s : Str}
    (h : ∀ a b t, c :: s = '%' :: a :: b :: t →
      ¬ ((hexValue a).isSome = true ∧ (hexValue b).isSome = true)) :
    unquoteToBytes (c :: s) = c.toNat :: unquoteToBytes s := by
  rw [unquoteToBytes.eq_def (c :: s)]
  split
  · next a b t heq =>
    have hno := h a b t heq
    obtain ⟨rfl, rfl⟩ := List.cons.inj heq
    split
    · next m n hm hn => exact absurd ⟨by simp [hm], by simp [hn]⟩ hno
    · rfl
  · next heq =>
    obtain ⟨rfl, rfl⟩ := List.cons.inj heq
    rfl
  · next heq => cases heq

theorem decodeUtf8_ascii (s : Str) (h : ∀ c ∈ s, c.toNat < 128) :
    decodeUtf8 (s.map Char.toNat) = s := by
  induction s with
  | nil => rw [List.map_nil, decodeUtf8]
  | cons c s ih =>
    rw [List.map_cons, decodeUtf8, if_pos (h c List.mem_cons_self),
      ih fun d hd => h d (List.mem_cons_of_mem _ hd), Char.ofNat_toNat]

variable {enc : Char → Bool}

theorem quoteBy_cons (c : Char) (s : Str) :
    quoteBy enc (c :: s) = (if enc c then quote c else [c]) ++ quoteBy enc s := rfl

/-- A hexadecimal digit at the head of a quoted text stood there before. -/
theorem head_of_quoteBy {s t : Str} {a : Char} (ha : (hexValue a).isSome = true)
    (h : quoteBy enc s = a :: t) : ∃ s', s = a :: s' ∧ quoteBy enc s' = t := by
  cases s with
  | nil => cases h
  | cons c s =>
    rw [quoteBy_cons] at h
    split_ifs at h
    · have hp : '%' = a := (List.cons.inj h).1
      rw [← hp] at ha
      exact absurd ha (by decide)
    · obtain ⟨rfl, rfl⟩ := List.cons.inj h
      exact ⟨s, rfl, rfl⟩

theorem unquoteToBytes_quoteBy (henc : ∀ c, enc c = true → c.toNat < 128) {s : Str}
    (hs : NoEscape s) : unquoteToBytes (quoteBy enc s) = s.map Char.toNat := by
  induction s with
  | nil => rfl
  | cons c s ih =>
    have hrest := ih (hs.sub (List.suffix_cons c s).isInfix)
    rw [quoteBy_cons]
    split_ifs with hc
    · rw [unquoteToBytes_quote (henc c hc), hrest, List.map_cons]
    · rw [List.singleton_append, unquoteToBytes_cons, hrest, List.map_cons]
      rintro a b t heq ⟨ha, hb⟩
      obtain ⟨rfl, htail⟩ := List.cons.inj heq
      -- both digits would be there in the text itself
      obtain ⟨s₁, rfl, h₁⟩ := head_of_quoteBy ha htail
      obtain ⟨s₂, rfl, -⟩ := head_of_quoteBy hb h₁
      exact hs a b ha hb (List.prefix_append ['%', a, b] s₂).isInfix

theorem unquoteRuns_ascii (s run t : Str) (h : ∀ c ∈ s, c.toNat < 128) :
    unquoteRuns run (s ++ t) = unquoteRuns (run ++ s) t := by
  induction s generalizing run with
  | nil => rw [List.nil_append, List.append_nil]
  | cons c s ih =>
    rw [List.cons_append, unquoteRuns, if_pos (h c List.mem_cons_self),
      ih _ fun d hd => h d (List.mem_cons_of_mem _ hd), List.append_assoc, List.singleton_append]

theorem quote_ascii {c : Char} (hc : c.toNat < 128) : ∀ d ∈ quote c, d.toNat < 128 := by
  have hall : ∀ n : Fin 16, (hexDigit n).toNat < 128 := by decide
  intro d hd
  simp only [quote, List.mem_cons, List.not_mem_nil, or_false] at hd
  rcases hd with rfl | rfl | rfl
  · decide
  · exact hall ⟨c.toNat / 16, by omega⟩
  · exact hall ⟨c.toNat % 16, by omega⟩

/-- `run` is the raw text of the ASCII run that the loop has read quoted. -/
theorem unquoteRuns_quoteBy (henc : ∀ c, enc c = true → c.toNat < 128) (run s : Str)
    (hrun : ∀ c ∈ run, c.toNat < 128) (hs : NoEscape (run ++ s)) :
    unquoteRuns (quoteBy enc run) (quoteBy enc s) = run ++ s := by
  have hdecode : ∀ {run : Str}, (∀ c ∈ run, c.toNat < 128) → NoEscape run →
      decodeUtf8 (unquoteToBytes (quoteBy enc run)) = run := fun hrun hs => by
    rw [unquoteToBytes_quoteBy henc hs, decodeUtf8_ascii _ hrun]
  induction s generalizing run with
  | nil =>
    rw [List.append_nil] at hs ⊢
    exact hdecode hrun hs
  | cons c s ih =>
    have hchunk : quoteBy enc (run ++ [c]) = quoteBy enc run ++ if enc c then quote c else [c] := by
      rw [quoteBy, List.flatMap_append, List.flatMap_singleton]
      rfl
    rw [quoteBy_cons]
    by_cases hc : c.toNat < 128
    · have hquoted : ∀ d ∈ (if enc c then quote c else [c]), d.toNat < 128 := by
        split_ifs
        · exact quote_ascii hc
        · simpa using hc
      rw [unquoteRuns_ascii _ _ _ hquoted, ← hchunk, ih, List.append_assoc, List.singleton_append]
      · intro d hd
        rcases List.mem_append.mp hd with hd | hd
        · exact hrun d hd
        · rwa [List.mem_singleton.mp hd]
      · rwa [List.append_assoc, List.singleton_append]
    · have hplain : enc c = false := by
        by_contra he
        exact hc (henc c (by simpa using he))
      have hnil := ih [] (fun d hd => absurd hd List.not_mem_nil)
        (hs.sub ((List.suffix_cons c s).trans (List.suffix_append run _)).isInfix)
      rw [hplain, if_neg (by decide), List.singleton_append, unquoteRuns, if_neg hc,
        hdecode hrun (hs.sub (List.prefix_append run _).isInfix)]
      rw [List.nil_append] at hnil
      exact congrArg (fun t => run ++ c :: t) hnil

theorem unquote_quoteBy (henc : ∀ c, enc c = true → c.toNat < 128) {s : Str} (hs : NoEscape s) :
    unquote (quoteBy enc s) = s :=
  unquoteRuns_quoteBy henc [] s (fun _ hd => absurd hd List.not_mem_nil) hs

end Percent

end Forail

/-! `str.isdigit` and `int` on texts. The table of Unicode properties is a parameter, since
it changes with its version; every decimal digit is a digit, but not the other way round,
and `int` fails on a digit that is not decimal. -/

namespace Forail

/-- What the Unicode table says about a character. -/
structure UnicodeData where
  decimal : Char → Option ℕ
  isDigit : Char → Bool
  isSpace : Char → Bool

/-- The ASCII part of the table. -/
def asciiData : UnicodeData where
  decimal c := if '0' ≤ c ∧ c ≤ '9' then some (c.toNat - '0'.toNat) else none
  isDigit c := decide ('0' ≤ c ∧ c ≤ '9')
  isSpace c := c ∈ [' ', '\t', '\n', '\r', '\x0b', '\x0c', '\x1c', '\x1d', '\x1e', '\x1f']

namespace UnicodeData

variable (u : UnicodeData)

def isdigit (s : Str) : Bool := !s.isEmpty && s.all u.isDigit

/-- Decimal digits with single underscores between them. -/
def digits (value : ℕ) (afterDigit : Bool) : Str → Option ℕ
  | [] => if afterDigit then some value else none
  | c :: s =>
    if c = '_' then
      if afterDigit then digits value false s else none
    else
      match u.decimal c with
      | none => none
      | some n => digits (10 * value + n) true s

def strip (s : Str) : Str := ((s.dropWhile u.isSpace).reverse.dropWhile u.isSpace).reverse

/-- `int`, where none stands for a ValueError. -/
def int (s : Str) : Option ℤ :=
  match u.strip s with
  | '-' :: t => (u.digits 0 false t).map fun n => -(n : ℤ)
  | '+' :: t => (u.digits 0 false t).map fun n => (n : ℤ)
  | t => (u.digits 0 false t).map fun n => (n : ℤ)

end UnicodeData

end Forail
