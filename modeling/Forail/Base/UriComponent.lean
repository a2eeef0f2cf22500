import Forail.Base.Percent
import Mathlib.Algebra.Group.Nat.Defs
import Mathlib.Tactic.Common

/-! `encodeURIComponent` and `decodeURIComponent`. Characters outside the unreserved ones are written as the
escapes of their UTF-8 bytes; reading them gives the text back, and an encoded text has none of the characters
that separate the parts of a query. -/

namespace Forail.UriComponent

open Percent

def isUnreserved (c : Char) : Bool :=
  ('A' ≤ c ∧ c ≤ 'Z') ∨ ('a' ≤ c ∧ c ≤ 'z') ∨ ('0' ≤ c ∧ c ≤ '9') ∨
    c ∈ ['-', '_', '.', '!', '~', '*', '\'', '(', ')']

/-- The bytes of a code point. -/
def utf8 (n : ℕ) : List ℕ :=
  if n < 0x80 then [n]
  else if n < 0x800 then [0xC0 + n / 64, 0x80 + n % 64]
  else if n < 0x10000 then [0xE0 + n / 4096, 0x80 + n / 64 % 64, 0x80 + n % 64]
  else [0xF0 + n / 262144, 0x80 + n / 4096 % 64, 0x80 + n / 64 % 64, 0x80 + n % 64]

def escape (b : ℕ) : Str := ['%', hexDigit (b / 16), hexDigit (b % 16)]

def encodeChar (c : Char) : Str := if isUnreserved c then [c] else (utf8 c.toNat).flatMap escape

def encodeURIComponent (s : Str) : Str := s.flatMap encodeChar

/-- The characters and the escaped bytes, none when a `%` starts no escape. -/
def units : Str → Option (List (Char ⊕ ℕ))
  | [] => some []
  | c :: s =>
    if c = '%' then
      match s with
      | a :: b :: s =>
        match hexValue a, hexValue b with
        | some m, some n => (units s).map (.inr (16 * m + n) :: ·)
        | _, _ => none
      | _ => none
    else (units s).map (.inl c :: ·)

/-- Decode the bytes between the characters; `need` bytes continue a value, the next one from `low` to `high`. -/
def assemble : (need low high value : ℕ) → List (Char ⊕ ℕ) → Option Str
  | 0, _, _, _, [] => some []
  | 0, _, _, _, .inl c :: us => (assemble 0 0 0 0 us).map (c :: ·)
  | 0, _, _, _, .inr a :: us =>
    if a < 0x80 then (assemble 0 0 0 0 us).map (Char.ofNat a :: ·)
    else match lead a with
      | some (need, low, high) => assemble need low high (a % 2 ^ (6 - need)) us
      | none => none
  | need + 1, low, high, value, .inr b :: us =>
    if low ≤ b ∧ b ≤ high then
      match need with
      | 0 => (assemble 0 0 0 0 us).map (Char.ofNat (64 * value + b % 64) :: ·)
      | need + 1 => assemble (need + 1) 0x80 0xBF (64 * value + b % 64) us
    else none
  | _ + 1, _, _, _, _ => none

/-- None where it throws. -/
def decodeURIComponent (s : Str) : Option Str := do
  let us ← units s
  assemble 0 0 0 0 us

/-! ### Round trip -/

def charUnits (c : Char) : List (Char ⊕ ℕ) := if isUnreserved c then [.inl c] else (utf8 c.toNat).map .inr

theorem utf8_lt {n b : ℕ} (hn : n < 0x110000) (hb : b ∈ utf8 n) : b < 256 := by
  rw [utf8] at hb
  split_ifs at hb <;> simp only [List.mem_cons, List.not_mem_nil, or_false] at hb <;> omega

theorem toNat_lt (c : Char) : c.toNat < 0x110000 := by
  have hvalid := c.valid
  rw [UInt32.isValidChar, Nat.isValidChar] at hvalid
  show c.val.toNat < 0x110000
  omega

theorem units_escape {b : ℕ} (hb : b < 256) (s : Str) : units (escape b ++ s) = (units s).map (.inr b :: ·) := by
  have hhigh : hexValue (hexDigit (b / 16)) = some (b / 16) := hexValue_hexDigit (by omega)
  have hlow : hexValue (hexDigit (b % 16)) = some (b % 16) := hexValue_hexDigit (by omega)
  rw [escape, List.cons_append, List.cons_append, List.cons_append, List.nil_append, units, if_pos rfl]
  simp only [hhigh, hlow, Nat.div_add_mod]

theorem units_escapes {bs : List ℕ} (hbs : ∀ b ∈ bs, b < 256) (s : Str) :
    units (bs.flatMap escape ++ s) = (units s).map (bs.map Sum.inr ++ ·) := by
  induction bs with
  | nil => simp
  | cons b bs ih =>
    rw [List.flatMap_cons, List.append_assoc, units_escape (hbs b List.mem_cons_self),
      ih fun b' hb' => hbs b' (List.mem_cons_of_mem b hb'), Option.map_map]
    rfl

theorem units_encodeChar (c : Char) (s : Str) : units (encodeChar c ++ s) = (units s).map (charUnits c ++ ·) := by
  by_cases hc : isUnreserved c = true
  · have hne : c ≠ '%' := by
      rintro rfl
      exact absurd hc (by decide)
    rw [encodeChar, if_pos hc, charUnits, if_pos hc, List.singleton_append, units.eq_def]
    exact if_neg hne
  · rw [encodeChar, if_neg hc, charUnits, if_neg hc, units_escapes fun b hb => utf8_lt (toNat_lt c) hb]

theorem units_encode (s : Str) : units (encodeURIComponent s) = some (s.flatMap charUnits) := by
  induction s with
  | nil => rfl
  | cons c s ih =>
    rw [encodeURIComponent] at ih ⊢
    rw [List.flatMap_cons, units_encodeChar, ih]
    rfl

/-- The bytes of a code point decode to it. -/
theorem assemble_utf8 {n : ℕ} (hn : n < 0x110000) (hsurrogate : n < 0xD800 ∨ 0xDFFF < n) (us : List (Char ⊕ ℕ)) :
    assemble 0 0 0 0 ((utf8 n).map .inr ++ us) = (assemble 0 0 0 0 us).map (Char.ofNat n :: ·) := by
  rw [utf8]
  split_ifs with h₁ h₂ h₃
  · simp only [List.map_cons, List.map_nil, List.cons_append, List.nil_append, assemble, if_pos h₁]
  · have hlead : lead (0xC0 + n / 64) = some (1, 0x80, 0xBF) := by
      rw [lead, if_pos (by omega)]
    have hvalue : 64 * ((0xC0 + n / 64) % 2 ^ (6 - 1)) + (0x80 + n % 64) % 64 = n := by omega
    simp only [List.map_cons, List.map_nil, List.cons_append, List.nil_append, assemble, hlead, hvalue,
      if_neg (by omega : ¬0xC0 + n / 64 < 0x80), if_pos (by omega : 0x80 ≤ 0x80 + n % 64 ∧ 0x80 + n % 64 ≤ 0xBF)]
  · have hvalue : 64 * (64 * ((0xE0 + n / 4096) % 2 ^ (6 - 2)) + (0x80 + n / 64 % 64) % 64) +
        (0x80 + n % 64) % 64 = n := by omega
    have hlow : 0x80 ≤ 0x80 + n % 64 ∧ 0x80 + n % 64 ≤ 0xBF := by omega
    obtain ⟨low, high, hlead, hrange⟩ : ∃ low high, lead (0xE0 + n / 4096) = some (2, low, high) ∧
        low ≤ 0x80 + n / 64 % 64 ∧ 0x80 + n / 64 % 64 ≤ high := by
      rw [lead, if_neg (by omega)]
      split_ifs <;> first | omega | exact ⟨_, _, rfl, by omega⟩
    simp only [List.map_cons, List.map_nil, List.cons_append, List.nil_append, assemble, hlead, hvalue,
      if_neg (by omega : ¬0xE0 + n / 4096 < 0x80), if_pos hrange, if_pos hlow]
  · have hvalue : 64 * (64 * (64 * ((0xF0 + n / 262144) % 2 ^ (6 - 3)) + (0x80 + n / 4096 % 64) % 64) +
        (0x80 + n / 64 % 64) % 64) + (0x80 + n % 64) % 64 = n := by omega
    have hlow : 0x80 ≤ 0x80 + n % 64 ∧ 0x80 + n % 64 ≤ 0xBF := by omega
    have hmiddle : 0x80 ≤ 0x80 + n / 64 % 64 ∧ 0x80 + n / 64 % 64 ≤ 0xBF := by omega
    obtain ⟨low, high, hlead, hrange⟩ : ∃ low high, lead (0xF0 + n / 262144) = some (3, low, high) ∧
        low ≤ 0x80 + n / 4096 % 64 ∧ 0x80 + n / 4096 % 64 ≤ high := by
      rw [lead, if_neg (by omega), if_neg (by omega), if_neg (by omega), if_neg (by omega)]
      split_ifs <;> first | omega | exact ⟨_, _, rfl, by omega⟩
    simp only [List.map_cons, List.map_nil, List.cons_append, List.nil_append, assemble, hlead, hvalue,
      if_neg (by omega : ¬0xF0 + n / 262144 < 0x80), if_pos hrange, if_pos hmiddle, if_pos hlow]

theorem assemble_charUnits (c : Char) (us : List (Char ⊕ ℕ)) :
    assemble 0 0 0 0 (charUnits c ++ us) = (assemble 0 0 0 0 us).map (c :: ·) := by
  rw [charUnits]
  split_ifs with hc
  · rfl
  · have hvalid := c.valid
    have hsurrogate : c.toNat < 0xD800 ∨ 0xDFFF < c.toNat := hvalid.imp id And.left
    rw [assemble_utf8 (toNat_lt c) hsurrogate, Char.ofNat_toNat]

theorem decode_encode (s : Str) : decodeURIComponent (encodeURIComponent s) = some s := by
  rw [decodeURIComponent, units_encode]
  show assemble 0 0 0 0 (s.flatMap charUnits) = some s
  induction s with
  | nil => rfl
  | cons c s ih => rw [List.flatMap_cons, assemble_charUnits, ih, Option.map_some]

/-! ### Characters of an encoded text -/

theorem encode_append (s t : Str) : encodeURIComponent (s ++ t) = encodeURIComponent s ++ encodeURIComponent t :=
  List.flatMap_append

theorem encode_unreserved {s : Str} (h : ∀ c ∈ s, isUnreserved c = true) : encodeURIComponent s = s := by
  induction s with
  | nil => rfl
  | cons c s ih =>
    have ih := ih fun d hd => h d (List.mem_cons_of_mem c hd)
    rw [encodeURIComponent] at ih ⊢
    rw [List.flatMap_cons, ih, encodeChar, if_pos (h c List.mem_cons_self), List.singleton_append]

theorem encode_injective {s t : Str} (h : encodeURIComponent s = encodeURIComponent t) : s = t := by
  have hdecode := decode_encode s
  rw [h, decode_encode] at hdecode
  exact (Option.some.inj hdecode).symm

theorem encodeChar_ne_nil (c : Char) : encodeChar c ≠ [] := by
  rw [encodeChar, utf8]
  split_ifs <;> simp [escape]

theorem encode_eq_nil {s : Str} : encodeURIComponent s = [] ↔ s = [] := by
  cases s with
  | nil => exact iff_of_true rfl rfl
  | cons c s => simp [encodeURIComponent, encodeChar_ne_nil]

/-- A character of an encoded text is unreserved or belongs to an escape. -/
def isEncoded (c : Char) : Bool := isUnreserved c ∨ c = '%'

theorem isEncoded_hexDigit {n : ℕ} (hn : n < 16) : isEncoded (hexDigit n) = true := by
  have hall : ∀ n : Fin 16, isEncoded (hexDigit n) = true := by decide
  exact hall ⟨n, hn⟩

theorem isEncoded_of_mem {s : Str} {c : Char} (hc : c ∈ encodeURIComponent s) : isEncoded c = true := by
  obtain ⟨d, -, hd⟩ := List.mem_flatMap.mp hc
  rw [encodeChar] at hd
  split_ifs at hd with hu
  · obtain rfl := List.mem_singleton.mp hd
    simp [isEncoded, hu]
  · obtain ⟨b, hb, hcb⟩ := List.mem_flatMap.mp hd
    have hlt := utf8_lt (toNat_lt d) hb
    simp only [escape, List.mem_cons, List.not_mem_nil, or_false] at hcb
    obtain rfl | rfl | rfl := hcb
    · decide
    · exact isEncoded_hexDigit (by omega)
    · exact isEncoded_hexDigit (by omega)

theorem encodeChar_of_reserved {c : Char} (hc : ¬isUnreserved c = true) : ∃ t, encodeChar c = '%' :: t := by
  rw [encodeChar, if_neg hc, utf8]
  split_ifs <;> exact ⟨_, rfl⟩

/-- Unreserved text in front of an encoded text is in front of the text. -/
theorem isPrefixOf_encode {p : Str} (hp : ∀ c ∈ p, isUnreserved c = true) (s : Str) :
    p <+: encodeURIComponent s ↔ p <+: s := by
  induction p generalizing s with
  | nil => simp
  | cons c p ih =>
    have hc := hp c List.mem_cons_self
    have ih := ih fun d hd => hp d (List.mem_cons_of_mem c hd)
    cases s with
    | nil => simp [encodeURIComponent]
    | cons d s =>
      by_cases hd : isUnreserved d = true
      · rw [encodeURIComponent, List.flatMap_cons, encodeChar, if_pos hd, List.singleton_append,
          List.cons_prefix_cons, List.cons_prefix_cons, ← ih s, encodeURIComponent]
      · obtain ⟨t, ht⟩ := encodeChar_of_reserved hd
        rw [encodeURIComponent, List.flatMap_cons, ht, List.cons_append, List.cons_prefix_cons,
          List.cons_prefix_cons]
        constructor
        · rintro ⟨rfl, -⟩
          exact absurd hc (by decide)
        · rintro ⟨rfl, -⟩
          exact absurd hc hd

end Forail.UriComponent
