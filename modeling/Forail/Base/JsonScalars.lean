import Forail.Base.Json

/-! Strings and integers as `json.dumps` writes them, and their reader: each escape is read as its
character, and the digits of an integer as the integer. -/

namespace Forail.Json

/-! ### Strings -/

theorem hexValue_hexDigit {n : ℕ} (h : n < 16) : hexValue (hexDigit n) = some n := by
  have hall : ∀ n < 16, hexValue (hexDigit n) = some n := by decide
  exact hall n h

/-- The four digits of a code unit are read as the unit. -/
theorem codeUnit_digits {n : ℕ} (h : n < 65536) (s : Str) :
    codeUnit (hexDigit (n / 4096 % 16) :: hexDigit (n / 256 % 16) :: hexDigit (n / 16 % 16) ::
      hexDigit (n % 16) :: s) = some (n, s) := by
  have hlt : ∀ m, m % 16 < 16 := fun m => Nat.mod_lt m (by decide)
  have hsum : 4096 * (n / 4096 % 16) + 256 * (n / 256 % 16) + 16 * (n / 16 % 16) + n % 16 = n := by
    omega
  unfold codeUnit
  simp only [hexValue_hexDigit (hlt _), Option.bind_eq_bind, Option.bind_some, hsum]

theorem toNat_not_surrogate (c : Char) : ¬ (55296 ≤ c.toNat ∧ c.toNat < 57344) := by
  have hvalid : c.toNat < 55296 ∨ 57343 < c.toNat ∧ c.toNat < 1114112 := c.valid
  omega

theorem toNat_lt (c : Char) : c.toNat < 1114112 := by
  have hvalid : c.toNat < 55296 ∨ 57343 < c.toNat ∧ c.toNat < 1114112 := c.valid
  omega

/-- The escape of a character of the basic plane. -/
theorem unicodeEscape_unit {c : Char} (h : c.toNat < 65536) (s : Str) :
    unicodeEscape (hexDigit (c.toNat / 4096 % 16) :: hexDigit (c.toNat / 256 % 16) ::
      hexDigit (c.toNat / 16 % 16) :: hexDigit (c.toNat % 16) :: s) = some (c, s) := by
  have hsur := toNat_not_surrogate c
  have hhigh : ¬ (55296 ≤ c.toNat ∧ c.toNat < 56320) := by omega
  have hlow : ¬ (56320 ≤ c.toNat ∧ c.toNat < 57344) := by omega
  unfold unicodeEscape
  rw [codeUnit_digits h]
  simp only [Option.bind_eq_bind, Option.bind_some, hhigh, hlow, if_false, Char.ofNat_toNat]

/-- Two surrogates are read as one character. -/
theorem unicodeEscape_surrogates {high low : ℕ} (hhigh : 55296 ≤ high ∧ high < 56320)
    (hlow : 56320 ≤ low ∧ low < 57344) (s : Str) :
    unicodeEscape (hexDigit (high / 4096 % 16) :: hexDigit (high / 256 % 16) ::
      hexDigit (high / 16 % 16) :: hexDigit (high % 16) :: '\\' :: 'u' ::
      hexDigit (low / 4096 % 16) :: hexDigit (low / 256 % 16) :: hexDigit (low / 16 % 16) ::
      hexDigit (low % 16) :: s) =
        some (Char.ofNat (65536 + 1024 * (high - 55296) + (low - 56320)), s) := by
  have hhigh' : high < 65536 := by omega
  have hlow' : low < 65536 := by omega
  unfold unicodeEscape
  rw [codeUnit_digits hhigh']
  simp only [Option.bind_eq_bind, Option.bind_some]
  rw [if_pos hhigh, codeUnit_digits hlow']
  exact if_pos hlow

theorem surrogates_sum {n : ℕ} (h : 65536 ≤ n) :
    65536 + 1024 * (55296 + (n - 65536) / 1024 - 55296) + (56320 + (n - 65536) % 1024 - 56320) = n := by
  omega

theorem eq_ofNat {c : Char} {n : ℕ} (h : c.toNat = n) : c = Char.ofNat n := by
  rw [← h, Char.ofNat_toNat]

theorem scanString_cons (fuel : ℕ) (read s : Str) {c : Char} (hquote : c ≠ '"') (hback : c ≠ '\\')
    (hlow : ¬ c.toNat < 32) : scanString (fuel + 1) read (c :: s) = scanString fuel (c :: read) s := by
  rw [scanString.eq_def]
  simp only [hquote, hback, hlow, if_false]

theorem scanString_quote (fuel : ℕ) (read s : Str) :
    scanString (fuel + 1) read ('"' :: s) = some (String.ofList read.reverse, s) := by
  rw [scanString.eq_def]
  rfl

/-- An escape with digits is read as its character. -/
theorem scanString_unicode {fuel : ℕ} {read s rest : Str} {c : Char}
    (h : unicodeEscape s = some (c, rest)) :
    scanString (fuel + 1) read ('\\' :: 'u' :: s) = scanString fuel (c :: read) rest := by
  rw [scanString.eq_def]
  change ((unicodeEscape s).bind fun r => scanString fuel (r.1 :: read) r.2) = _
  rw [h]
  rfl

/-- An escaped character is read as the character. -/
theorem scanString_escape (fuel : ℕ) (read s : Str) (c : Char) :
    scanString (fuel + 1) read (escape c ++ s) = scanString fuel (c :: read) s := by
  by_cases hquote : c = '"'
  · subst hquote
    rfl
  by_cases hback : c = '\\'
  · subst hback
    rfl
  by_cases hn : c = '\n'
  · subst hn
    rfl
  by_cases hr : c = '\r'
  · subst hr
    rfl
  by_cases ht : c = '\t'
  · subst ht
    rfl
  by_cases hf : c.toNat = 12
  · rw [eq_ofNat hf]
    rfl
  by_cases hb : c.toNat = 8
  · rw [eq_ofNat hb]
    rfl
  rw [escape, if_neg hquote, if_neg hback, if_neg hn, if_neg hr, if_neg ht, if_neg hf, if_neg hb]
  by_cases hprint : 32 ≤ c.toNat ∧ c.toNat ≤ 126
  · rw [if_pos hprint]
    exact scanString_cons fuel read s hquote hback (by omega)
  rw [if_neg hprint]
  by_cases hplane : c.toNat < 65536
  · rw [if_pos hplane]
    exact scanString_unicode (unicodeEscape_unit hplane s)
  · rw [if_neg hplane]
    have hmax := toNat_lt c
    have hpair := @unicodeEscape_surrogates (55296 + (c.toNat - 65536) / 1024)
      (56320 + (c.toNat - 65536) % 1024) (by omega) (by omega) s
    rw [surrogates_sum (by omega), Char.ofNat_toNat] at hpair
    exact scanString_unicode hpair

theorem scanString_flatMap (cs : Str) (read rest : Str) {fuel : ℕ} (hfuel : cs.length < fuel) :
    scanString fuel read (cs.flatMap escape ++ '"' :: rest) =
      some (String.ofList (read.reverse ++ cs), rest) := by
  induction cs generalizing read fuel with
  | nil =>
    obtain ⟨fuel, rfl⟩ : ∃ n, fuel = n + 1 := ⟨fuel - 1, by grind⟩
    rw [List.flatMap_nil, List.nil_append, scanString_quote, List.append_nil]
  | cons c cs ih =>
    obtain ⟨fuel, rfl⟩ : ∃ n, fuel = n + 1 := ⟨fuel - 1, by grind⟩
    rw [List.flatMap_cons, List.append_assoc, scanString_escape, ih _ (by simpa using hfuel)]
    simp

theorem length_le_flatMap_escape (cs : Str) : cs.length ≤ (cs.flatMap escape).length := by
  induction cs with
  | nil => exact Nat.zero_le _
  | cons c cs ih =>
    have hpos : 0 < (escape c).length := by
      unfold escape escapeUnit
      split_ifs <;> simp
    rw [List.flatMap_cons, List.length_append, List.length_cons]
    omega

/-- The rest of a written string is read as the string. -/
theorem scanString_dumpsString (s : String) (rest : Str) :
    scanString ((s.toList.flatMap escape ++ '"' :: rest).length + 1) []
      (s.toList.flatMap escape ++ '"' :: rest) = some (s, rest) := by
  have hlen := length_le_flatMap_escape s.toList
  rw [scanString_flatMap _ _ _ (by rw [List.length_append]; omega), List.reverse_nil, List.nil_append,
    String.ofList_toList]

/-! ### Numbers -/

/-- What may follow a value inside of a text: the end, a comma or a closing bracket. -/
def Ends (rest : Str) : Prop := ∀ c ∈ rest.head?, c ∈ [',', ']', '\x7d']

theorem ends_nil : Ends [] := nofun

theorem ends_cons {c : Char} (h : c ∈ [',', ']', '\x7d']) (rest : Str) : Ends (c :: rest) := by
  intro c' hc
  cases hc
  exact h

theorem isDigit_eq (c : Char) : isDigit c = c.isDigit := rfl

theorem not_isDigit_of_ends {c : Char} {rest : Str} (h : Ends (c :: rest)) : isDigit c = false := by
  have hc := h c rfl
  simp only [List.mem_cons, List.not_mem_nil, or_false] at hc
  rcases hc with rfl | rfl | rfl <;> rfl

theorem digits_append {ds rest : Str} (hds : ∀ c ∈ ds, isDigit c = true) (hrest : Ends rest) :
    digits (ds ++ rest) = (ds, rest) := by
  unfold digits
  rw [List.span_eq_takeWhile_dropWhile, List.takeWhile_append_of_pos hds, List.dropWhile_append_of_pos hds]
  cases rest with
  | nil => rw [List.takeWhile_nil, List.dropWhile_nil, List.append_nil]
  | cons c rest =>
    have hc := not_isDigit_of_ends hrest
    rw [List.takeWhile_cons, List.dropWhile_cons, hc]
    simp

theorem scanFraction_ends {rest : Str} (h : Ends rest) : scanFraction rest = ([], rest) := by
  unfold scanFraction
  split
  · exact absurd (h '.' rfl) (by decide)
  · rfl

theorem scanExponent_ends {rest : Str} (h : Ends rest) : scanExponent rest = ([], rest) := by
  unfold scanExponent
  split
  · rename_i e s'
    have he := h e rfl
    have hne : ¬ (e = 'e' ∨ e = 'E') := by
      rintro (rfl | rfl) <;> exact absurd he (by decide)
    rw [if_neg hne]
  · rfl

theorem isDigit_of_mem_toDigits {n : ℕ} {c : Char} (h : c ∈ Nat.toDigits 10 n) : isDigit c = true :=
  Nat.isDigit_of_mem_toDigits (by decide) (by decide) h

/-- A positive number is written without leading zeros. -/
theorem toDigits_head {n : ℕ} (h : 0 < n) : ∃ c ds, Nat.toDigits 10 n = c :: ds ∧ c ≠ '0' := by
  induction n using Nat.strong_induction_on with
  | _ n ih =>
    by_cases hlt : n < 10
    · refine ⟨n.digitChar, [], Nat.toDigits_of_lt_base hlt, ?_⟩
      intro hzero
      have hval := Nat.toNat_digitChar_of_lt_ten hlt
      rw [hzero] at hval
      have : 48 = 48 + n := hval
      omega
    · obtain ⟨c, ds, hds, hc⟩ := ih (n / 10) (by omega) (by omega)
      rw [Nat.toDigits_of_base_le (by decide) (by omega), hds]
      exact ⟨c, ds ++ [(n % 10).digitChar], rfl, hc⟩

theorem scanInteger_toDigits (n : ℕ) {rest : Str} (h : Ends rest) :
    scanInteger (Nat.toDigits 10 n ++ rest) = some (Nat.toDigits 10 n, rest) := by
  rcases Nat.eq_zero_or_pos n with rfl | hpos
  · rfl
  · obtain ⟨c, ds, hds, hc⟩ := toDigits_head hpos
    have hall : ∀ c ∈ Nat.toDigits 10 n, isDigit c = true := fun c hc => isDigit_of_mem_toDigits hc
    have hdigit : isDigit c = true := hall c (by rw [hds]; exact List.mem_cons_self)
    have hscan := digits_append hall h
    rw [hds, List.cons_append] at hscan ⊢
    rw [scanInteger.eq_def]
    split
    · rename_i heq
      cases heq
      exact absurd rfl hc
    · rename_i heq
      cases heq
      rw [if_pos hdigit, hscan]
    · rename_i heq
      cases heq

theorem natOfDigits_toDigits (n : ℕ) : natOfDigits (Nat.toDigits 10 n) = n :=
  Nat.ofDigitChars_ten_toDigits

theorem toDigits_cons (n : ℕ) : ∃ c ds, Nat.toDigits 10 n = c :: ds ∧ isDigit c = true := by
  cases h : Nat.toDigits 10 n with
  | nil => exact absurd h Nat.toDigits_ne_nil
  | cons c ds => exact ⟨c, ds, rfl, isDigit_of_mem_toDigits (n := n) (by rw [h]; exact List.mem_cons_self)⟩

theorem scanMinus_digit {c : Char} (hc : isDigit c = true) (s : Str) :
    scanMinus (c :: s) = (false, c :: s) := by
  unfold scanMinus
  split
  · rename_i heq
    cases heq
    cases hc
  · rfl

section Loads
variable (readFloat : Str → Value)

theorem scanNumber_int (n : ℤ) {rest : Str} (h : Ends rest) :
    scanNumber readFloat (dumps (.int n) ++ rest) = some (.int n, rest) := by
  have hscan := scanInteger_toDigits n.natAbs h
  unfold scanNumber dumps
  by_cases hneg : n < 0
  · rw [if_pos hneg, List.cons_append]
    generalize hm : n.natAbs = m at hscan ⊢
    simp [scanMinus, hscan, scanFraction_ends h, scanExponent_ends h, natOfDigits_toDigits]
    omega
  · rw [if_neg hneg]
    obtain ⟨c, ds, hds, hc⟩ := toDigits_cons n.natAbs
    have hminus : scanMinus (Nat.toDigits 10 n.natAbs ++ rest) = (false, Nat.toDigits 10 n.natAbs ++ rest) := by
      rw [hds, List.cons_append]
      exact scanMinus_digit hc _
    simp [hminus, hscan, scanFraction_ends h, scanExponent_ends h, natOfDigits_toDigits]
    omega

end Loads

end Forail.Json
