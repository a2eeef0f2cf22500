import Forail.Base.Percent
import Forail.Base.Value

/-! `encrypt_field`, `decrypt_field` and their variants for single values. The key of a value is hashed
from the secret key, the row and the name of its field; the hash is part of the cipher here, which knows
a value by the text of its key. -/

namespace Forail.Encryption

/-- Authenticated encryption with fresh randomness: the right key undoes it, any other key is noticed. -/
structure Cipher (ν : Type) where
  encrypt : ν → Str → Str → Str
  decrypt : Str → Str → Option Str
  decrypt_encrypt : ∀ nonce key x, decrypt key (encrypt nonce key x) = some x
  decrypt_other : ∀ nonce key key' x, key' ≠ key → decrypt key' (encrypt nonce key x) = none

/-- What a value is encrypted for: the name of its field, and its row where it has one. -/
structure Use where
  fieldName : String
  pk : Option ℕ
  deriving DecidableEq

/-- The text that the key of a use is hashed from. -/
def keyText (secretKey : Str) (use : Use) : Str :=
  secretKey ++ ((use.pk.map (Nat.toDigits 10)).getD [] ++ use.fieldName.toList)

theorem keyText_inj {s t : Str} {use : Use} (h : keyText s use = keyText t use) : s = t :=
  List.append_cancel_right h

def marker : Str := "$encrypted$".toList

/-- The parts of an encrypted value in front of the cipher's text. -/
def header : Str := "$encrypted$UTF8$AESCBC$".toList

section Fields

variable {ν : Type} (cipher : Cipher ν) (quote : String → String) (settingsKey : Str)

/-- `get_encryption_key`, which takes the key of the settings where it is given none. -/
def getEncryptionKey (use : Use) (secretKey : Str) : Str :=
  keyText (if secretKey = [] then settingsKey else secretKey) use

/-- A value that `encrypt_field` stores. -/
def token (nonce : ν) (key x : Str) : Str := header ++ cipher.encrypt nonce key x

def encryptField (nonce : ν) (use : Use) (secretKey : Str) (ask : Bool) (v : Value) : Value :=
  match v with
  | .null => .null
  | v =>
    let value := (v.smartStr quote).toList
    if value = [] ∨ marker.isPrefixOf value ∨ ask ∧ value = "ASK".toList then .str (String.ofList value)
    else .str (String.ofList (token cipher nonce (getEncryptionKey settingsKey use secretKey) value))

/-- `decrypt_value` of a text, none where it raises. -/
def decryptText (key value : Str) : Option Str :=
  let raw := value.drop marker.length
  let raw := if "UTF8$".toList.isPrefixOf raw then raw.drop 5 else raw
  match raw.span (· ≠ '$') with
  | (algo, _ :: body) => if algo = "AESCBC".toList then cipher.decrypt key body else none
  | (_, []) => none

/-- `decrypt_value`; what is not a text has no parts to split. -/
def decryptValue (key : Str) : Value → Option Value
  | .str s => (decryptText cipher key s.toList).map fun x => .str (String.ofList x)
  | _ => none

def decryptField (use : Use) (secretKey : Str) (v : Value) : Option Value :=
  let value := (v.smartStr quote).toList
  if value = [] ∨ ¬ marker.isPrefixOf value then some (.str (String.ofList value))
  else (decryptText cipher (getEncryptionKey settingsKey use secretKey) value).map
    fun x => .str (String.ofList x)

/-! ### Values under a key -/

/-- A text that `encrypt_field` encrypts: not empty, and not taken for an encrypted one. -/
def Secret (x : Str) : Prop := x ≠ [] ∧ marker.isPrefixOf x = false

/-- What a stored value stands for under a key: nothing, or the text that it is the encryption of. -/
def Carries (secretKey : Str) (use : Use) : Option Str → Option Value → Prop
  | none, v => v = none ∨ v = some .null ∨ v = some (.str "")
  | some x, v => Secret x ∧
    ∃ nonce, v = some (.str (String.ofList (token cipher nonce (keyText secretKey use) x)))

theorem marker_of_token (nonce : ν) (key x : Str) :
    marker.isPrefixOf (token cipher nonce key x) = true := rfl

theorem decryptText_token (nonce : ν) (key key' x : Str) :
    decryptText cipher key' (token cipher nonce key x) =
      cipher.decrypt key' (cipher.encrypt nonce key x) := rfl

variable {cipher}

/-- A value with a text stands for nothing else, and for nothing under another secret key. -/
theorem Carries.unique {s t : Str} {use : Use} {x : Str} {y : Option Str} {v : Option Value}
    (hx : Carries cipher s use (some x) v) (hy : Carries cipher t use y v) : s = t ∧ y = some x := by
  obtain ⟨-, nonce, rfl⟩ := hx
  cases y with
  | none =>
    rcases hy with h | h | h
    · cases h
    · cases h
    · have htext := congrArg String.toList (Value.str.inj (Option.some.inj h))
      rw [String.toList_ofList] at htext
      cases htext
  | some y =>
    obtain ⟨-, nonce', h⟩ := hy
    have htext := congrArg String.toList (Value.str.inj (Option.some.inj h))
    rw [String.toList_ofList, String.toList_ofList] at htext
    have hbody := List.append_cancel_left htext
    have hdecrypt := cipher.decrypt_encrypt nonce' (keyText t use) y
    rw [← hbody] at hdecrypt
    by_cases hkey : keyText t use = keyText s use
    · rw [hkey, cipher.decrypt_encrypt] at hdecrypt
      exact ⟨(keyText_inj hkey).symm, hdecrypt.symm⟩
    · rw [cipher.decrypt_other _ _ _ _ hkey] at hdecrypt
      cases hdecrypt

theorem Carries.truth {s : Str} {use : Use} {x : Str} {v : Value}
    (h : Carries cipher s use (some x) (some v)) : v.truth = true := by
  obtain ⟨-, nonce, hv⟩ := h
  rw [Option.some.inj hv]
  refine decide_eq_true fun hempty => ?_
  have htext := congrArg String.toList hempty
  rw [String.toList_ofList] at htext
  cases htext

theorem Carries.not_truth {s : Str} {use : Use} {v : Value}
    (h : Carries cipher s use none (some v)) : v.truth = false := by
  rcases h with h | h | h
  · cases h
  · rw [Option.some.inj h]
    rfl
  · rw [Option.some.inj h]
    rfl

/-- An absent value and a present one without truth stand for nothing. -/
theorem carries_none {s : Str} {use : Use} : Carries cipher s use none none := .inl rfl

variable (cipher)

/-- Decrypt with one key and encrypt with another one. -/
def reencrypt (nonce : ν) (use : Use) (oldKey newKey : Str) (v : Value) : Option Value :=
  (decryptField cipher quote settingsKey use oldKey v).map
    (encryptField cipher quote settingsKey nonce use newKey false)

variable {cipher}

theorem getEncryptionKey_self (use : Use) : getEncryptionKey settingsKey use settingsKey =
    keyText settingsKey use := by
  rw [getEncryptionKey, ite_self]

theorem getEncryptionKey_nil (use : Use) : getEncryptionKey settingsKey use [] =
    keyText settingsKey use := by
  rw [getEncryptionKey, if_pos rfl]

theorem getEncryptionKey_of_ne {use : Use} {key : Str} (h : key ≠ []) :
    getEncryptionKey settingsKey use key = keyText key use := by
  rw [getEncryptionKey, if_neg h]

/-- The key of an encrypted value decrypts it. -/
theorem Carries.decryptValue {s : Str} {use : Use} {x : Str} {v : Value}
    (h : Carries cipher s use (some x) (some v)) :
    decryptValue cipher (keyText s use) v = some (.str (String.ofList x)) := by
  obtain ⟨-, nonce, hv⟩ := h
  rw [Option.some.inj hv, Encryption.decryptValue, String.toList_ofList, decryptText_token,
    cipher.decrypt_encrypt]
  rfl

theorem Carries.decryptField {use : Use} {x : Str} {v : Value}
    (h : Carries cipher settingsKey use (some x) (some v)) :
    decryptField cipher quote settingsKey use settingsKey v = some (.str (String.ofList x)) := by
  obtain ⟨-, nonce, hv⟩ := h
  have hne : ¬ (token cipher nonce (keyText settingsKey use) x = [] ∨
      ¬ marker.isPrefixOf (token cipher nonce (keyText settingsKey use) x) = true) := by
    rintro (hnil | hprefix)
    · cases hnil
    · exact hprefix (marker_of_token cipher nonce _ x)
  rw [Option.some.inj hv]
  unfold Encryption.decryptField
  simp only [Value.smartStr, String.toList_ofList]
  rw [if_neg hne, getEncryptionKey_self, decryptText_token, cipher.decrypt_encrypt]
  rfl

/-- A secret is encrypted under the key that is given. -/
theorem encryptField_secret (nonce : ν) {use : Use} {key x : Str} (hkey : key ≠ []) (hx : Secret x) :
    Carries cipher key use (some x)
      (some (encryptField cipher quote settingsKey nonce use key false (.str (String.ofList x)))) := by
  have hplain : ¬ (x = [] ∨ marker.isPrefixOf x = true ∨ false = true ∧ x = "ASK".toList) := by
    rintro (hnil | hprefix | ⟨hask, -⟩)
    · exact hx.1 hnil
    · rw [hx.2] at hprefix
      cases hprefix
    · cases hask
  refine ⟨hx, nonce, ?_⟩
  unfold encryptField
  simp only [Value.smartStr, String.toList_ofList]
  rw [if_neg hplain, getEncryptionKey_of_ne settingsKey hkey]

/-- What is encrypted already is stored as it is. -/
theorem Carries.encryptField {s : Str} {use : Use} {x : Str} {v : Value}
    (h : Carries cipher s use (some x) (some v)) (nonce : ν) (use' : Use) (key : Str) (ask : Bool) :
    encryptField cipher quote settingsKey nonce use' key ask v = v := by
  obtain ⟨-, nonce', hv⟩ := h
  rw [Option.some.inj hv]
  unfold Encryption.encryptField
  simp only [Value.smartStr, String.toList_ofList]
  rw [if_pos (.inr (.inl (marker_of_token cipher nonce' _ x)))]

/-- A value other than null is re-encrypted for the same text. -/
theorem Carries.reencrypt {use : Use} {key : Str} {x : Option Str} {v : Value} (hkey : key ≠ [])
    (h : Carries cipher settingsKey use x (some v)) (hnull : v ≠ .null) (nonce : ν) :
    ∃ v', reencrypt cipher quote settingsKey nonce use settingsKey key v = some v' ∧
      Carries cipher key use x (some v') := by
  cases x with
  | none =>
    rcases h with h | h | h
    · cases h
    · exact absurd (Option.some.inj h) hnull
    · rw [Option.some.inj h]
      exact ⟨.str "", rfl, .inr (.inr rfl)⟩
  | some x =>
    refine ⟨_, ?_, encryptField_secret quote settingsKey nonce hkey h.1⟩
    rw [Encryption.reencrypt, Carries.decryptField quote settingsKey h]
    rfl

theorem decryptField_text {use : Use} {key : Str} {v w : Value}
    (h : decryptField cipher quote settingsKey use key v = some w) : ∃ s, w = .str s := by
  unfold Encryption.decryptField at h
  dsimp only at h
  split_ifs at h
  · exact ⟨_, (Option.some.inj h).symm⟩
  · obtain ⟨x, -, hx⟩ := Option.map_eq_some_iff.mp h
    exact ⟨_, hx.symm⟩

theorem encryptField_text (nonce : ν) (use : Use) (key : Str) (ask : Bool) (s : String) :
    ∃ t, encryptField cipher quote settingsKey nonce use key ask (.str s) = .str t := by
  unfold Encryption.encryptField
  dsimp only
  split_ifs
  · exact ⟨_, rfl⟩
  · exact ⟨_, rfl⟩

/-- What is re-encrypted is a text. -/
theorem reencrypt_text {nonce : ν} {use : Use} {oldKey newKey : Str} {v w : Value}
    (h : reencrypt cipher quote settingsKey nonce use oldKey newKey v = some w) : ∃ s, w = .str s := by
  obtain ⟨raw, hraw, rfl⟩ := Option.map_eq_some_iff.mp h
  obtain ⟨s, rfl⟩ := decryptField_text quote settingsKey hraw
  exact encryptField_text quote settingsKey nonce use newKey false s

theorem decryptField_null (use : Use) (key : Str) :
    decryptField cipher quote settingsKey use key .null = some (.str (String.ofList "None".toList)) := by
  have htext : (Value.null.smartStr quote).toList = "None".toList := rfl
  have hplain : (Value.null.smartStr quote).toList = [] ∨
      ¬ marker.isPrefixOf (Value.null.smartStr quote).toList = true := by
    rw [htext]
    decide
  exact if_pos hplain

/-- Null is re-encrypted as if it were a text. -/
theorem reencrypt_null {use : Use} {key : Str} (hkey : key ≠ []) (nonce : ν) :
    ∃ v', reencrypt cipher quote settingsKey nonce use settingsKey key .null = some v' ∧
      Carries cipher key use (some "None".toList) (some v') := by
  refine ⟨_, ?_, encryptField_secret quote settingsKey nonce hkey ⟨by decide, by decide⟩⟩
  rw [Encryption.reencrypt, decryptField_null]
  rfl

end Fields

/-! ### A cipher to compute with -/

/-- A key in front of a text, with its end marked. -/
def sealed (key : Str) : Str := key.flatMap (fun c => ['k', c]) ++ ['x']

theorem sealed_cons (c : Char) (key : Str) : sealed (c :: key) = 'k' :: c :: sealed key := rfl

theorem sealed_inj {key key' x : Str} (h : sealed key' <+: sealed key ++ x) : key' = key := by
  induction key' generalizing key with
  | nil =>
    cases key with
    | nil => rfl
    | cons c key => exact absurd (List.cons_prefix_cons.mp h).1 (by decide)
  | cons c' key' ih =>
    cases key with
    | nil => exact absurd (List.cons_prefix_cons.mp h).1 (by decide)
    | cons c key =>
      rw [sealed_cons, sealed_cons, List.cons_append, List.cons_append, List.cons_prefix_cons,
        List.cons_prefix_cons] at h
      rw [h.2.1, ih h.2.2]

/-- A cipher that shows its texts but knows its keys. -/
def plainCipher : Cipher Unit where
  encrypt _ key x := sealed key ++ x
  decrypt key body := if sealed key <+: body then some (body.drop (sealed key).length) else none
  decrypt_encrypt _ key x := by rw [if_pos (List.prefix_append _ _), List.drop_left]
  decrypt_other _ key key' x hne := if_neg fun h => hne (sealed_inj h)

end Forail.Encryption
