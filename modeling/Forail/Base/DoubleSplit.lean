import Mathlib.Data.List.Infix

/-! Splitting a text at a doubled character, as `text.split(c + c)` does: the text is read from the
left, and of three in a row the first two are the delimiter. -/

namespace Forail

variable {α : Type*} [DecidableEq α] (c : α)

/-- The words, of which the first gets another character. -/
def consHead (x : α) : List (List α) → List (List α)
  | [] => [[x]]
  | w :: ws => (x :: w) :: ws

def splitDouble : List α → List (List α)
  | [] => [[]]
  | [x] => [[x]]
  | x :: y :: s => if x = c ∧ y = c then [] :: splitDouble s else consHead x (splitDouble (y :: s))

variable {c}

theorem splitDouble_cons {x : α} {s : List α} (h : ¬ (x = c ∧ s.head? = some c)) :
    splitDouble c (x :: s) = consHead x (splitDouble c s) := by
  cases s with
  | nil => rfl
  | cons y s =>
    have hne : ¬ (x = c ∧ y = c) := fun ⟨hx, hy⟩ => h ⟨hx, congrArg some hy⟩
    rw [splitDouble, if_neg hne]

/-- A word without the delimiter is not split. -/
theorem splitDouble_word {w : List α} (h : ¬ [c, c] <:+: w) : splitDouble c w = [w] := by
  induction w with
  | nil => rfl
  | cons x w ih =>
    have htail : ¬ [c, c] <:+: w := fun hw => h (hw.trans (List.suffix_cons x w).isInfix)
    have hhead : ¬ (x = c ∧ w.head? = some c) := by
      rintro ⟨rfl, hw⟩
      obtain ⟨w', rfl⟩ := List.head?_eq_some_iff.mp hw
      exact h ⟨[], w', rfl⟩
    rw [splitDouble_cons hhead, ih htail]
    rfl

/-- A word that does not end in half a delimiter is split off. -/
theorem splitDouble_append {w : List α} (h : ¬ [c, c] <:+: w ++ [c]) (s : List α) :
    splitDouble c (w ++ c :: c :: s) = w :: splitDouble c s := by
  induction w with
  | nil => rw [List.nil_append, splitDouble, if_pos ⟨rfl, rfl⟩]
  | cons x w ih =>
    have htail : ¬ [c, c] <:+: w ++ [c] := fun hw => h (hw.trans (List.suffix_cons x _).isInfix)
    have hhead : ¬ (x = c ∧ (w ++ c :: c :: s).head? = some c) := by
      rintro ⟨rfl, hw⟩
      cases w with
      | nil => exact h ⟨[], [], rfl⟩
      | cons y w =>
        obtain rfl : y = x := Option.some.inj hw
        exact h ⟨[], w ++ [y], rfl⟩
    rw [List.cons_append, splitDouble_cons hhead, ih htail]
    rfl

omit [DecidableEq α] in
theorem not_infix_concat {w : List α} (hw : ¬ [c, c] <:+: w) (hlast : w.getLast? ≠ some c) :
    ¬ [c, c] <:+: w ++ [c] := by
  rw [List.infix_concat_iff]
  rintro (hsuffix | hinfix)
  · obtain ⟨u, hu⟩ := hsuffix
    have hconcat : u ++ [c] ++ [c] = w ++ [c] := by simpa using hu
    rw [← List.append_cancel_right hconcat] at hlast
    exact hlast List.getLast?_concat
  · exact hw hinfix

/-- The words that were joined, when none but the last ends in half a delimiter. -/
theorem splitDouble_intercalate {words : List (List α)} (hne : words ≠ [])
    (hwords : ∀ w ∈ words, ¬ [c, c] <:+: w) (hends : ∀ w ∈ words.dropLast, w.getLast? ≠ some c) :
    splitDouble c ([c, c].intercalate words) = words := by
  induction words with
  | nil => exact absurd rfl hne
  | cons w words ih =>
    have hw := hwords w List.mem_cons_self
    cases words with
    | nil => rw [List.intercalate_singleton, splitDouble_word hw]
    | cons w' words =>
      have hlast := hends w List.mem_cons_self
      have hrest := ih (List.cons_ne_nil _ _) (fun u hu => hwords u (List.mem_cons_of_mem _ hu))
        fun u hu => hends u (List.mem_cons_of_mem _ hu)
      rw [List.intercalate_cons_cons, List.append_assoc, List.cons_append, List.singleton_append,
        splitDouble_append (not_infix_concat hw hlast), hrest]

end Forail
