import Mathlib.Algebra.Order.Group.Nat
import Mathlib.Data.List.Infix
import Mathlib.Tactic.Linarith
import Mathlib.Tactic.Ring

/-! `str.replace` with a count: occurrences are taken from the left and do not overlap. The characters of
the text may carry marks, which travel with them; so it can be said which of them a replacement takes
away. -/

namespace Forail.Replace

section Reached

variable {κ : Type*}

/-- The place behind a text is among the first `n` occurrences, as they are taken from the left. -/
def Reached (old : List κ) : ℕ → List κ → Prop
  | 0, _ => False
  | n + 1, A => ¬ old <:+: (A ++ old).dropLast ∨
    ∃ B C, A = B ++ old ++ C ∧ ¬ old <:+: (B ++ old).dropLast ∧ Reached old n C

variable {old : List κ} {n : ℕ} {a : κ} {A B C : List κ}

theorem getElem?_of_start {L M : List κ} (h : L <+: M) {i : ℕ} (hi : i < L.length) : L[i]? = M[i]? := by
  obtain ⟨t, rfl⟩ := h
  rw [List.getElem?_append_left hi]

/-- An occurrence at the start ends before the last character. -/
theorem infix_dropLast_of_start {L : List κ} (h : old <+: L) (hlt : old.length < L.length) :
    old <:+: L.dropLast := by
  refine (List.prefix_of_prefix_length_le h (List.dropLast_prefix L) ?_).isInfix
  rw [List.length_dropLast]
  omega

theorem infix_dropLast_cons_iff (hne : old ≠ []) (h : ¬ old <+: a :: A ++ old) :
    old <:+: (a :: A ++ old).dropLast ↔ old <:+: (A ++ old).dropLast := by
  have hcons : (a :: A ++ old).dropLast = a :: (A ++ old).dropLast := by
    rw [List.cons_append, List.dropLast_cons_of_ne_nil (by simp [hne])]
  rw [hcons, List.infix_cons_iff]
  refine or_iff_right fun hstart => h (hstart.trans ?_)
  rw [← hcons]
  exact List.dropLast_prefix _

theorem reached_nil (hne : old ≠ []) : Reached old (n + 1) [] := by
  refine .inl fun h => ?_
  have hle := h.length_le
  have hpos : 0 < old.length := List.length_pos_iff.mpr hne
  rw [List.nil_append, List.length_dropLast] at hle
  omega

theorem reached_cons_iff (hne : old ≠ []) (h : ¬ old <+: a :: A ++ old) :
    Reached old (n + 1) (a :: A) ↔ Reached old (n + 1) A := by
  rw [Reached, Reached, infix_dropLast_cons_iff hne h]
  refine or_congr_right ⟨?_, ?_⟩
  · rintro ⟨B, C, heq, hfirst, hrest⟩
    cases B with
    | nil => exact absurd ⟨C ++ old, by rw [heq]; simp⟩ h
    | cons b B =>
      obtain ⟨rfl, rfl⟩ := List.cons.inj heq
      have hfree : ¬ old <+: a :: B ++ old := fun hstart => h (hstart.trans ⟨C ++ old, by simp⟩)
      exact ⟨B, C, rfl, mt (infix_dropLast_cons_iff hne hfree).mpr hfirst, hrest⟩
  · rintro ⟨B, C, rfl, hfirst, hrest⟩
    have hfree : ¬ old <+: a :: B ++ old := fun hstart => h (hstart.trans ⟨C ++ old, by simp⟩)
    exact ⟨a :: B, C, rfl, mt (infix_dropLast_cons_iff hne hfree).mp hfirst, hrest⟩

theorem reached_append_iff (hne : old ≠ []) : Reached old (n + 1) (old ++ C) ↔ Reached old n C := by
  have hpos : 0 < old.length := List.length_pos_iff.mpr hne
  constructor
  · rintro (hfirst | ⟨B, C', heq, hfirst, hrest⟩)
    · refine absurd (infix_dropLast_of_start ⟨C ++ old, by simp⟩ ?_) hfirst
      simp only [List.length_append]
      omega
    · cases B with
      | nil =>
        obtain rfl := List.append_cancel_left heq
        exact hrest
      | cons b B =>
        refine absurd (infix_dropLast_of_start ?_ ?_) hfirst
        · refine List.prefix_of_prefix_length_le (List.prefix_append old C) ⟨C', heq.symm⟩ ?_
          simp only [List.length_append, List.length_cons]
          omega
        · simp only [List.length_append, List.length_cons]
          omega
  · exact fun hrest => .inr ⟨[], C, rfl, by
      intro h
      have hle := h.length_le
      rw [List.nil_append, List.length_dropLast] at hle
      omega, hrest⟩

theorem not_reached_of_overlap (h : old <+: A ++ old) (hA : A ≠ []) (hlt : A.length < old.length) :
    ¬ Reached old (n + 1) A := by
  have hpos : 0 < A.length := List.length_pos_iff.mpr hA
  rintro (hfirst | ⟨B, C, rfl, -, -⟩)
  · refine hfirst (infix_dropLast_of_start h ?_)
    rw [List.length_append]
    omega
  · simp only [List.length_append] at hlt
    omega

end Reached

variable {α β κ : Type*} [DecidableEq κ] (char : α → κ) (old : List κ) (new : List α)

/-- The first `skip` characters belong to an occurrence that is already replaced. -/
def replaceFrom : ℕ → ℕ → List α → List α
  | _, _, [] => []
  | n, skip + 1, _ :: s => replaceFrom n skip s
  | 0, 0, x :: s => x :: s
  | n + 1, 0, x :: s =>
    if old <+: (x :: s).map char then new ++ replaceFrom n (old.length - 1) s
    else x :: replaceFrom (n + 1) 0 s

def replace (n : ℕ) (s : List α) : List α := replaceFrom char old new n 0 s

variable {char old new}

theorem replaceFrom_skip (n skip : ℕ) (s : List α) :
    replaceFrom char old new n skip s = replace char old new n (s.drop skip) := by
  induction skip generalizing s with
  | zero => rfl
  | succ skip ih =>
    cases s with
    | nil => cases n <;> rfl
    | cons x s =>
      rw [replaceFrom, ih, List.drop_succ_cons]

theorem replace_zero (s : List α) : replace char old new 0 s = s := by
  cases s with
  | nil => rfl
  | cons x s => rfl

theorem replace_nil (n : ℕ) : replace char old new n [] = [] := by
  cases n with
  | zero => rfl
  | succ n => rfl

theorem replace_cons_of_start (hne : old ≠ []) {x : α} {s : List α} (h : old <+: (x :: s).map char)
    (n : ℕ) : replace char old new (n + 1) (x :: s) =
      new ++ replace char old new n ((x :: s).drop old.length) := by
  obtain ⟨k, hk⟩ := Nat.exists_eq_succ_of_ne_zero (mt List.length_eq_zero_iff.mp hne)
  rw [replace, replaceFrom, if_pos h, replaceFrom_skip, hk, List.drop_succ_cons]
  rfl

theorem replace_cons_of_no_start {x : α} {s : List α} (h : ¬ old <+: (x :: s).map char) (n : ℕ) :
    replace char old new (n + 1) (x :: s) = x :: replace char old new (n + 1) s := by
  rw [replace, replaceFrom, if_neg h]
  rfl

/-- The marks have no influence. -/
theorem map_replace (f : α → β) {char' : β → κ} (hf : ∀ x, char' (f x) = char x) (n : ℕ) (s : List α) :
    (replace char old new n s).map f = replace char' old (new.map f) n (s.map f) := by
  have hmap : ∀ s : List α, (s.map f).map char' = s.map char := by
    intro s
    rw [List.map_map]
    exact List.map_congr_left fun x _ => hf x
  suffices h : ∀ s : List α, ∀ n skip, (replaceFrom char old new n skip s).map f =
      replaceFrom char' old (new.map f) n skip (s.map f) from h s n 0
  intro s
  induction s with
  | nil => intro n skip; cases n <;> cases skip <;> rfl
  | cons x s ih =>
    intro n skip
    cases skip with
    | succ skip =>
      rw [replaceFrom, ih, List.map_cons, replaceFrom]
    | zero =>
      cases n with
      | zero => rfl
      | succ n =>
        rw [List.map_cons, replaceFrom, replaceFrom, ← List.map_cons, hmap]
        split_ifs
        · rw [List.map_append, ih]
        · rw [List.map_cons, ih]

/-- Where no occurrence starts, nothing is changed. -/
theorem replace_append_of_free {X : List α} {s : List α}
    (hfree : ∀ i < X.length, ¬ old <+: ((X ++ s).drop i).map char) (n : ℕ) :
    replace char old new n (X ++ s) = X ++ replace char old new n s := by
  cases n with
  | zero => rw [replace_zero, replace_zero]
  | succ n =>
    induction X with
    | nil => rfl
    | cons x X ih =>
      have hhead : ¬ old <+: (x :: (X ++ s)).map char := hfree 0 (Nat.succ_pos _)
      rw [List.cons_append, replace_cons_of_no_start hhead,
        ih fun i hi => hfree (i + 1) (Nat.succ_lt_succ hi), List.cons_append]

theorem replace_occurrence (hne : old ≠ []) {P s : List α} (hP : P.map char = old) (n : ℕ) :
    replace char old new (n + 1) (P ++ s) = new ++ replace char old new n s := by
  cases P with
  | nil => exact absurd hP.symm hne
  | cons x P =>
    have hprefix : old <+: (x :: (P ++ s)).map char := by
      rw [← List.cons_append, List.map_append, hP]
      exact List.prefix_append _ _
    have hlength : old.length = (x :: P).length := by rw [← hP, List.length_map]
    rw [List.cons_append, replace_cons_of_start hne hprefix, ← List.cons_append, hlength, List.drop_left]

theorem mem_of_mem_replace (hne : old ≠ []) {n : ℕ} {s : List α} {x : α}
    (hx : x ∈ replace char old new n s) : x ∈ s ∨ x ∈ new := by
  induction hlength : s.length using Nat.strong_induction_on generalizing s n with
  | _ k ih =>
    subst hlength
    cases n with
    | zero =>
      rw [replace_zero] at hx
      exact .inl hx
    | succ n =>
      cases s with
      | nil => cases hx
      | cons y s =>
        by_cases hprefix : old <+: (y :: s).map char
        · have hpos : 0 < old.length := List.length_pos_iff.mpr hne
          rw [replace_cons_of_start hne hprefix] at hx
          rcases List.mem_append.mp hx with hx | hx
          · exact .inr hx
          · exact (ih _ (by simp; omega) hx rfl).imp_left List.mem_of_mem_drop
        · rw [replace_cons_of_no_start hprefix] at hx
          rcases List.mem_cons.mp hx with rfl | hx
          · exact .inl List.mem_cons_self
          · exact (ih _ (Nat.lt_succ_self _) hx rfl).imp_left (List.mem_cons_of_mem y)

/-- A text that the pattern only occurs in at its end precedes the first occurrence. -/
theorem replace_first (hne : old ≠ []) {A P s : List α} (hP : P.map char = old)
    (h : ¬ old <:+: (A.map char ++ old).dropLast) (n : ℕ) :
    replace char old new (n + 1) (A ++ P ++ s) = A ++ new ++ replace char old new n s := by
  have hfree : ∀ i < A.length, ¬ old <+: ((A ++ (P ++ s)).drop i).map char := by
    intro i hi hprefix
    rw [List.drop_append_of_le_length hi.le, List.map_append, List.map_append, hP, List.map_drop,
      ← List.append_assoc, ← List.drop_append_of_le_length (by simpa using hi.le)] at hprefix
    have hshort : old <+: ((A.map char ++ old).drop i) := by
      refine List.prefix_of_prefix_length_le hprefix (List.prefix_append _ _) ?_
      simp only [List.length_drop, List.length_append, List.length_map]
      omega
    have hinfix : old <:+: ((A.map char ++ old).drop i).dropLast := by
      refine infix_dropLast_of_start hshort ?_
      simp only [List.length_drop, List.length_append, List.length_map]
      omega
    rw [List.dropLast_eq_take, List.length_drop, List.take_drop] at hinfix
    refine h ( hinfix.trans ((List.drop_suffix _ _).isInfix.trans ?_))
    rw [List.dropLast_eq_take, show i + ((A.map char ++ old).length - i - 1) = (A.map char ++ old).length - 1 by
      simp only [List.length_append, List.length_map]; omega]
  rw [List.append_assoc, replace_append_of_free hfree, replace_occurrence hne hP, List.append_assoc]

/-- A text with an occurrence has a first one. -/
theorem exists_first {old L : List κ} (hne : old ≠ []) (h : old <:+: L) :
    ∃ B C, L = B ++ old ++ C ∧ ¬ old <:+: (B ++ old).dropLast := by
  induction L with
  | nil => exact absurd (List.eq_nil_of_infix_nil h) hne
  | cons a L ih =>
    by_cases hprefix : old <+: a :: L
    · obtain ⟨C, hC⟩ := hprefix
      exact ⟨[], C, hC.symm, fun hinfix => by
        have hle := hinfix.length_le
        have hpos : 0 < old.length := List.length_pos_iff.mpr hne
        rw [List.nil_append, List.length_dropLast] at hle
        omega⟩
    · obtain ⟨B, C, rfl, hfirst⟩ := ih ((List.infix_cons_iff.mp h).resolve_left hprefix)
      have hfree : ¬ old <+: a :: B ++ old := fun hstart => hprefix (hstart.trans ⟨C, by simp⟩)
      exact ⟨a :: B, C, rfl, mt (infix_dropLast_cons_iff hne hfree).mp hfirst⟩

/-! ### What is left of the marked characters -/

variable {secret : α → Bool}

/-- Each replacement takes away at most one character for each of the pattern. -/
theorem countP_le_replace (hne : old ≠ []) (n : ℕ) (s : List α) :
    s.countP secret ≤ (replace char old new n s).countP secret + n * old.length := by
  induction hlength : s.length using Nat.strong_induction_on generalizing s n with
  | _ k ih =>
    subst hlength
    cases n with
    | zero => rw [replace_zero]; omega
    | succ n =>
      cases s with
      | nil => exact Nat.zero_le _
      | cons x s =>
        by_cases hprefix : old <+: (x :: s).map char
        · have hpos : 0 < old.length := List.length_pos_iff.mpr hne
          have hrest := ih _ (by simp; omega) n ((x :: s).drop old.length) rfl
          have hsplit := congrArg (List.countP secret) (List.take_append_drop old.length (x :: s))
          have htake : ((x :: s).take old.length).countP secret ≤ old.length :=
            List.countP_le_length.trans (List.length_take_le _ _)
          rw [replace_cons_of_start hne hprefix, List.countP_append, Nat.succ_mul]
          rw [List.countP_append] at hsplit
          omega
        · have hrest := ih s.length (Nat.lt_succ_self _) (n + 1) s rfl
          rw [replace_cons_of_no_start hprefix, List.countP_cons, List.countP_cons]
          omega

omit [DecidableEq κ] in
/-- After an overlapping occurrence none starts in what is left of the place: it would need the character
behind the place among those before it. -/
theorem free_of_overlap {A P C : List α} {z : κ} (hP : P.map char = old) (hlt : A.length < old.length)
    (hoverlap : old <+: (A ++ P ++ C).map char) (hz : (C.map char).head? = some z) (hzA : z ∉ A.map char) :
    ∀ i < (P.drop (old.length - A.length)).length,
      ¬ old <+: ((P.drop (old.length - A.length) ++ C).drop i).map char := by
  intro i hi hprefix
  have hPlength : P.length = old.length := by rw [← hP, List.length_map]
  rw [List.length_drop, hPlength] at hi
  rw [List.map_append, List.map_append] at hoverlap
  -- The next occurrence has `z` at the place `q`, which is at most the length of `A`.
  obtain ⟨q, hq⟩ : ∃ q, A.length = i + q := ⟨A.length - i, by omega⟩
  have hqz : old[q]? = some z := by
    rw [getElem?_of_start hprefix (by omega), List.drop_append_of_le_length (by simp; omega),
      List.drop_drop, List.map_append, List.getElem?_append_right (by simp; omega), ← hz,
      List.head?_eq_getElem?]
    congr 1
    simp only [List.length_map, List.length_drop]
    omega
  have hmem : ∀ j < A.length, old[j]? = (A.map char)[j]? := by
    intro j hj
    rw [getElem?_of_start hoverlap (by omega), List.append_assoc,
      List.getElem?_append_left (by simpa using hj)]
  have hfirst : ∃ j < A.length, old[j]? = some z := by
    rcases Nat.lt_or_ge q A.length with hlt' | hge
    · exact ⟨q, hlt', hqz⟩
    · -- The occurrence starts with the place's remainder, and the overlap repeats its first character.
      refine ⟨0, by omega, ?_⟩
      rw [← hqz, getElem?_of_start hoverlap (show q < old.length by omega), List.append_assoc,
        List.getElem?_append_right (by simpa using hge), hP, List.length_map,
        show q - A.length = 0 by omega, List.getElem?_append_left (by omega)]
  obtain ⟨j, hj, hjz⟩ := hfirst
  rw [hmem j hj] at hjz
  exact hzA (List.mem_of_getElem? hjz)

/-- The marked place is taken away if and only if it is among the occurrences that are replaced. Of
several, none may leave a part of the place to a later one. -/
theorem replace_hides_iff (hne : old ≠ []) (hnew : ∀ x ∈ new, secret x = false) {A P C : List α} {n : ℕ}
    (hA : ∀ x ∈ A, secret x = false) (hP : P.map char = old) (hsecret : ∀ x ∈ P, secret x = true)
    (hC : ∀ x ∈ C, secret x = false)
    (hbehind : n ≤ 1 ∨ ∃ z, (C.map char).head? = some z ∧ z ∉ A.map char) :
    (∀ x ∈ replace char old new n (A ++ P ++ C), secret x = false) ↔ Reached old n (A.map char) := by
  have hPlength : P.length = old.length := by rw [← hP, List.length_map]
  have hpos : 0 < old.length := List.length_pos_iff.mpr hne
  induction n generalizing A with
  | zero =>
    rw [replace_zero]
    refine iff_of_false (fun h => ?_) id
    have hmem : P[0] ∈ A ++ P ++ C := by simp
    have hhidden := h _ hmem
    rw [hsecret _ (List.getElem_mem _)] at hhidden
    cases hhidden
  | succ n ihn =>
    induction A with
    | nil =>
      rw [List.nil_append, replace_occurrence hne hP]
      refine iff_of_true (fun x hx => ?_) (reached_nil hne)
      rcases List.mem_append.mp hx with hx | hx
      · exact hnew x hx
      · rcases mem_of_mem_replace hne hx with hx | hx
        · exact hC x hx
        · exact hnew x hx
    | cons a A ihA =>
      have hmap : ((a :: A) ++ P ++ C).map char = (a :: A).map char ++ old ++ C.map char := by
        rw [List.map_append, List.map_append, hP]
      by_cases hprefix : old <+: ((a :: A) ++ P ++ C).map char
      · rcases Nat.lt_or_ge (a :: A).length old.length with hlt | hle
        · -- The occurrence takes a part of the place, and nothing takes the rest.
          have hoverlap : old <+: (a :: A).map char ++ old := by
            rw [hmap] at hprefix
            refine List.prefix_of_prefix_length_le hprefix (List.prefix_append _ _) ?_
            rw [List.length_append]
            omega
          refine iff_of_false (fun h => ?_)
            (not_reached_of_overlap hoverlap (by simp) (by simpa using hlt))
          have hdrop : ((a :: A) ++ P ++ C).drop old.length = P.drop (old.length - (a :: A).length) ++ C := by
            rw [List.append_assoc, List.drop_append, List.drop_eq_nil_of_le hlt.le, List.nil_append,
              List.drop_append_of_le_length (by omega)]
          have hleft : ∃ x ∈ P.drop (old.length - (a :: A).length), secret x = true := by
            have hlength : 0 < (P.drop (old.length - (a :: A).length)).length := by
              rw [List.length_drop, hPlength, List.length_cons]
              rw [List.length_cons] at hlt
              omega
            exact ⟨_, List.getElem_mem hlength, hsecret _ (List.mem_of_mem_drop (List.getElem_mem hlength))⟩
          obtain ⟨x, hx, hmarked⟩ := hleft
          have hstays : x ∈ replace char old new n (P.drop (old.length - (a :: A).length) ++ C) := by
            rcases hbehind with hn | ⟨z, hz, hzA⟩
            · obtain rfl : n = 0 := by omega
              rw [replace_zero]
              exact List.mem_append_left _ hx
            · rw [replace_append_of_free (free_of_overlap hP hlt hprefix hz hzA)]
              exact List.mem_append_left _ hx
          have hstep : replace char old new (n + 1) ((a :: A) ++ P ++ C) =
              new ++ replace char old new n (((a :: A) ++ P ++ C).drop old.length) :=
            replace_cons_of_start hne hprefix n
          rw [hdrop] at hstep
          have hhidden := h x (hstep ▸ List.mem_append_right _ hstays)
          rw [hmarked] at hhidden
          cases hhidden
        · obtain ⟨X, A', hA', hX⟩ : ∃ X A', a :: A = X ++ A' ∧ X.map char = old := by
            refine ⟨(a :: A).take old.length, (a :: A).drop old.length, (List.take_append_drop _ _).symm, ?_⟩
            rw [hmap] at hprefix
            rw [List.map_take]
            refine (List.prefix_iff_eq_take.mp (List.prefix_of_prefix_length_le hprefix
              ((List.prefix_append _ _).trans (List.prefix_append _ _)) ?_)).symm
            rw [List.length_map]
            exact hle
          rw [hA'] at hA hbehind ⊢
          have hbehind' : n ≤ 1 ∨ ∃ z, (C.map char).head? = some z ∧ z ∉ A'.map char := by
            refine hbehind.imp (by omega) fun ⟨z, hz, hzA⟩ => ⟨z, hz, fun hmem => hzA ?_⟩
            rw [List.map_append]
            exact List.mem_append_right _ hmem
          have hrest := ihn (fun x hx => hA x (List.mem_append_right _ hx)) hbehind'
          rw [List.map_append, hX, reached_append_iff hne, List.append_assoc, List.append_assoc,
            replace_occurrence hne hX, ← List.append_assoc, List.forall_mem_append]
          exact (and_iff_right hnew).trans hrest
      · have hfree : ¬ old <+: char a :: A.map char ++ old := by
          rw [hmap] at hprefix
          exact fun h => hprefix (h.trans (List.prefix_append _ _))
        have hbehind' : n + 1 ≤ 1 ∨ ∃ z, (C.map char).head? = some z ∧ z ∉ A.map char :=
          hbehind.imp_right fun ⟨z, hz, hzA⟩ => ⟨z, hz, List.not_mem_of_not_mem_cons hzA⟩
        have hrest := ihA (fun x hx => hA x (List.mem_cons_of_mem _ hx)) hbehind'
        have hstep : replace char old new (n + 1) ((a :: A) ++ P ++ C) =
            a :: replace char old new (n + 1) (A ++ P ++ C) :=
          replace_cons_of_no_start hprefix n
        rw [List.map_cons, reached_cons_iff hne hfree, hstep, List.forall_mem_cons]
        exact (and_iff_right (hA a List.mem_cons_self)).trans hrest

end Forail.Replace
