import Forail.Redact.UriCleaner

/-! When the replacements in one URI hide its user name and its password. The characters of both are marked
where they stand in the user information; they are hidden when no marked character is left. -/

namespace Forail.UriCleaner

open Replace

def clear (s : Str) : List (Char × Bool) := s.map fun c => (c, false)

def hidden (s : Str) : List (Char × Bool) := s.map fun c => (c, true)

@[simp] theorem map_fst_clear (s : Str) : (clear s).map Prod.fst = s := by
  rw [clear, List.map_map]
  exact List.map_id s

@[simp] theorem map_fst_hidden (s : Str) : (hidden s).map Prod.fst = s := by
  rw [hidden, List.map_map]
  exact List.map_id s

@[simp] theorem length_clear (s : Str) : (clear s).length = s.length := List.length_map _

@[simp] theorem length_hidden (s : Str) : (hidden s).length = s.length := List.length_map _

theorem clear_append (s t : Str) : clear (s ++ t) = clear s ++ clear t := List.map_append

theorem hidden_drop (n : ℕ) (s : Str) : hidden (s.drop n) = (hidden s).drop n := List.map_drop

theorem snd_of_mem_clear {s : Str} {x : Char × Bool} (h : x ∈ clear s) : x.2 = false := by
  obtain ⟨c, -, rfl⟩ := List.mem_map.mp h
  rfl

theorem snd_of_mem_hidden {s : Str} {x : Char × Bool} (h : x ∈ hidden s) : x.2 = true := by
  obtain ⟨c, -, rfl⟩ := List.mem_map.mp h
  rfl

theorem not_all_clear {s : Str} (hne : s ≠ []) {L : List (Char × Bool)} (h : ∀ x ∈ hidden s, x ∈ L) :
    ¬ ∀ x ∈ L, x.2 = false := by
  obtain ⟨c, s, rfl⟩ := List.exists_cons_of_ne_nil hne
  intro hclear
  exact Bool.noConfusion (hclear (c, true) (h _ List.mem_cons_self))

theorem countP_clear (s : Str) : (clear s).countP Prod.snd = 0 :=
  List.countP_eq_zero.mpr fun x hx => by simp [snd_of_mem_clear hx]

theorem countP_hidden (s : Str) : (hidden s).countP Prod.snd = s.length := by
  rw [← length_hidden s, List.countP_eq_length]
  exact fun x hx => snd_of_mem_hidden hx

/-- More marked characters than a replacement takes away are not all hidden. -/
theorem not_all_clear_of_countP {old : Str} (hne : old ≠ []) {new s : List (Char × Bool)}
    (h : old.length < s.countP Prod.snd) :
    ¬ ∀ x ∈ replace Prod.fst old new 1 s, x.2 = false := by
  intro hclear
  have hle : s.countP Prod.snd ≤ (replace Prod.fst old new 1 s).countP Prod.snd + 1 * old.length :=
    countP_le_replace hne 1 s
  have hzero : (replace Prod.fst old new 1 s).countP Prod.snd = 0 :=
    List.countP_eq_zero.mpr fun x hx => by simp [hclear x hx]
  omega

/-! ### Texts without a separator -/

/-- An occurrence without the separator is on one side of it. -/
theorem infix_of_separator {z : Char} {P X Y : Str} (hz : z ∉ P) (h : P <:+: X ++ z :: Y) :
    P <:+: X ∨ P <:+: Y := by
  obtain ⟨s, t, h⟩ := h
  rcases List.append_eq_append_iff.mp h with ⟨a, hX, -⟩ | ⟨a, hsP, hY⟩
  · exact .inl ⟨s, a, hX.symm⟩
  · cases a with
    | nil => exact .inl ⟨s, [], by simpa using hsP⟩
    | cons z' a =>
      obtain ⟨rfl, rfl⟩ := List.cons.inj hY
      rcases List.append_eq_append_iff.mp hsP with ⟨b, -, hP⟩ | ⟨b, -, hza⟩
      · exact absurd (hP ▸ List.mem_append_right _ List.mem_cons_self) hz
      · cases b with
        | nil =>
          rw [List.nil_append] at hza
          exact absurd (hza ▸ List.mem_cons_self) hz
        | cons _ b =>
          obtain ⟨-, rfl⟩ := List.cons.inj hza
          exact .inr ⟨b, t, rfl⟩

theorem reached_one_iff {P A : Str} (hne : P ≠ []) (hslash : '/' ∉ P) (hA : A.getLast? = some '/') :
    Reached P 1 A ↔ ¬ P <:+: A := by
  obtain ⟨A, rfl⟩ := List.getLast?_eq_some_iff.mp hA
  have hpos : 0 < P.length := List.length_pos_iff.mpr hne
  have hlast : (A ++ ['/'] ++ P).dropLast = A ++ '/' :: P.dropLast := by
    rw [List.dropLast_append_of_ne_nil hne, List.append_assoc]
    rfl
  rw [Reached, or_iff_left (by rintro ⟨_, _, _, _, hfalse⟩; exact hfalse), hlast, not_iff_not]
  constructor
  · intro h
    rcases infix_of_separator hslash h with h | h
    · exact h.trans (List.prefix_append _ _).isInfix
    · have hle := h.length_le
      rw [List.length_dropLast] at hle
      omega
  · intro h
    exact h.trans ⟨[], P.dropLast, by simp⟩

/-- Before a separator that the pattern does not have, occurrences start within the text only. -/
theorem free_of_separator {z : Char} {P A : Str} {s : List (Char × Bool)} (hz : z ∉ P)
    (hA : A.getLast? = some z) (h : ¬ P <:+: A) :
    ∀ i < (clear A).length, ¬ P <+: ((clear A ++ s).drop i).map Prod.fst := by
  intro i hi hprefix
  rw [length_clear] at hi
  rw [List.map_drop, List.map_append, map_fst_clear, List.drop_append_of_le_length hi.le] at hprefix
  rcases Nat.le_total P.length (A.drop i).length with hle | hle
  · have hstart := List.prefix_of_prefix_length_le hprefix (List.prefix_append _ _) hle
    exact h (hstart.isInfix.trans (List.drop_suffix i A).isInfix)
  · have hwhole := List.prefix_of_prefix_length_le (List.prefix_append _ _) hprefix hle
    have hmem : z ∈ A.drop i := by
      refine List.mem_of_getLast? ?_
      rw [List.getLast?_drop, if_neg (by omega), hA]
    exact hz (hwhole.subset hmem)

/-! ### Both secrets in one password -/

/-- A user name at the start is taken away by the password that is the user name, with or without the
colon. -/
theorem hides_user_iff {U P rest : Str} (hU : U ≠ []) (hP : P ≠ []) (hcolon : ':' ∉ U) (hat : '@' ∉ U) :
    (∀ x ∈ replace Prod.fst P (clear replaceStr) 2
      (hidden U ++ (clear [':'] ++ hidden P) ++ clear ('@' :: rest)), x.2 = false) ↔
    P = U ∨ P = U ++ [':'] := by
  have hPpos : 0 < P.length := List.length_pos_iff.mpr hP
  have hUpos : 0 < U.length := List.length_pos_iff.mpr hU
  have hmap : (hidden U ++ (clear [':'] ++ hidden P) ++ clear ('@' :: rest)).map Prod.fst =
      U ++ ([':'] ++ P) ++ '@' :: rest := by
    simp only [List.map_append, map_fst_clear, map_fst_hidden]
  have hcons : ∃ x s, hidden U ++ (clear [':'] ++ hidden P) ++ clear ('@' :: rest) = x :: s ∧
      x ∈ hidden U := by
    obtain ⟨u, U, rfl⟩ := List.exists_cons_of_ne_nil hU
    exact ⟨_, _, rfl, List.mem_cons_self⟩
  by_cases hprefix : P <+: U ++ ([':'] ++ P) ++ '@' :: rest
  · have hstep : replace Prod.fst P (clear replaceStr) 2
        (hidden U ++ (clear [':'] ++ hidden P) ++ clear ('@' :: rest)) = clear replaceStr ++
          replace Prod.fst P (clear replaceStr) 1
            ((hidden U ++ (clear [':'] ++ hidden P) ++ clear ('@' :: rest)).drop P.length) := by
      rw [← hmap] at hprefix
      obtain ⟨x, s, heq, -⟩ := hcons
      rw [heq] at hprefix ⊢
      exact replace_cons_of_start hP hprefix 1
    rw [hstep, List.forall_mem_append, and_iff_right fun x hx => snd_of_mem_clear hx]
    have hsplit : hidden U ++ (clear [':'] ++ hidden P) ++ clear ('@' :: rest) =
        (hidden U ++ clear [':']) ++ hidden P ++ clear ('@' :: rest) := by
      simp only [List.append_assoc]
    have hlength : (hidden U ++ clear [':']).length = U.length + 1 := by simp
    have hbetween : P = U ∨ P = U ++ [':'] → U.length ≤ P.length ∧ P.length ≤ U.length + 1 := by
      rintro (rfl | rfl)
      · omega
      · rw [List.length_append, List.length_singleton]
        omega
    rcases Nat.lt_trichotomy P.length (U.length + 1) with hlt | heq | hgt
    · rcases Nat.lt_or_ge P.length U.length with hshort | hlong
      · -- A part of the user name and the whole password are left, for one replacement.
        refine iff_of_false (not_all_clear_of_countP hP ?_) fun h => ?_
        · have hdrop : (hidden U ++ (clear [':'] ++ hidden P) ++ clear ('@' :: rest)).drop P.length =
              hidden (U.drop P.length) ++ (clear [':'] ++ hidden P) ++ clear ('@' :: rest) := by
            rw [List.append_assoc, List.drop_append_of_le_length (by simpa using hshort.le), ← hidden_drop]
            exact (List.append_assoc _ _ _).symm
          rw [hdrop, List.countP_append, List.countP_append, List.countP_append, countP_hidden,
            countP_hidden, countP_clear, countP_clear, List.length_drop]
          omega
        · have hle := hbetween h
          omega
      · -- The password is the user name, and comes again behind the colon.
        have hPU : P = U := by
          rw [List.append_assoc] at hprefix
          have hstart := List.prefix_of_prefix_length_le hprefix (List.prefix_append _ _) (by omega)
          exact hstart.eq_of_length (by omega)
        subst hPU
        refine iff_of_true ?_ (.inl rfl)
        have hdrop : (hidden P ++ (clear [':'] ++ hidden P) ++ clear ('@' :: rest)).drop P.length =
            clear [':'] ++ hidden P ++ clear ('@' :: rest) := by
          rw [List.append_assoc]
          exact List.drop_left' (length_hidden P)
        have hfirst : ¬ P <:+: ((clear [':']).map Prod.fst ++ P).dropLast := by
          rw [map_fst_clear]
          intro hinfix
          have heq := hinfix.eq_of_length (by simp)
          obtain ⟨p, P, rfl⟩ := List.exists_cons_of_ne_nil hP
          have hhead : p = ':' := by simpa using (List.cons.inj heq).1
          exact hcolon (hhead ▸ List.mem_cons_self)
        rw [hdrop, replace_first hP (map_fst_hidden P) hfirst, replace_zero]
        intro x hx
        rcases List.mem_append.mp hx with hx | hx
        · rcases List.mem_append.mp hx with hx | hx
          · exact snd_of_mem_clear hx
          · exact snd_of_mem_clear hx
        · exact snd_of_mem_clear hx
    · -- The password is the user name with the colon, and comes again at once.
      have hPU : P = U ++ [':'] := by
        have hstart : P <+: U ++ [':'] := by
          refine List.prefix_of_prefix_length_le hprefix ⟨P ++ '@' :: rest, by simp⟩ ?_
          simp [heq]
        exact hstart.eq_of_length (by simp [heq])
      refine iff_of_true ?_ (.inr hPU)
      rw [hsplit, List.append_assoc, List.drop_left' (by rw [hlength, heq]),
        replace_occurrence hP (map_fst_hidden P), replace_zero]
      intro x hx
      rcases List.mem_append.mp hx with hx | hx
      · exact snd_of_mem_clear hx
      · exact snd_of_mem_clear hx
    · -- The occurrence takes a part of the password's place, and nothing takes the rest.
      refine iff_of_false ?_ fun h => ?_
      · have hlt : (hidden U ++ clear [':']).length < P.length := by rw [hlength]; exact hgt
        have hoverlap : P <+: ((hidden U ++ clear [':']) ++ hidden P ++ clear ('@' :: rest)).map Prod.fst := by
          rw [← hsplit, hmap]
          exact hprefix
        have hnotAt : '@' ∉ (hidden U ++ clear [':']).map Prod.fst := by
          rw [List.map_append, map_fst_hidden, map_fst_clear]
          simp [hat]
        have hfree := free_of_overlap (map_fst_hidden P) hlt hoverlap (map_fst_clear _ ▸ rfl) hnotAt
        have hdrop : (hidden U ++ (clear [':'] ++ hidden P) ++ clear ('@' :: rest)).drop P.length =
            (hidden P).drop (P.length - (hidden U ++ clear [':']).length) ++ clear ('@' :: rest) := by
          rw [hsplit, List.append_assoc, List.drop_append, List.drop_eq_nil_of_le hlt.le, List.nil_append,
            List.drop_append_of_le_length (by simp)]
        rw [hdrop, replace_append_of_free hfree]
        have hleft : P.drop (P.length - (hidden U ++ clear [':']).length) ≠ [] := by
          refine List.ne_nil_of_length_pos ?_
          rw [List.length_drop]
          omega
        refine not_all_clear hleft fun x hx => List.mem_append_left _ ?_
        rwa [hidden_drop] at hx
      · have hle := hbetween h
        omega
  · refine iff_of_false (fun hclear => ?_) fun h => hprefix ?_
    · obtain ⟨x, s, heq, hx⟩ := hcons
      rw [← hmap, heq] at hprefix
      rw [heq, replace_cons_of_no_start hprefix] at hclear
      exact Bool.noConfusion ((snd_of_mem_hidden hx).symm.trans (hclear x List.mem_cons_self))
    · rcases h with rfl | rfl
      · exact ⟨_, (List.append_assoc _ _ _).symm⟩
      · exact ⟨U ++ [':'] ++ '@' :: rest, by simp⟩

/-- Where the user name is left, the password has to take it away, and so may not occur before. -/
theorem hides_both_iff {A U P rest : Str} (hU : U ≠ []) (hP : P ≠ []) (hslash : '/' ∉ P)
    (hA : A.getLast? = some '/') (hcolon : ':' ∉ U) (hat : '@' ∉ U) :
    (∀ x ∈ replace Prod.fst P (clear replaceStr) 2
      (clear A ++ (hidden U ++ (clear [':'] ++ hidden P) ++ clear ('@' :: rest))), x.2 = false) ↔
    (P = U ∨ P = U ++ [':']) ∧ ¬ P <:+: A := by
  have hUpos : 0 < U.length := List.length_pos_iff.mpr hU
  have hPpos : 0 < P.length := List.length_pos_iff.mpr hP
  have hcount : (hidden U ++ (clear [':'] ++ hidden P) ++ clear ('@' :: rest)).countP Prod.snd =
      U.length + P.length := by
    rw [List.countP_append, List.countP_append, List.countP_append, countP_hidden, countP_hidden,
      countP_clear, countP_clear]
    omega
  by_cases hinfix : P <:+: A
  · refine iff_of_false (fun hclear => ?_) fun h => h.2 hinfix
    obtain ⟨B, C, rfl, hfirst⟩ := exists_first hP hinfix
    rw [clear_append, clear_append, List.append_assoc (clear B ++ clear P),
      replace_first hP (map_fst_clear P) (by rw [map_fst_clear]; exact hfirst)] at hclear
    refine not_all_clear_of_countP hP ?_ fun x hx => hclear x (List.mem_append_right _ hx)
    rw [List.countP_append, countP_clear, hcount]
    omega
  · rw [and_iff_left hinfix, replace_append_of_free (free_of_separator hslash hA hinfix),
      List.forall_mem_append, and_iff_right fun x hx => snd_of_mem_clear hx]
    exact hides_user_iff hU hP hcolon hat

end Forail.UriCleaner
