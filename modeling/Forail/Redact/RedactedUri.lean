import Forail.Redact.HiddenSecrets
import Mathlib.Data.List.TakeWhile

/-! When one URI is redacted: what `urlsplit` finds in it, and the exact condition under which the
replacements take its user name and its password away. -/

namespace Forail.UriCleaner

open Replace

/-! ### The parts of a URI -/

theorem not_mem_takeWhile_ne {z : Char} (s : Str) : z ∉ s.takeWhile (· ≠ z) := by
  intro hmem
  have hne := List.mem_takeWhile_imp hmem
  simp at hne

theorem dropWhile_ne_cons {z c : Char} {s t : Str} (h : s.dropWhile (· ≠ z) = c :: t) : c = z := by
  have hhead := List.head?_dropWhile_not (fun x => decide (x ≠ z)) s
  rw [h, List.head?_cons] at hhead
  simpa using hhead

theorem splitScheme_append (url : Str) : (splitScheme url).1 ++ (splitScheme url).2 = url := by
  have hsplit := List.takeWhile_append_dropWhile (p := (· ≠ ':')) (l := url)
  unfold splitScheme
  split
  · rfl
  · rename_i colon rest hdrop
    dsimp only
    split
    · rw [hdrop] at hsplit
      simpa using hsplit
    · rfl

theorem at_not_mem_scheme (url : Str) : '@' ∉ (splitScheme url).1 := by
  unfold splitScheme
  split
  · exact List.not_mem_nil
  · rename_i colon rest hdrop
    obtain rfl := dropWhile_ne_cons hdrop
    dsimp only
    split
    · rename_i hscheme
      intro hmem
      rcases List.mem_append.mp hmem with hmem | hmem
      · have hchar := List.all_eq_true.mp (Bool.and_eq_true_iff.mp hscheme).2 '@' hmem
        revert hchar
        decide
      · revert hmem
        decide
    · exact List.not_mem_nil

/-- A network location stands behind the two slashes, and has none itself. -/
theorem urlsplit_spec {platform : Platform} {url : Str} {o : SplitResult}
    (h : platform.urlsplit url = some o) (hnetloc : o.netloc ≠ []) :
    url = o.before ++ (o.netloc ++ o.after) ∧ o.before.getLast? = some '/' ∧ '@' ∉ o.before ∧
      '/' ∉ o.netloc := by
  unfold Platform.urlsplit at h
  have happend := splitScheme_append url
  have hat := at_not_mem_scheme url
  generalize splitScheme url = parts at h happend hat
  obtain ⟨scheme, rest⟩ := parts
  simp only at h happend hat
  split at h
  · rename_i hslashes
    split at h
    · obtain rfl := Option.some.inj h
      obtain ⟨body, rfl⟩ := hslashes
      have hsplit := List.takeWhile_append_dropWhile (p := isNetlocChar) (l := body)
      refine ⟨?_, ?_, ?_, ?_⟩
      · rw [← happend, List.append_assoc]
        exact congrArg (fun s => scheme ++ ("//".toList ++ s)) hsplit.symm
      · exact List.getLast?_append_of_ne_nil scheme (by decide)
      · intro hmem
        rcases List.mem_append.mp hmem with hmem | hmem
        · exact hat hmem
        · revert hmem
          decide
      · intro hmem
        have hchar := List.mem_takeWhile_imp hmem
        revert hchar
        decide
    · cases h
  · obtain rfl := Option.some.inj h
    exact absurd rfl hnetloc

/-- The user name ends at the first colon, and the user information at the last `@`. -/
theorem userinfo_spec {netloc : Str}
    (h : ¬ ((userinfo netloc).username = [] ∧ (userinfo netloc).password = [])) :
    netloc = (userinfo netloc).username ++ ((userinfo netloc).separator ++ (userinfo netloc).password) ++
      '@' :: (userinfo netloc).host ∧ ':' ∉ (userinfo netloc).username ∧
      ((userinfo netloc).password ≠ [] → (userinfo netloc).separator = [':']) := by
  by_cases hmem : '@' ∈ netloc
  · have hdef : userinfo netloc = ⟨_, _, _, _⟩ := if_pos hmem
    rw [hdef]
    dsimp only
    have hsplit := List.takeWhile_append_dropWhile (p := (· ≠ '@')) (l := netloc.reverse)
    cases hdrop : netloc.reverse.dropWhile (· ≠ '@') with
    | nil =>
      rw [hdrop, List.append_nil] at hsplit
      exact absurd (hsplit ▸ List.mem_reverse.mpr hmem) (not_mem_takeWhile_ne _)
    | cons c info =>
      obtain rfl := dropWhile_ne_cons hdrop
      have hinfo := List.takeWhile_append_dropWhile (p := (· ≠ ':')) (l := info.reverse)
      refine ⟨?_, not_mem_takeWhile_ne _, ?_⟩
      · rw [List.drop_succ_cons, List.drop_zero, List.take_append_drop, hinfo]
        have hnetloc := congrArg List.reverse hsplit
        rw [hdrop, List.reverse_append, List.reverse_reverse, List.reverse_cons] at hnetloc
        simpa using hnetloc.symm
      · intro hpassword
        rw [List.drop_succ_cons, List.drop_zero] at hpassword ⊢
        cases hrest : info.reverse.dropWhile (· ≠ ':') with
        | nil =>
          rw [hrest] at hpassword
          exact absurd rfl hpassword
        | cons c rest =>
          obtain rfl := dropWhile_ne_cons hrest
          rfl
  · have hdef : userinfo netloc = ⟨[], [], [], netloc⟩ := if_neg hmem
    rw [hdef] at h
    exact absurd ⟨rfl, rfl⟩ h

/-! ### The condition -/

namespace SplitResult

variable (o : SplitResult)

def username : Str := (userinfo o.netloc).username

def password : Str := (userinfo o.netloc).password

def separator : Str := (userinfo o.netloc).separator

/-- Everything behind the user information. -/
def behind : Str := '@' :: (userinfo o.netloc).host ++ o.after

/-- The URI with the characters of its user name and its password marked. -/
def marked : List (Char × Bool) :=
  clear o.before ++ (hidden o.username ++ (clear o.separator ++ hidden o.password) ++ clear o.behind)

/-- What the replacements make of the user name and the password, wherever they stand, is free of their
characters. -/
def Hidden : Prop :=
  ∀ x ∈ redactUri Prod.fst (fun c => (c, false)) o.username o.password o.marked, x.2 = false

/-- The user name does not occur before its place, and the password's place is among its first two
occurrences after the user name has been replaced. -/
def InPlace : Prop :=
  (o.username = [] ∨ ¬ o.username <:+: o.before) ∧
    (o.password = [] ∨
      Reached o.password 2 (o.before ++ (if o.username = [] then [] else replaceStr) ++ o.separator))

/-- The user name is replaced in the scheme, and the password takes away both places. -/
def TakenAway : Prop :=
  o.username ≠ [] ∧ o.username <:+: o.before ∧
    (o.password = o.username ∨ o.password = o.username ++ [':']) ∧
      ¬ o.password <:+: replace id o.username replaceStr 1 o.before

variable {o}

theorem map_replaceStr : replaceStr.map (fun c => (c, false)) = clear replaceStr := rfl

theorem redact_marked : (redactUri Prod.fst (fun c => (c, false)) o.username o.password o.marked).map Prod.fst =
    redactUri id id o.username o.password (o.marked.map Prod.fst) := by
  have hplain : (clear replaceStr).map Prod.fst = replaceStr := map_fst_clear _
  have hreplace : ∀ (old : Str) (n : ℕ) (s : List (Char × Bool)),
      (replace Prod.fst old (clear replaceStr) n s).map Prod.fst =
        replace id old replaceStr n (s.map Prod.fst) := by
    intro old n s
    have hmap : (replace Prod.fst old (clear replaceStr) n s).map Prod.fst =
        replace id old ((clear replaceStr).map Prod.fst) n (s.map Prod.fst) :=
      @map_replace _ _ _ _ Prod.fst old (clear replaceStr) Prod.fst id (fun x => rfl) n s
    rwa [hplain] at hmap
  unfold redactUri
  rw [map_replaceStr, List.map_id]
  split_ifs with hpassword husername
  · rw [hreplace, hreplace]
  · rw [hreplace]
  · rw [hreplace]
  · rfl

/-- An accepted URI is the marked one without its marks. -/
theorem marked_of_urlsplit {platform : Platform} {url : Str} (h : platform.urlsplit url = some o)
    (hcarries : ¬ (o.username = [] ∧ o.password = [])) : o.marked.map Prod.fst = url := by
  obtain ⟨hparts, -, -⟩ := userinfo_spec hcarries
  have hnetloc : o.netloc ≠ [] := by
    rw [hparts]
    simp
  obtain ⟨hurl, -, -, -⟩ := urlsplit_spec h hnetloc
  rw [hurl]
  conv_rhs => rw [hparts]
  simp only [marked, behind, List.map_append, map_fst_clear, map_fst_hidden, List.append_assoc,
    List.cons_append]
  rfl

/-- The password is hidden if and only if its place is reached. -/
theorem hidden_password_iff {A : Str} (hP : o.password ≠ []) (hat : '@' ∉ A) :
    (∀ x ∈ replace Prod.fst o.password (clear replaceStr) 2
      (clear A ++ hidden o.password ++ clear o.behind), x.2 = false) ↔ Reached o.password 2 A := by
  have hbehind : ((clear o.behind).map Prod.fst).head? = some '@' := by
    rw [map_fst_clear]
    rfl
  have hA : '@' ∉ (clear A).map Prod.fst := by rwa [map_fst_clear]
  have h : (∀ x ∈ replace Prod.fst o.password (clear replaceStr) 2
      (clear A ++ hidden o.password ++ clear o.behind), x.2 = false) ↔
        Reached o.password 2 ((clear A).map Prod.fst) :=
    replace_hides_iff hP (fun x hx => snd_of_mem_clear hx) (fun x hx => snd_of_mem_clear hx)
      (map_fst_hidden o.password) (fun x hx => snd_of_mem_hidden hx) (fun x hx => snd_of_mem_clear hx)
      (.inr ⟨'@', hbehind, hA⟩)
  rwa [map_fst_clear] at h

/-- A user name that does not occur before its place is hidden there. -/
theorem hidden_iff_of_free (hpassword : o.password ≠ [] → o.separator = [':']) (hU : o.username ≠ [])
    (hslash : '/' ∉ o.username) (hbefore : o.before.getLast? = some '/') (hat : '@' ∉ o.before)
    (hfree : ¬ o.username <:+: o.before) :
    o.Hidden ↔ o.password = [] ∨ Reached o.password 2 (o.before ++ replaceStr ++ o.separator) := by
  have hfirst : ¬ o.username <:+: ((clear o.before).map Prod.fst ++ o.username).dropLast := by
    rw [map_fst_clear]
    have hreached := (reached_one_iff hU hslash hbefore).mpr hfree
    rw [Reached, or_iff_left (by rintro ⟨_, _, _, _, hfalse⟩; exact hfalse)] at hreached
    exact hreached
  have hstep : replace Prod.fst o.username (clear replaceStr) 1 o.marked =
      clear (o.before ++ replaceStr ++ o.separator) ++ hidden o.password ++ clear o.behind := by
    have hmarked : o.marked = clear o.before ++ hidden o.username ++
        (clear o.separator ++ hidden o.password ++ clear o.behind) := by
      simp only [marked, List.append_assoc]
    rw [hmarked, replace_first hU (map_fst_hidden _) hfirst, replace_zero]
    simp only [clear_append, List.append_assoc]
  rw [Hidden, redactUri, map_replaceStr, if_pos hU, hstep]
  split_ifs with hP
  · rw [or_iff_right hP]
    refine hidden_password_iff hP ?_
    rw [hpassword hP]
    intro hmem
    rcases List.mem_append.mp hmem with hmem | hmem
    · rcases List.mem_append.mp hmem with hmem | hmem
      · exact hat hmem
      · revert hmem
        decide
    · revert hmem
      decide
  · rw [not_not] at hP
    rw [hP]
    refine iff_of_true (fun x hx => ?_) (.inl rfl)
    rw [hidden, List.map_nil, List.append_nil] at hx
    rcases List.mem_append.mp hx with hx | hx
    · exact snd_of_mem_clear hx
    · exact snd_of_mem_clear hx

/-- A user name that occurs before is replaced there, and left to the password. -/
theorem hidden_iff_of_occurrence (hpassword : o.password ≠ [] → o.separator = [':']) (hU : o.username ≠ [])
    (hslash : '/' ∉ o.username) (hslash' : '/' ∉ o.password) (hbefore : o.before.getLast? = some '/')
    (hat : '@' ∉ o.before) (hcolon : ':' ∉ o.username) (hoccurs : o.username <:+: o.before) :
    o.Hidden ↔ (o.password = o.username ∨ o.password = o.username ++ [':']) ∧
      ¬ o.password <:+: replace id o.username replaceStr 1 o.before := by
  obtain ⟨B, C, heq, hfirst⟩ := exists_first hU hoccurs
  have hstep : replace Prod.fst o.username (clear replaceStr) 1 o.marked =
      clear (B ++ replaceStr ++ C) ++
        (hidden o.username ++ (clear o.separator ++ hidden o.password) ++ clear o.behind) := by
    rw [marked, heq, clear_append, clear_append, List.append_assoc (clear B ++ clear o.username),
      replace_first hU (map_fst_clear _) (by rw [map_fst_clear]; exact hfirst), replace_zero]
    simp only [clear_append, List.append_assoc]
  have hreplace : replace id o.username replaceStr 1 o.before = B ++ replaceStr ++ C := by
    rw [heq, replace_first hU (List.map_id _) (by rw [List.map_id]; exact hfirst), replace_zero]
  have hlast : (B ++ replaceStr ++ C).getLast? = some '/' := by
    rw [heq] at hbefore
    rcases List.eq_nil_or_concat C with rfl | ⟨C, c, rfl⟩
    · rw [List.append_nil, List.getLast?_append_of_ne_nil _ hU] at hbefore
      exact absurd (List.mem_of_getLast? hbefore) hslash
    · rw [List.concat_eq_append, ← List.append_assoc, List.getLast?_concat] at hbefore ⊢
      exact hbefore
  have hatU : '@' ∉ o.username := fun hmem => hat (hoccurs.subset hmem)
  rw [Hidden, redactUri, map_replaceStr, if_pos hU, hstep, hreplace]
  split_ifs with hP
  · rw [hpassword hP]
    exact hides_both_iff hU hP hslash' hlast hcolon hatU
  · rw [not_not] at hP
    refine iff_of_false (not_all_clear hU fun x hx => ?_) ?_
    · exact List.mem_append_right _ (List.mem_append_left _ (List.mem_append_left _ hx))
    · rw [hP]
      rintro ⟨h | h, -⟩
      · exact hU h.symm
      · exact List.append_ne_nil_of_right_ne_nil _ (List.cons_ne_nil _ _) h.symm

theorem hidden_iff_of_no_username (hpassword : o.password ≠ [] → o.separator = [':']) (hU : o.username = [])
    (hP : o.password ≠ []) (hat : '@' ∉ o.before) :
    o.Hidden ↔ Reached o.password 2 (o.before ++ o.separator) := by
  have hmarked : o.marked = clear (o.before ++ o.separator) ++ hidden o.password ++ clear o.behind := by
    simp only [marked, hU, hidden, List.map_nil, List.nil_append, clear_append, List.append_assoc]
  rw [Hidden, redactUri, map_replaceStr, if_neg (not_not.mpr hU), if_pos hP, hmarked]
  refine hidden_password_iff hP ?_
  rw [hpassword hP]
  intro hmem
  rcases List.mem_append.mp hmem with hmem | hmem
  · exact hat hmem
  · revert hmem
    decide

/-- The user name and the password of an accepted URI are hidden if and only if they are replaced in their
places or the password takes both away. -/
theorem hidden_iff {platform : Platform} {url : Str} (h : platform.urlsplit url = some o)
    (hcarries : ¬ (o.username = [] ∧ o.password = [])) : o.Hidden ↔ o.InPlace ∨ o.TakenAway := by
  obtain ⟨hparts, hcolon, hpassword⟩ := userinfo_spec hcarries
  have hnetloc : o.netloc ≠ [] := by
    rw [hparts]
    simp
  obtain ⟨-, hbefore, hat, hslash⟩ := urlsplit_spec h hnetloc
  have hslashU : '/' ∉ o.username := by
    intro hmem
    rw [hparts] at hslash
    exact hslash (List.mem_append_left _ (List.mem_append_left _ hmem))
  have hslashP : '/' ∉ o.password := by
    intro hmem
    rw [hparts] at hslash
    exact hslash (List.mem_append_left _ (List.mem_append_right _ (List.mem_append_right _ hmem)))
  rw [InPlace, TakenAway]
  by_cases hU : o.username = []
  · have hP : o.password ≠ [] := fun hP => hcarries ⟨hU, hP⟩
    rw [hidden_iff_of_no_username hpassword hU hP hat]
    simp [hU, hP]
  · rw [or_iff_right hU, if_neg hU]
    by_cases hoccurs : o.username <:+: o.before
    · rw [hidden_iff_of_occurrence hpassword hU hslashU hslashP hbefore hat hcolon hoccurs]
      simp [hU, hoccurs]
    · rw [hidden_iff_of_free hpassword hU hslashU hbefore hat hoccurs]
      simp [hoccurs]

end SplitResult

end Forail.UriCleaner
