import Forail.Base.Percent

/-! The text of a named URL: the key values of an object are encoded and joined by `+`, the
objects by `++`. Reading splits at `++`, at `+`, and unquotes; it gives the values back if
they are not empty and contain no percent escape, which the encoding leaves alone. -/

namespace Forail.NamedUrl

open Percent

/-- `URL_PATH_RESERVED_CHARSET`, in its order. -/
def reserved : Str := [';', '/', '?', ':', '@', '=', '&', '[', ']']

/-- `str.replace` of a single character. -/
def replaceChar (c : Char) (r : Str) (s : Str) : Str := s.flatMap fun d => if d = c then r else [d]

/-- `_encode_uri`. -/
def encodeUri (text : Str) : Str :=
  replaceChar '+' ['[', '+', ']'] (reserved.foldl (fun t c => replaceChar c (quote c) t) text)

/-- `named_url.replace('[+]', '%2B')`. -/
def replaceEscaped : Str → Str
  | '[' :: '+' :: ']' :: s => '%' :: '2' :: 'B' :: replaceEscaped s
  | c :: s => c :: replaceEscaped s
  | [] => []

/-- `str.split('++')`: the leftmost delimiter first. -/
def splitNames : Str → List Str
  | '+' :: '+' :: s => [] :: splitNames s
  | c :: s =>
    match splitNames s with
    | [] => [[c]]
    | name :: names => (c :: name) :: names
  | [] => [[]]

/-- `str.split('+')`. -/
def splitParts (name : Str) : List Str := name.splitOn '+'

def joinParts (parts : List Str) : Str := ['+'].intercalate parts

def joinNames (names : List Str) : Str := ['+', '+'].intercalate names

/-! ### Encoding is character by character -/

/-- The characters that `quote` encodes once `[+]` is read as `%2B`. -/
def quoted (c : Char) : Bool := c ∈ reserved || c == '+'

theorem quoted_ascii {c : Char} (h : quoted c = true) : c.toNat < 128 := by
  simp only [quoted, reserved, Bool.or_eq_true, decide_eq_true_eq, beq_iff_eq, List.mem_cons,
    List.not_mem_nil, or_false] at h
  rcases h with (rfl | rfl | rfl | rfl | rfl | rfl | rfl | rfl | rfl) | rfl <;> decide

theorem replaceChar_append (c : Char) (r s t : Str) :
    replaceChar c r (s ++ t) = replaceChar c r s ++ replaceChar c r t :=
  List.flatMap_append

theorem foldl_replace_append (cs s t : Str) :
    cs.foldl (fun t c => replaceChar c (quote c) t) (s ++ t) =
      cs.foldl (fun t c => replaceChar c (quote c) t) s ++
        cs.foldl (fun t c => replaceChar c (quote c) t) t := by
  induction cs generalizing s t with
  | nil => rfl
  | cons c cs ih => rw [List.foldl_cons, replaceChar_append, ih, List.foldl_cons, List.foldl_cons]

theorem encodeUri_append (s t : Str) : encodeUri (s ++ t) = encodeUri s ++ encodeUri t := by
  rw [encodeUri, foldl_replace_append, replaceChar_append, encodeUri, encodeUri]

theorem replaceChar_of_ne {c d : Char} (h : d ≠ c) (r : Str) : replaceChar c r [d] = [d] := by
  simp [replaceChar, h]

theorem encodeUri_plain {c : Char} (h : quoted c = false) : encodeUri [c] = [c] := by
  simp only [quoted, Bool.or_eq_false_iff, decide_eq_false_iff_not, beq_eq_false_iff_ne] at h
  have hfold : ∀ cs : Str, (∀ d ∈ cs, c ≠ d) →
      cs.foldl (fun t d => replaceChar d (quote d) t) [c] = [c] := fun cs hcs => by
    induction cs with
    | nil => rfl
    | cons d cs ih =>
      rw [List.foldl_cons, replaceChar_of_ne (hcs d List.mem_cons_self)]
      exact ih fun e he => hcs e (List.mem_cons_of_mem _ he)
  rw [encodeUri, hfold reserved fun d hd he => h.1 (he ▸ hd), replaceChar_of_ne h.2]

theorem replaceEscaped_cons {c : Char} (h : c ≠ '[') (s : Str) :
    replaceEscaped (c :: s) = c :: replaceEscaped s := by
  rw [replaceEscaped.eq_def (c :: s)]
  split
  · next heq => exact absurd (List.cons.inj heq).1 h
  · next heq =>
    obtain ⟨rfl, rfl⟩ := List.cons.inj heq
    rfl
  · next heq => cases heq

/-- One encoded character, read back up to the quotes. -/
theorem replaceEscaped_encodeUri_char (c : Char) (t : Str) :
    replaceEscaped (encodeUri [c] ++ t) =
      (if quoted c then quote c else [c]) ++ replaceEscaped t := by
  by_cases hq : quoted c = true
  · rw [if_pos hq]
    simp only [quoted, reserved, Bool.or_eq_true, decide_eq_true_eq, beq_iff_eq, List.mem_cons,
      List.not_mem_nil, or_false] at hq
    rcases hq with (rfl | rfl | rfl | rfl | rfl | rfl | rfl | rfl | rfl) | rfl <;> rfl
  · rw [if_neg hq, encodeUri_plain (by simpa using hq), List.singleton_append, List.singleton_append,
      replaceEscaped_cons]
    rintro rfl
    exact hq (by decide)

theorem replaceEscaped_encodeUri (s t : Str) :
    replaceEscaped (encodeUri s ++ t) = quoteBy quoted s ++ replaceEscaped t := by
  induction s with
  | nil => rfl
  | cons c s ih =>
    rw [← List.singleton_append, encodeUri_append, List.append_assoc,
      replaceEscaped_encodeUri_char, ih, ← List.append_assoc]
    rfl

theorem replaceEscaped_plus (s : Str) : replaceEscaped ('+' :: s) = '+' :: replaceEscaped s :=
  replaceEscaped_cons (by decide) s

/-- The encoded values of one object, with `[+]` replaced. -/
theorem replaceEscaped_joinParts (values : List Str) (t : Str) :
    replaceEscaped (joinParts (values.map encodeUri) ++ t) =
      joinParts (values.map (quoteBy quoted)) ++ replaceEscaped t := by
  induction values with
  | nil => simp [joinParts]
  | cons v values ih =>
    cases values with
    | nil => simpa [joinParts] using replaceEscaped_encodeUri v t
    | cons w values =>
      simp only [joinParts, List.map_cons, List.intercalate_cons_cons, List.append_assoc] at ih ⊢
      rw [replaceEscaped_encodeUri, List.singleton_append, List.singleton_append,
        replaceEscaped_plus, ih]

theorem replaceEscaped_joinNames (objects : List (List Str)) :
    replaceEscaped (joinNames (objects.map fun values => joinParts (values.map encodeUri))) =
      joinNames (objects.map fun values => joinParts (values.map (quoteBy quoted))) := by
  induction objects with
  | nil => simp [joinNames, replaceEscaped]
  | cons v objects ih =>
    cases objects with
    | nil => simpa [joinNames, replaceEscaped] using replaceEscaped_joinParts v []
    | cons w objects =>
      simp only [joinNames, List.map_cons, List.intercalate_cons_cons, List.append_assoc] at ih ⊢
      rw [replaceEscaped_joinParts, List.cons_append, List.singleton_append, replaceEscaped_plus,
        replaceEscaped_plus, ih]
      rfl

/-! ### Splitting -/

/-- No two delimiters next to each other, and none at the end. -/
def Tight : Str → Prop
  | [] => True
  | [c] => c ≠ '+'
  | c :: d :: s => ¬ (c = '+' ∧ d = '+') ∧ Tight (d :: s)

/-- The character goes to the first name, unless it starts a delimiter. -/
theorem splitNames_cons {c : Char} {s : Str} (h : ¬ (c = '+' ∧ s.head? = some '+')) {name : Str}
    {names : List Str} (hs : splitNames s = name :: names) :
    splitNames (c :: s) = (c :: name) :: names := by
  rw [splitNames.eq_def (c :: s)]
  split
  · next heq =>
    obtain ⟨rfl, rfl⟩ := List.cons.inj heq
    exact absurd ⟨rfl, rfl⟩ h
  · next heq =>
    obtain ⟨rfl, rfl⟩ := List.cons.inj heq
    rw [hs]
  · next heq => cases heq

theorem Tight.head {c : Char} {s : Str} (h : Tight (c :: s)) :
    ¬ (c = '+' ∧ s.head? = some '+') := by
  cases s with
  | nil => simp
  | cons d s => simpa using h.1

theorem Tight.tail {c : Char} {s : Str} (h : Tight (c :: s)) : Tight s := by
  cases s with
  | nil => trivial
  | cons d s => exact h.2

theorem splitNames_tight {s : Str} (h : Tight s) : splitNames s = [s] := by
  induction s with
  | nil => rfl
  | cons c s ih => exact splitNames_cons h.head (ih h.tail)

theorem splitNames_delimiter {s : Str} (h : Tight s) (t : Str) :
    splitNames (s ++ '+' :: '+' :: t) = s :: splitNames t := by
  induction s with
  | nil => rw [List.nil_append, splitNames]
  | cons c s ih =>
    have hhead : ¬ (c = '+' ∧ (s ++ '+' :: '+' :: t).head? = some '+') := by
      cases s with
      | nil => exact fun hc => h hc.1
      | cons d s => simpa using h.1
    exact splitNames_cons hhead (ih h.tail)

theorem splitNames_joinNames {names : List Str} (hne : names ≠ []) (h : ∀ s ∈ names, Tight s) :
    splitNames (joinNames names) = names := by
  induction names with
  | nil => exact absurd rfl hne
  | cons s names ih =>
    cases names with
    | nil => simpa [joinNames] using splitNames_tight (h s List.mem_cons_self)
    | cons s' names =>
      have hrest := ih (by simp) fun s hs => h s (List.mem_cons_of_mem _ hs)
      rw [joinNames, List.intercalate_cons_cons, List.append_assoc] at *
      rw [List.cons_append, List.singleton_append, splitNames_delimiter (h s List.mem_cons_self)]
      exact congrArg _ hrest

theorem tight_of_not_mem {s : Str} (h : '+' ∉ s) : Tight s := by
  induction s with
  | nil => trivial
  | cons c s ih =>
    obtain ⟨hc, hs⟩ := List.ne_and_not_mem_of_not_mem_cons h
    cases s with
    | nil => exact fun he => hc he.symm
    | cons d s => exact ⟨fun he => hc he.1.symm, ih hs⟩

/-- A single delimiter between two texts of which neither has one at that place. -/
theorem tight_append {s t : Str} (hs : '+' ∉ s) (hne : s ≠ []) (ht : Tight t) (hnil : t ≠ [])
    (hhead : t.head? ≠ some '+') : Tight (s ++ '+' :: t) := by
  induction s with
  | nil => exact absurd rfl hne
  | cons c s ih =>
    obtain ⟨hc, hs⟩ := List.ne_and_not_mem_of_not_mem_cons hs
    cases s with
    | nil =>
      refine ⟨fun he => hc he.1.symm, ?_⟩
      cases t with
      | nil => exact absurd rfl hnil
      | cons d t => exact ⟨fun he => hhead (by rw [he.2]; rfl), ht⟩
    | cons d s => exact ⟨fun he => hc he.1.symm, ih hs (by simp)⟩

theorem joinParts_tight {parts : List Str} (h : ∀ v ∈ parts, v ≠ [] ∧ '+' ∉ v) :
    Tight (joinParts parts) ∧ (joinParts parts).head? ≠ some '+' ∧
      (parts ≠ [] → joinParts parts ≠ []) := by
  induction parts with
  | nil => simp [joinParts, Tight]
  | cons v parts ih =>
    obtain ⟨hne, hplus⟩ := h v List.mem_cons_self
    have hhead : ∀ s, (v ++ s).head? ≠ some '+' := fun s => by
      cases v with
      | nil => exact absurd rfl hne
      | cons c v => simpa using fun he : c = '+' => (List.ne_and_not_mem_of_not_mem_cons hplus).1 he.symm
    cases parts with
    | nil =>
      have hv : joinParts [v] = v := by simp [joinParts]
      rw [hv]
      exact ⟨tight_of_not_mem hplus, by simpa using hhead [], fun _ => hne⟩
    | cons w parts =>
      obtain ⟨ht, hh, hn⟩ := ih fun v hv => h v (List.mem_cons_of_mem _ hv)
      have hcons : joinParts (v :: w :: parts) = v ++ '+' :: joinParts (w :: parts) := by
        simp [joinParts]
      rw [hcons]
      exact ⟨tight_append hplus hne ht (hn (by simp)) hh, hhead _, fun _ => by simp⟩

theorem quoteBy_quoted {v : Str} (hv : v ≠ []) : quoteBy quoted v ≠ [] ∧ '+' ∉ quoteBy quoted v := by
  constructor
  · cases v with
    | nil => exact absurd rfl hv
    | cons c v =>
      rw [quoteBy_cons]
      split_ifs <;> simp [quote]
  · have hdigit : ∀ n : Fin 16, '+' ≠ hexDigit n := by decide
    intro hm
    obtain ⟨c, -, hc⟩ := List.mem_flatMap.mp hm
    split_ifs at hc with hq
    · have hlt := quoted_ascii hq
      simp only [quote, List.mem_cons, List.not_mem_nil, or_false] at hc
      rcases hc with hc | hc | hc
      · exact absurd hc (by decide)
      · exact hdigit ⟨c.toNat / 16, by omega⟩ hc
      · exact hdigit ⟨c.toNat % 16, by omega⟩ hc
    · rw [List.mem_singleton] at hc
      rw [← hc] at hq
      exact hq (by decide)

/-- What `populate_named_url_query_kwargs` splits is the list of the quoted names. -/
theorem splitNames_url {objects : List (List Str)} (hne : objects ≠ [])
    (h : ∀ values ∈ objects, ∀ v ∈ values, v ≠ []) :
    splitNames (replaceEscaped
      (joinNames (objects.map fun values => joinParts (values.map encodeUri)))) =
      objects.map fun values => joinParts (values.map (quoteBy quoted)) := by
  rw [replaceEscaped_joinNames]
  apply splitNames_joinNames
  · simpa using hne
  · intro s hs
    obtain ⟨values, hv, rfl⟩ := List.mem_map.mp hs
    refine (joinParts_tight fun p hp => ?_).1
    obtain ⟨v, hm, rfl⟩ := List.mem_map.mp hp
    exact quoteBy_quoted (h values hv v hm)

/-- The name of an object splits into its quoted values. -/
theorem splitParts_joinParts {values : List Str} (hne : values ≠ []) (h : ∀ v ∈ values, v ≠ []) :
    splitParts (joinParts (values.map (quoteBy quoted))) = values.map (quoteBy quoted) := by
  apply List.splitOn_intercalate
  · intro p hp
    obtain ⟨v, hv, rfl⟩ := List.mem_map.mp hp
    exact (quoteBy_quoted (h v hv)).2
  · simpa using hne

theorem joinParts_ne_nil {values : List Str} (hne : values ≠ []) (h : ∀ v ∈ values, v ≠ []) :
    joinParts (values.map (quoteBy quoted)) ≠ [] := by
  refine (joinParts_tight fun p hp => ?_).2.2 (by simpa using hne)
  obtain ⟨v, hv, rfl⟩ := List.mem_map.mp hp
  exact quoteBy_quoted (h v hv)

theorem unquote_quoted {v : Str} (h : NoEscape v) : unquote (quoteBy quoted v) = v :=
  unquote_quoteBy (fun _ => quoted_ascii) h

end Forail.NamedUrl
