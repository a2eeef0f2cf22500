import Forail.Base.PosixPath
import Mathlib.Data.List.Induction

/-! Absolute paths on a disk without symbolic links: the real path of a text, the directories through
which the system opens a file, and the real paths that start with a given text. -/

namespace Forail.PosixPath

/-- A name that a directory can hold. -/
def IsName (c : List Char) : Prop := c ≠ [] ∧ c ≠ ['.'] ∧ c ≠ ['.', '.'] ∧ '/' ∉ c

instance (c : List Char) : Decidable (IsName c) :=
  inferInstanceAs (Decidable (c ≠ [] ∧ c ≠ ['.'] ∧ c ≠ ['.', '.'] ∧ '/' ∉ c))

/-- The way that one segment goes from a directory. -/
def enter (path : List (List Char)) (segment : List Char) : List (List Char) :=
  if segment = [] ∨ segment = ['.'] then path
  else if segment = ['.', '.'] then path.dropLast
  else path ++ [segment]

def resolve (p : List Char) : List (List Char) := (p.splitOn '/').foldl enter []

def absolute (path : List (List Char)) : List Char := '/' :: ['/'].intercalate path

def nul : Char := Char.ofNat 0

/-- `os.path.realpath` of an absolute path; a null character raises. -/
def realpath (p : List Char) : Option (List Char) :=
  if nul ∈ p then none else some (absolute (resolve p))

/-- The directories that are entered on the way to the last segment. -/
def passed (p : List Char) : List (List (List Char)) := (p.splitOn '/').dropLast.scanl enter []

/-- The system can open a file: all that it enters are directories, and the last segment is the name of
what is none. -/
structure Opens (directory : List (List Char) → Prop) (p : List Char) : Prop where
  readable : nul ∉ p
  name : ∀ c ∈ (p.splitOn '/').getLast?, IsName c
  entered : ∀ d ∈ passed p, directory d
  file : ¬ directory (resolve p)

/-- The path of a file on some disk. -/
def NamesFile (p : List Char) : Prop := Opens (· ∈ passed p) p

variable {p q c : List Char} {cs : List (List Char)} {directory : List (List Char) → Prop}

theorem Opens.namesFile (h : Opens directory p) : NamesFile p where
  readable := h.readable
  name := h.name
  entered := fun _ hd => hd
  file := fun hmem => h.file (h.entered _ hmem)

theorem foldl_mem_scanl {α β : Type*} (f : β → α → β) (b : β) (l m : List α) :
    l.foldl f b ∈ (l ++ m).scanl f b := by
  induction l generalizing b with
  | nil =>
    cases m with
    | nil => exact List.mem_singleton_self b
    | cons a m =>
      rw [List.nil_append, List.scanl_cons]
      exact List.mem_cons_self
  | cons a l ih =>
    rw [List.cons_append, List.scanl_cons]
    exact List.mem_cons_of_mem b (ih (f b a))

/-- What lies below a directory is opened through it, and is not that directory. -/
theorem NamesFile.ne_above (h : NamesFile (p ++ '/' :: q)) : resolve (p ++ '/' :: q) ≠ resolve p := by
  intro heq
  refine h.file ?_
  rw [heq, passed, List.splitOn_append_cons_self, List.dropLast_append_of_ne_nil (List.splitOn_ne_nil _ _)]
  exact foldl_mem_scanl enter [] _ _

theorem isName_of_mem_foldl_enter {segments : List (List Char)} (hcs : ∀ c ∈ cs, IsName c)
    (hsegments : ∀ c ∈ segments, '/' ∉ c) : ∀ c ∈ segments.foldl enter cs, IsName c := by
  induction segments generalizing cs with
  | nil => exact hcs
  | cons s segments ih =>
    rw [List.foldl_cons]
    refine ih ?_ fun c hc => hsegments c (List.mem_cons_of_mem s hc)
    intro c hc
    unfold enter at hc
    split_ifs at hc with hstay hup
    · exact hcs c hc
    · exact hcs c (List.dropLast_subset _ hc)
    · rcases List.mem_append.mp hc with hc | hc
      · exact hcs c hc
      · obtain rfl := List.mem_singleton.mp hc
        rw [not_or] at hstay
        exact ⟨hstay.1, hstay.2, hup, hsegments c List.mem_cons_self⟩

theorem isName_of_mem_resolve : ∀ c ∈ resolve p, IsName c :=
  isName_of_mem_foldl_enter (by nofun) fun _ hc => not_mem_of_mem_splitOn hc

theorem resolve_append (p q : List Char) :
    resolve (p ++ '/' :: q) = (q.splitOn '/').foldl enter (resolve p) := by
  rw [resolve, List.splitOn_append_cons_self, List.foldl_append, resolve]

theorem enter_of_isName (h : IsName c) (cs : List (List Char)) : enter cs c = cs ++ [c] := by
  rw [enter, if_neg (by simp [h.1, h.2.1]), if_neg h.2.2.1]

/-- A path whose segments are names, but for the last one. -/
theorem resolve_segments (hcs : ∀ c ∈ cs, IsName c) (hq : '/' ∉ q) :
    resolve ((cs.flatMap fun c => '/' :: c) ++ '/' :: q) = enter cs q := by
  have hnames : resolve (cs.flatMap fun c => '/' :: c) = cs := by
    induction cs using List.reverseRecOn with
    | nil => rfl
    | append_singleton cs c ih =>
      have hc := hcs c (List.mem_append_right _ (List.mem_singleton_self c))
      rw [List.flatMap_append, List.flatMap_singleton, resolve_append, List.splitOn_eq_singleton hc.2.2.2,
        ih fun d hd => hcs d (List.mem_append_left _ hd), List.foldl_cons, List.foldl_nil,
        enter_of_isName hc]
  rw [resolve_append, hnames, List.splitOn_eq_singleton hq, List.foldl_cons, List.foldl_nil]

theorem absolute_cons (c : List Char) (cs : List (List Char)) :
    absolute (c :: cs) = (c :: cs).flatMap fun c => '/' :: c := by
  rw [absolute, intercalate_cons_slash, List.flatMap_cons, List.cons_append]

theorem absolute_concat (cs : List (List Char)) (c : List Char) :
    absolute (cs ++ [c]) = (cs.flatMap fun c => '/' :: c) ++ '/' :: c := by
  cases cs with
  | nil => simp [absolute]
  | cons d cs => rw [List.cons_append, absolute_cons, ← List.cons_append, List.flatMap_append,
      List.flatMap_singleton]

/-- A text that starts a path ends within one of its names. -/
theorem segments_of_prefix (h : '/' :: q <+: cs.flatMap fun c => '/' :: c) :
    ∃ before q' name after, cs = before ++ name :: after ∧ q' <+: name ∧
      '/' :: q = (before.flatMap fun c => '/' :: c) ++ '/' :: q' := by
  induction cs generalizing q with
  | nil => exact absurd (List.prefix_nil.mp h) (by simp)
  | cons c cs ih =>
    rw [List.flatMap_cons, List.cons_append, List.cons_prefix_cons] at h
    rcases List.prefix_or_prefix_of_prefix h.2 (List.prefix_append c _) with hwithin | ⟨rest, rfl⟩
    · exact ⟨[], q, c, cs, rfl, hwithin, rfl⟩
    · have hrest := (List.prefix_append_right_inj c).mp h.2
      cases rest with
      | nil => exact ⟨[], c, c, cs, rfl, List.prefix_rfl, by simp⟩
      | cons d rest =>
        have hd : d = '/' := by
          cases cs with
          | nil => exact absurd (List.prefix_nil.mp hrest) (by simp)
          | cons c' cs =>
            rw [List.flatMap_cons, List.cons_append, List.cons_prefix_cons] at hrest
            exact hrest.1
        subst hd
        obtain ⟨before, q', name, after, rfl, hq', heq⟩ := ih hrest
        refine ⟨c :: before, q', name, after, rfl, hq', ?_⟩
        rw [List.flatMap_cons, List.append_assoc, ← heq, List.cons_append]

/-- A path that is its own real path continues in a longer name, beside what it names. -/
def Continues (p : List Char) (path : List (List Char)) : Prop :=
  ∃ above name more below, resolve p = above ++ [name] ∧ p = absolute (above ++ [name]) ∧ more ≠ [] ∧
    path = above ++ (name ++ more) :: below

theorem Continues.starts {path : List (List Char)} (h : Continues p path) : p <+: absolute path := by
  obtain ⟨above, name, more, below, -, rfl, -, rfl⟩ := h
  have hpath : absolute (above ++ (name ++ more) :: below) =
      absolute (above ++ [name]) ++ (more ++ below.flatMap fun c => '/' :: c) := by
    rw [absolute_concat]
    cases above with
    | nil => rw [List.nil_append, absolute_cons, List.flatMap_cons]; simp
    | cons c above => rw [List.cons_append, absolute_cons]; simp
  rw [hpath]
  exact List.prefix_append _ _

theorem Continues.not_below {path : List (List Char)} (h : Continues p path) : ¬ resolve p <+: path := by
  obtain ⟨above, name, more, below, hresolve, -, hmore, rfl⟩ := h
  rw [hresolve, List.prefix_append_right_inj, List.cons_prefix_cons]
  rintro ⟨hname, -⟩
  exact hmore (List.self_eq_append_right.mp hname)

/-- A real path that starts with the text of another is not above it, or continues it. -/
theorem below_or_continues {path : List (List Char)} (habsolute : p.head? = some '/')
    (hnames : ∀ c ∈ path, IsName c) (h : p <+: absolute path) :
    resolve p <+: path ∨ Continues p path := by
  obtain ⟨q, rfl⟩ : ∃ q, p = '/' :: q := by
    cases p with
    | nil => cases habsolute
    | cons c q => exact ⟨q, congrArg (· :: q) (Option.some.inj habsolute)⟩
  cases path with
  | nil =>
    have hq : q = [] := by
      have hlength := h.length_le
      exact List.length_eq_zero_iff.mp (by simpa [absolute] using hlength)
    subst hq
    exact .inl (List.prefix_rfl)
  | cons c path =>
    rw [absolute_cons] at h
    obtain ⟨before, q', name, after, hpath, ⟨more, hmore⟩, heq⟩ := segments_of_prefix h
    rw [hpath] at hnames ⊢
    have hname := hnames name (List.mem_append_right _ List.mem_cons_self)
    have hslash : '/' ∉ q' := fun hmem => hname.2.2.2 (hmore ▸ List.mem_append_left _ hmem)
    have hresolve : resolve ('/' :: q) = enter before q' := by
      rw [heq]
      exact resolve_segments (fun d hd => hnames d (List.mem_append_left _ hd)) hslash
    have hbefore : before <+: before ++ name :: after := List.prefix_append _ _
    by_cases hq' : IsName q'
    · rw [enter_of_isName hq'] at hresolve
      cases more with
      | nil =>
        left
        rw [List.append_nil] at hmore
        rw [hresolve, hmore, List.prefix_append_right_inj]
        exact List.cons_prefix_cons.mpr ⟨rfl, List.nil_prefix⟩
      | cons d more =>
        exact .inr ⟨before, q', d :: more, after, hresolve, by rw [heq, absolute_concat],
          List.cons_ne_nil d more, by rw [hmore]⟩
    · left
      rw [hresolve, enter]
      split_ifs with hstay hup
      · exact hbefore
      · have hup := List.dropLast_prefix before
        exact hup.trans hbefore
      · rw [not_or] at hstay
        exact absurd ⟨hstay.1, hstay.2, hup, hslash⟩ hq'

end Forail.PosixPath
