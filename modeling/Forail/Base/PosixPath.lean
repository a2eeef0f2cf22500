import Mathlib.Data.List.Basic

/-! Pure POSIX paths, as texts and as components. Reading a text drops empty components and single
dots; writing joins the components by slashes. -/

namespace Forail.PosixPath

/-- A name between two slashes that is kept. -/
def IsComponent (c : List Char) : Prop := c ≠ [] ∧ c ≠ ['.'] ∧ '/' ∉ c

instance (c : List Char) : Decidable (IsComponent c) :=
  inferInstanceAs (Decidable (c ≠ [] ∧ c ≠ ['.'] ∧ '/' ∉ c))

end PosixPath

open PosixPath

/-- Two slashes at the start are a root of their own, three are one. -/
@[ext]
structure PurePosixPath where
  root : List Char
  tail : List (List Char)
  root_slashes : root = [] ∨ root = ['/'] ∨ root = ['/', '/']
  components : ∀ c ∈ tail, IsComponent c

namespace PosixPath

def rootOf : List Char → List Char
  | '/' :: '/' :: '/' :: _ => ['/']
  | '/' :: '/' :: _ => ['/', '/']
  | '/' :: _ => ['/']
  | _ => []

theorem rootOf_slashes (p : List Char) : rootOf p = [] ∨ rootOf p = ['/'] ∨ rootOf p = ['/', '/'] := by
  fun_cases rootOf p <;> simp

theorem not_mem_of_mem_splitOn {s c : List Char} (h : c ∈ s.splitOn '/') : '/' ∉ c := by
  induction s generalizing c with
  | nil =>
    obtain rfl := List.mem_singleton.mp h
    exact List.not_mem_nil
  | cons d s ih =>
    rw [List.splitOn_cons_eq_if_modifyHead] at h
    split at h
    · rcases List.mem_cons.mp h with rfl | h
      · exact List.not_mem_nil
      · exact ih h
    · next hd =>
      cases hs : s.splitOn '/' with
      | nil => exact absurd hs (List.splitOn_ne_nil _ _)
      | cons e es =>
        rw [hs] at h ih
        rcases List.mem_cons.mp h with rfl | h
        · refine List.not_mem_cons_of_ne_of_not_mem ?_ (ih List.mem_cons_self)
          rintro rfl
          exact hd (by simp)
        · exact ih (List.mem_cons_of_mem e h)

/-- `PurePosixPath(p)` -/
def ofText (p : List Char) : PurePosixPath where
  root := rootOf p
  tail := (p.splitOn '/').filter fun c => c ≠ [] ∧ c ≠ ['.']
  root_slashes := rootOf_slashes p
  components c hc := by
    obtain ⟨hc, hkept⟩ := List.mem_filter.mp hc
    obtain ⟨hne, hdot⟩ := of_decide_eq_true hkept
    exact ⟨hne, hdot, not_mem_of_mem_splitOn hc⟩

theorem tail_ofText (p : List Char) :
    (ofText p).tail = (p.splitOn '/').filter fun c => c ≠ [] ∧ c ≠ ['.'] := rfl

/-- The loop of `posixpath.join`: a segment that starts with a slash stands alone. -/
def joinTwo (path segment : List Char) : List Char :=
  if segment.head? = some '/' then segment
  else if path = [] ∨ path.getLast? = some '/' then path ++ segment
  else path ++ '/' :: segment

def join : List (List Char) → List Char
  | [] => []
  | path :: segments => segments.foldl joinTwo path

/-- `PurePosixPath(*segments)` -/
def ofSegments (segments : List (List Char)) : PurePosixPath := ofText (join segments)

end PosixPath

namespace PurePosixPath

def parts (p : PurePosixPath) : List (List Char) := if p.root = [] then p.tail else p.root :: p.tail

def asPosix (p : PurePosixPath) : List Char :=
  if p.root = [] ∧ p.tail = [] then ['.'] else p.root ++ ['/'].intercalate p.tail

end PurePosixPath

namespace PosixPath

variable {c : List Char} {cs : List (List Char)}

theorem IsComponent.not_head (h : IsComponent c) : c.head? ≠ some '/' := fun hhead =>
  h.2.2 (List.mem_of_mem_head? hhead)

theorem IsComponent.not_last (h : IsComponent c) : c.getLast? ≠ some '/' := fun hlast =>
  h.2.2 (List.mem_of_getLast? hlast)

theorem joinTwo_component {path : List Char} (hne : path ≠ []) (hlast : path.getLast? ≠ some '/')
    (h : IsComponent c) : joinTwo path c = path ++ '/' :: c := by
  rw [joinTwo, if_neg h.not_head, if_neg (by simp [hne, hlast])]

theorem getLast?_joinTwo {p : List Char} (h : IsComponent c) :
    (p ++ '/' :: c).getLast? ≠ some '/' := by
  obtain ⟨d, c, rfl⟩ := List.exists_cons_of_ne_nil h.1
  rw [List.getLast?_append_cons, List.getLast?_cons_cons]
  exact h.not_last

theorem foldl_joinTwo {path : List Char} (hne : path ≠ []) (hlast : path.getLast? ≠ some '/')
    (hcs : ∀ c ∈ cs, IsComponent c) :
    cs.foldl joinTwo path = path ++ cs.flatMap fun c => '/' :: c := by
  induction cs generalizing path with
  | nil => simp
  | cons c cs ih =>
    have hc := hcs c List.mem_cons_self
    rw [List.foldl_cons, joinTwo_component hne hlast hc, List.flatMap_cons, ← List.append_assoc]
    exact ih (by simp) (getLast?_joinTwo hc) fun d hd => hcs d (List.mem_cons_of_mem c hd)

theorem intercalate_cons_slash (c : List Char) (cs : List (List Char)) :
    ['/'].intercalate (c :: cs) = c ++ cs.flatMap fun c => '/' :: c := by
  induction cs generalizing c with
  | nil => simp
  | cons d cs ih => rw [List.intercalate_cons_cons, ih, List.flatMap_cons]; simp

/-- Components that are joined make a relative path of these components. -/
theorem join_components (hcs : ∀ c ∈ cs, IsComponent c) : join cs = ['/'].intercalate cs := by
  cases cs with
  | nil => rfl
  | cons c cs =>
    have hc := hcs c List.mem_cons_self
    rw [join, intercalate_cons_slash]
    exact foldl_joinTwo hc.1 hc.not_last fun d hd => hcs d (List.mem_cons_of_mem c hd)

theorem join_root (hcs : ∀ c ∈ cs, IsComponent c) :
    join (['/'] :: cs) = '/' :: ['/'].intercalate cs := by
  cases cs with
  | nil => rfl
  | cons c cs =>
    have hc := hcs c List.mem_cons_self
    have hfirst : joinTwo ['/'] c = '/' :: c := by
      rw [joinTwo, if_neg hc.not_head, if_pos (.inr rfl)]
      rfl
    have hlast : ('/' :: c).getLast? ≠ some '/' := getLast?_joinTwo (p := []) hc
    rw [join, List.foldl_cons, hfirst, intercalate_cons_slash]
    exact foldl_joinTwo (by simp) hlast fun d hd => hcs d (List.mem_cons_of_mem c hd)

theorem filter_components (hcs : ∀ c ∈ cs, IsComponent c) :
    (cs.filter fun c => decide (c ≠ [] ∧ c ≠ ['.'])) = cs :=
  List.filter_eq_self.mpr fun c hc => decide_eq_true ⟨(hcs c hc).1, (hcs c hc).2.1⟩

theorem rootOf_not_slash (h : c.head? ≠ some '/') : rootOf c = [] := by
  fun_cases rootOf c <;> simp_all

theorem rootOf_one_slash (h : c.head? ≠ some '/') : rootOf ('/' :: c) = ['/'] := by
  cases c with
  | nil => rfl
  | cons d c =>
    have hd : d ≠ '/' := fun hd => h (congrArg some hd)
    rw [rootOf]
    · simp [hd]
    · simp [hd]

theorem head?_intercalate (hcs : ∀ c ∈ cs, IsComponent c) :
    (['/'].intercalate cs).head? ≠ some '/' := by
  cases cs with
  | nil => simp
  | cons c cs =>
    have hc := hcs c List.mem_cons_self
    obtain ⟨d, c', rfl⟩ := List.exists_cons_of_ne_nil hc.1
    rw [intercalate_cons_slash]
    exact hc.not_head

theorem tail_intercalate (hcs : ∀ c ∈ cs, IsComponent c) :
    (ofText (['/'].intercalate cs)).tail = cs := by
  cases cs with
  | nil => rfl
  | cons c cs =>
    rw [tail_ofText, List.splitOn_intercalate '/' (fun d hd => (hcs d hd).2.2) (by simp)]
    exact filter_components hcs

theorem tail_root_intercalate (hcs : ∀ c ∈ cs, IsComponent c) :
    (ofText ('/' :: ['/'].intercalate cs)).tail = cs := by
  have hslash : ('/' :: ['/'].intercalate cs).splitOn '/' = [] :: (['/'].intercalate cs).splitOn '/' := by
    rw [List.splitOn_cons_eq_if_modifyHead, if_pos (by simp)]
  rw [tail_ofText, hslash, List.filter_cons_of_neg (by simp)]
  exact tail_intercalate hcs

theorem parts_ofSegments (hcs : ∀ c ∈ cs, IsComponent c) : (ofSegments cs).parts = cs := by
  have hroot : (ofSegments cs).root = [] := by
    rw [ofSegments, join_components hcs]
    exact rootOf_not_slash (head?_intercalate hcs)
  rw [PurePosixPath.parts, if_pos hroot, ofSegments, join_components hcs, tail_intercalate hcs]

theorem root_ofSegments (hcs : ∀ c ∈ cs, IsComponent c) : (ofSegments (['/'] :: cs)).root = ['/'] := by
  rw [ofSegments, join_root hcs]
  exact rootOf_one_slash (head?_intercalate hcs)

theorem tail_ofSegments (hcs : ∀ c ∈ cs, IsComponent c) : (ofSegments (['/'] :: cs)).tail = cs := by
  rw [ofSegments, join_root hcs, tail_root_intercalate hcs]

theorem parts_component (h : IsComponent c) : (ofText c).parts = [c] := by
  have hc : ∀ d ∈ [c], IsComponent d := fun _ hd => List.mem_singleton.mp hd ▸ h
  exact parts_ofSegments hc

theorem asPosix_ofSegments (hcs : ∀ c ∈ cs, IsComponent c) :
    (ofSegments (['/'] :: cs)).asPosix = '/' :: ['/'].intercalate cs := by
  rw [PurePosixPath.asPosix, root_ofSegments hcs, tail_ofSegments hcs, if_neg (by simp)]
  rfl

/-- What is written with a slash at its end is read again. -/
theorem parts_ofText_asPosix (hcs : ∀ c ∈ cs, IsComponent c) (hne : cs ≠ []) :
    (ofText ((ofSegments (['/'] :: cs)).asPosix ++ ['/'])).parts = ['/'] :: cs := by
  obtain ⟨c, cs, rfl⟩ := List.exists_cons_of_ne_nil hne
  have hc := hcs c List.mem_cons_self
  rw [asPosix_ofSegments hcs, List.cons_append]
  have hroot : (ofText ('/' :: (['/'].intercalate (c :: cs) ++ ['/']))).root = ['/'] := by
    refine rootOf_one_slash ?_
    obtain ⟨d, c', rfl⟩ := List.exists_cons_of_ne_nil hc.1
    rw [intercalate_cons_slash]
    exact hc.not_head
  have htail : (ofText ('/' :: (['/'].intercalate (c :: cs) ++ ['/']))).tail = c :: cs := by
    rw [tail_ofText, ← List.cons_append, List.splitOn_append_cons_self, List.filter_append,
      List.splitOn_nil, List.filter_cons_of_neg (by simp), List.filter_nil, List.append_nil,
      ← tail_ofText]
    exact tail_root_intercalate hcs
  rw [PurePosixPath.parts, if_neg (by simp [hroot]), htail, hroot]

/-- Whatever comes after the first part is a component. -/
theorem isComponent_of_mem_drop {p : PurePosixPath} {n : ℕ} (hn : 0 < n) (h : c ∈ p.parts.drop n) :
    IsComponent c := by
  refine p.components c ?_
  rw [PurePosixPath.parts] at h
  split at h
  · exact List.mem_of_mem_drop h
  · cases n with
    | zero => exact absurd hn (Nat.lt_irrefl 0)
    | succ n => exact List.mem_of_mem_drop h

end PosixPath

end Forail
