import Forail.Base.PosixPath
import Forail.Middleware.UrlModification

/-! The path of a request with a named URL in it. The prefix of the API is recognised by its
components, in any order and any place, and cut off by its length. -/

namespace Forail.NamedUrl

open Percent PosixPath

/-- `OPTIONAL_API_URLPATTERN_PREFIX`, `NAMED_URL_MAPPINGS` and the answers for the named URLs of
mapped resources. -/
structure Settings where
  optionalApiUrlpatternPrefix : Str
  mapped : Str → Bool
  namedUrlToPk : Str → Str → Except String Str
  component : ∀ {resource name pk : Str}, IsComponent name →
    namedUrlToPk resource name = .ok pk → IsComponent pk

section Definitions
variable (s : Settings)

def defaultPrefix : PurePosixPath := ofText "/api/v2/".toList

def Settings.optionalPrefix : PurePosixPath :=
  ofText ("/api/".toList ++ (s.optionalApiUrlpatternPrefix ++ "/v2/".toList))

/-- `_convert_named_url` once the prefix is chosen. -/
def convertBehind (urlPathOriginal : Str) (urlPrefix : PurePosixPath) : Except String Str :=
  let urlPath := ofSegments ((ofText urlPathOriginal).parts.drop urlPrefix.parts.length)
  match urlPath.parts with
  | first :: name :: suffix =>
    let resourcePath := ofText first
    match resourcePath.parts with
    | [] => .error "tuple index out of range"
    | resource :: _ =>
      if s.mapped resource then do
        let pk ← s.namedUrlToPk resource name
        let parts := urlPrefix.parts ++ resourcePath.parts ++ (ofText pk).parts ++ (ofSegments suffix).parts
        return (ofSegments parts).asPosix ++ ['/']
      else .ok urlPathOriginal
  | _ => .ok urlPathOriginal

def convertNamedUrl (urlPath : Str) : Except String Str :=
  if s.optionalPrefix.parts ⊆ (ofText urlPath).parts then convertBehind s urlPath s.optionalPrefix
  else if defaultPrefix.parts ⊆ (ofText urlPath).parts then convertBehind s urlPath defaultPrefix
  else .ok urlPath

/-! ### What the path says -/

/-- The prefix that the path begins with. -/
def matchingPrefix (parts : List Str) : Option (List Str) :=
  if s.optionalPrefix.parts <+: parts then some s.optionalPrefix.parts
  else if defaultPrefix.parts <+: parts then some defaultPrefix.parts
  else none

/-- The prefix whose components all occur in the path. -/
def occurringPrefix (parts : List Str) : Option (List Str) :=
  if s.optionalPrefix.parts ⊆ parts then some s.optionalPrefix.parts
  else if defaultPrefix.parts ⊆ parts then some defaultPrefix.parts
  else none

/-- A mapped resource, a name and the rest, with what is put before them. -/
structure NamedPath where
  urlPrefix : List Str
  resource : Str
  name : Str
  rest : List Str

def NamedPath.parts (r : NamedPath) (name : Str) : List Str :=
  r.urlPrefix ++ r.resource :: name :: r.rest

/-- A path in normal form, with a slash at its end. -/
def pathText (parts : List Str) : Str := (ofSegments parts).asPosix ++ ['/']

/-- The path begins with the prefix, and then come a mapped resource and a name. -/
def Settings.Names (urlPath : Str) (r : NamedPath) : Prop :=
  r.urlPrefix ∈ matchingPrefix s (ofText urlPath).parts ∧ (ofText urlPath).parts = r.parts r.name ∧
    s.mapped r.resource = true

/-- The name that comes third after the prefix is replaced, and a path without one is not
changed. -/
structure Positional (urlPath : Str) (answer : Except String Str) : Prop where
  named : ∀ r, s.Names urlPath r → ∀ pk, s.namedUrlToPk r.resource r.name = .ok pk →
    answer = .ok (pathText (r.parts pk))
  other : (∀ r, ¬ s.Names urlPath r) → answer = .ok urlPath

/-- They come after as many components as the occurring prefix has. -/
def Settings.Finds (urlPath : Str) (r : NamedPath) : Prop :=
  r.urlPrefix ∈ occurringPrefix s (ofText urlPath).parts ∧
    (ofText urlPath).parts.drop r.urlPrefix.length = r.resource :: r.name :: r.rest ∧
    s.mapped r.resource = true

/-- The path begins with the prefix that occurs in it; or there is no answer for its name; or no
name is found after the other prefix, and one that is there is its own answer in a path in normal
form; or the names that are there and found have answers that make the same path. -/
def Settings.Unmistaken (urlPath : Str) : Prop :=
  occurringPrefix s (ofText urlPath).parts = matchingPrefix s (ofText urlPath).parts ∨
  (∃ r e, s.Names urlPath r ∧ s.namedUrlToPk r.resource r.name = .error e) ∨
  ((∀ r, ¬ s.Finds urlPath r) ∧ ∀ r, s.Names urlPath r →
    s.namedUrlToPk r.resource r.name = .ok r.name ∧ pathText (ofText urlPath).parts = urlPath) ∨
  ∃ r r' pk pk', s.Names urlPath r ∧ s.Finds urlPath r' ∧
    s.namedUrlToPk r.resource r.name = .ok pk ∧ s.namedUrlToPk r'.resource r'.name = .ok pk' ∧
    r.parts pk = r'.parts pk'

end Definitions

/-! ### The answers of a graph -/

theorem isComponent_strPk (pk : ℕ) : IsComponent (strPk pk) := by
  have hdigits : ∀ c ∈ strPk pk, c.isDigit = true := fun c hc =>
    Nat.isDigit_of_mem_toDigits (by decide) (by decide) hc
  refine ⟨Nat.toDigits_ne_nil, fun hdot => ?_, fun hslash => ?_⟩
  · exact absurd (hdigits '.' (hdot ▸ List.mem_cons_self)) (by decide)
  · exact absurd (hdigits '/' hslash) (by decide)

/-- An answer is a primary key or the name itself. -/
theorem isComponent_namedUrlToPk {g : Graph} {db : Database} {u : UnicodeData} {fuel i : ℕ}
    {counter counter' : ℕ → ℕ} {resource : String} {name pk : Str} (hname : IsComponent name)
    (h : namedUrlToPk g db u fuel counter i resource name = some (.ok (pk, counter'))) :
    IsComponent pk := by
  rw [namedUrlToPk] at h
  obtain ⟨result, -, hresult⟩ := Option.map_eq_some_iff.mp h
  cases result with
  | error e => cases hresult
  | ok result =>
    obtain ⟨valid, kwargs, after⟩ := result
    have hzero : IsComponent ['0'] := by decide
    simp only [bind, Except.bind, pure, Except.pure] at hresult
    split at hresult
    · split at hresult
      · cases hresult
        exact isComponent_strPk _
      · cases hresult
        exact hzero
    · split at hresult
      · split at hresult
        · cases hresult
          exact isComponent_strPk _
        · cases hresult
          exact hname
      · cases hresult
        exact hname

/-- The settings of an API: the node of each mapped resource is asked on a clean graph, and where
the fuel is not enough there is no answer. -/
def Settings.ofGraph (g : Graph) (db : Database) (u : UnicodeData) (fuel : ℕ) (optional : Str)
    (mappings : Str → Option ℕ) : Settings where
  optionalApiUrlpatternPrefix := optional
  mapped resource := (mappings resource).isSome
  namedUrlToPk resource name :=
    match mappings resource with
    | none => .error "KeyError"
    | some i =>
      match NamedUrl.namedUrlToPk g db u fuel (fun _ => 0) i (String.ofList resource) name with
      | none => .error "no answer"
      | some answer => answer.map Prod.fst
  component {resource name pk} hname h := by
    split at h
    · cases h
    · split at h
      · cases h
      · next answer hanswer =>
        cases answer with
        | error e => cases h
        | ok answer =>
          cases h
          exact isComponent_namedUrlToPk hname hanswer

variable {s : Settings} {urlPath : Str} {r r' : NamedPath}

/-! ### Prefixes -/

theorem parts_prefix (text : Str) : ∃ cs, (∀ c ∈ cs, IsComponent c) ∧
    (ofText ("/api/".toList ++ text)).parts = ['/'] :: cs :=
  ⟨_, (ofText ("/api/".toList ++ text)).components, rfl⟩

/-- Either prefix is a slash and some components. -/
theorem parts_of_occurring {parts urlPrefix : List Str} (h : urlPrefix ∈ occurringPrefix s parts) :
    ∃ cs, (∀ c ∈ cs, IsComponent c) ∧ urlPrefix = ['/'] :: cs := by
  rw [occurringPrefix] at h
  split_ifs at h
  · obtain rfl := Option.some.inj h
    exact parts_prefix _
  · obtain rfl := Option.some.inj h
    exact parts_prefix "v2/".toList
  · cases h

theorem parts_of_matching {parts urlPrefix : List Str} (h : urlPrefix ∈ matchingPrefix s parts) :
    ∃ cs, (∀ c ∈ cs, IsComponent c) ∧ urlPrefix = ['/'] :: cs := by
  rw [matchingPrefix] at h
  split_ifs at h
  · obtain rfl := Option.some.inj h
    exact parts_prefix _
  · obtain rfl := Option.some.inj h
    exact parts_prefix "v2/".toList
  · cases h

theorem prefix_of_matching {parts urlPrefix : List Str} (h : urlPrefix ∈ matchingPrefix s parts) :
    urlPrefix <+: parts := by
  rw [matchingPrefix] at h
  split_ifs at h with hoptional hdefault
  · exact Option.some.inj h ▸ hoptional
  · exact Option.some.inj h ▸ hdefault
  · cases h

/-- A prefix occurs where the path begins with it. -/
theorem matching_eq_occurring {parts urlPrefix : List Str} (h : urlPrefix ∈ occurringPrefix s parts)
    (hfront : urlPrefix <+: parts) : occurringPrefix s parts = matchingPrefix s parts := by
  by_cases hoptional : s.optionalPrefix.parts ⊆ parts
  · rw [occurringPrefix, if_pos hoptional] at h ⊢
    obtain rfl := Option.some.inj h
    rw [matchingPrefix, if_pos hfront]
  · have hnot : ¬ s.optionalPrefix.parts <+: parts := fun hmatch => hoptional hmatch.subset
    rw [occurringPrefix, if_neg hoptional] at h ⊢
    split_ifs at h ⊢ with hdefault
    · obtain rfl := Option.some.inj h
      rw [matchingPrefix, if_neg hnot, if_pos hfront]
    · cases h

/-! ### What is found -/

theorem Settings.Finds.unique (h : s.Finds urlPath r) (h' : s.Finds urlPath r') : r = r' := by
  obtain ⟨hfront, hdrop, -⟩ := h
  obtain ⟨hfront', hdrop', -⟩ := h'
  obtain ⟨urlPrefix, resource, name, rest⟩ := r
  obtain ⟨urlPrefix', resource', name', rest'⟩ := r'
  obtain rfl : urlPrefix = urlPrefix' := Option.some.inj (hfront.symm.trans hfront')
  rw [hdrop] at hdrop'
  obtain ⟨rfl, hnames⟩ := List.cons.inj hdrop'
  obtain ⟨rfl, rfl⟩ := List.cons.inj hnames
  rfl

theorem Settings.Names.unique (h : s.Names urlPath r) (h' : s.Names urlPath r') : r = r' := by
  obtain ⟨hfront, hparts, -⟩ := h
  obtain ⟨hfront', hparts', -⟩ := h'
  obtain ⟨urlPrefix, resource, name, rest⟩ := r
  obtain ⟨urlPrefix', resource', name', rest'⟩ := r'
  obtain rfl : urlPrefix = urlPrefix' := Option.some.inj (hfront.symm.trans hfront')
  have hrest := List.append_cancel_left (hparts.symm.trans hparts')
  obtain ⟨rfl, hnames⟩ := List.cons.inj hrest
  obtain ⟨rfl, rfl⟩ := List.cons.inj hnames
  rfl

/-- Where the prefix is the right one, a name is found exactly if it is there. -/
theorem finds_iff_names (h : occurringPrefix s (ofText urlPath).parts =
    matchingPrefix s (ofText urlPath).parts) : s.Finds urlPath r ↔ s.Names urlPath r := by
  rw [Settings.Finds, Settings.Names, h]
  refine and_congr_right fun hfront => and_congr_left fun _ => ?_
  obtain ⟨rest, hrest⟩ := prefix_of_matching hfront
  rw [← hrest, List.drop_left, NamedPath.parts]
  exact (List.append_cancel_left_eq _ _ _).symm.to_iff

/-- The path itself is made of a root and components. -/
theorem components_of_drop {cs behind : List Str} {urlPrefix : List Str}
    (hfront : urlPrefix = ['/'] :: cs) (hdrop : (ofText urlPath).parts.drop urlPrefix.length = behind) :
    ∀ c ∈ behind, IsComponent c := by
  intro c hc
  rw [← hdrop] at hc
  exact isComponent_of_mem_drop (by rw [hfront]; exact Nat.succ_pos _) hc

theorem Settings.Finds.components (h : s.Finds urlPath r) :
    ∀ c ∈ r.resource :: r.name :: r.rest, IsComponent c := by
  obtain ⟨cs, -, hfront⟩ := parts_of_occurring h.1
  exact components_of_drop hfront h.2.1

theorem Settings.Names.components (h : s.Names urlPath r) :
    ∀ c ∈ r.resource :: r.name :: r.rest, IsComponent c := by
  obtain ⟨cs, -, hfront⟩ := parts_of_matching h.1
  have hdrop : (ofText urlPath).parts.drop r.urlPrefix.length = r.resource :: r.name :: r.rest := by
    rw [h.2.1, NamedPath.parts, List.drop_left]
  exact components_of_drop hfront hdrop

/-! ### The converted path -/

/-- Of the components behind the prefix the second is replaced. -/
theorem convertBehind_eq {urlPrefix : PurePosixPath} (hne : urlPrefix.parts ≠ []) :
    convertBehind s urlPath urlPrefix = match (ofText urlPath).parts.drop urlPrefix.parts.length with
      | resource :: name :: rest =>
        if s.mapped resource then (s.namedUrlToPk resource name).map fun pk =>
          pathText (urlPrefix.parts ++ resource :: pk :: rest)
        else .ok urlPath
      | _ => .ok urlPath := by
  have hbehind : ∀ c ∈ (ofText urlPath).parts.drop urlPrefix.parts.length, IsComponent c :=
    fun c hc => isComponent_of_mem_drop (List.length_pos_iff.mpr hne) hc
  simp only [convertBehind, parts_ofSegments hbehind]
  rcases hdrop : (ofText urlPath).parts.drop urlPrefix.parts.length with _ | ⟨resource, _ | ⟨name, rest⟩⟩
  · rfl
  · rfl
  rw [hdrop] at hbehind
  have hresource : IsComponent resource := hbehind resource List.mem_cons_self
  have hname : IsComponent name := hbehind name (List.mem_cons_of_mem _ List.mem_cons_self)
  have hrest : ∀ c ∈ rest, IsComponent c := fun c hc =>
    hbehind c (List.mem_cons_of_mem _ (List.mem_cons_of_mem _ hc))
  simp only [parts_component hresource, parts_ofSegments hrest]
  cases hmapped : s.mapped resource with
  | false => rfl
  | true =>
    cases hpk : s.namedUrlToPk resource name with
    | error e => rfl
    | ok pk =>
      have hcomponent : IsComponent pk := s.component hname hpk
      have hparts : urlPrefix.parts ++ [resource] ++ [pk] ++ rest =
          urlPrefix.parts ++ resource :: pk :: rest := by simp
      simp only [if_true, Except.map, bind, Except.bind, pure, Except.pure,
        parts_component hcomponent, hparts, pathText]

theorem convertNamedUrl_eq (s : Settings) (urlPath : Str) : convertNamedUrl s urlPath =
    match occurringPrefix s (ofText urlPath).parts with
    | none => .ok urlPath
    | some urlPrefix =>
      match (ofText urlPath).parts.drop urlPrefix.length with
      | resource :: name :: rest =>
        if s.mapped resource then
          (s.namedUrlToPk resource name).map fun pk => pathText (urlPrefix ++ resource :: pk :: rest)
        else .ok urlPath
      | _ => .ok urlPath := by
  rw [convertNamedUrl, occurringPrefix]
  split_ifs
  · exact convertBehind_eq (List.cons_ne_nil _ _)
  · exact convertBehind_eq (List.cons_ne_nil _ _)
  · rfl

theorem convertNamedUrl_of_finds (h : s.Finds urlPath r) : convertNamedUrl s urlPath =
    (s.namedUrlToPk r.resource r.name).map fun pk => pathText (r.parts pk) := by
  obtain ⟨hfront, hdrop, hmapped⟩ := h
  rw [convertNamedUrl_eq, Option.mem_def.mp hfront]
  simp only [hdrop, hmapped, if_true, NamedPath.parts]

theorem convertNamedUrl_of_not_finds (h : ∀ r, ¬ s.Finds urlPath r) :
    convertNamedUrl s urlPath = .ok urlPath := by
  rw [convertNamedUrl_eq]
  split
  · rfl
  next urlPrefix hfront =>
    split
    · next resource name rest hdrop =>
      refine if_neg fun hmapped => ?_
      exact h ⟨urlPrefix, resource, name, rest⟩ ⟨hfront, hdrop, hmapped⟩
    · rfl

/-- The parts of a path with an answer in it are found in its text again. -/
theorem parts_pathText {cs : List Str} (hfront : r.urlPrefix = ['/'] :: cs)
    (hcs : ∀ c ∈ cs, IsComponent c) (hall : ∀ c ∈ r.resource :: r.name :: r.rest, IsComponent c)
    {pk : Str} (hpk : s.namedUrlToPk r.resource r.name = .ok pk) :
    (ofText (pathText (r.parts pk))).parts = r.parts pk := by
  have hname : IsComponent r.name := hall _ (List.mem_cons_of_mem _ List.mem_cons_self)
  have hbehind : ∀ c ∈ r.resource :: pk :: r.rest, IsComponent c := by
    intro c hc
    rcases List.mem_cons.mp hc with rfl | hc
    · exact hall _ List.mem_cons_self
    · rcases List.mem_cons.mp hc with rfl | hc
      · exact s.component hname hpk
      · exact hall c (List.mem_cons_of_mem _ (List.mem_cons_of_mem _ hc))
  rw [NamedPath.parts, hfront, List.cons_append]
  refine parts_ofText_asPosix (fun c hc => ?_) (by simp)
  rcases List.mem_append.mp hc with hc | hc
  · exact hcs c hc
  · exact hbehind c hc

theorem Settings.Finds.parts_pathText (h : s.Finds urlPath r) {pk : Str}
    (hpk : s.namedUrlToPk r.resource r.name = .ok pk) :
    (ofText (pathText (r.parts pk))).parts = r.parts pk := by
  obtain ⟨cs, hcs, hfront⟩ := parts_of_occurring h.1
  exact NamedUrl.parts_pathText hfront hcs h.components hpk

theorem Settings.Names.parts_pathText (h : s.Names urlPath r) {pk : Str}
    (hpk : s.namedUrlToPk r.resource r.name = .ok pk) :
    (ofText (pathText (r.parts pk))).parts = r.parts pk := by
  obtain ⟨cs, hcs, hfront⟩ := parts_of_matching h.1
  exact NamedUrl.parts_pathText hfront hcs h.components hpk

theorem NamedPath.parts_inj {name name' : Str} (h : r.parts name = r.parts name') : name = name' :=
  (List.cons.inj (List.cons.inj (List.append_cancel_left h)).2).1

/-! ### Where the path is read right -/

/-- With the prefix that the path begins with, the name that is found is the one that is there. -/
theorem positional_of_matching (h : occurringPrefix s (ofText urlPath).parts =
    matchingPrefix s (ofText urlPath).parts) : Positional s urlPath (convertNamedUrl s urlPath) where
  named r hr pk hpk := by
    rw [convertNamedUrl_of_finds ((finds_iff_names h).mpr hr), hpk]
    rfl
  other hnone := convertNamedUrl_of_not_finds fun r hr => hnone r ((finds_iff_names h).mp hr)

theorem positional_of_error {e : String} (hr : s.Names urlPath r)
    (he : s.namedUrlToPk r.resource r.name = .error e) (answer : Except String Str) :
    Positional s urlPath answer where
  named r' hr' pk hpk := by
    rw [← hr.unique hr', he] at hpk
    cases hpk
  other hnone := absurd hr (hnone r)

theorem positional_of_unmistaken (h : s.Unmistaken urlPath) :
    Positional s urlPath (convertNamedUrl s urlPath) := by
  rcases h with hfront | ⟨r, e, hr, he⟩ | ⟨hnone, hown⟩ | ⟨r, r', pk, pk', hr, hr', hpk, hpk', heq⟩
  · exact positional_of_matching hfront
  · exact positional_of_error hr he _
  · have hkept := convertNamedUrl_of_not_finds hnone
    refine ⟨fun r hr pk hpk => ?_, fun _ => hkept⟩
    obtain ⟨hname, htext⟩ := hown r hr
    rw [hname] at hpk
    obtain rfl := Except.ok.inj hpk
    rw [hkept, ← hr.2.1, htext]
  · refine ⟨fun r₁ hr₁ pk₁ hpk₁ => ?_, fun hnone => absurd hr (hnone r)⟩
    rw [← hr.unique hr₁] at hpk₁ ⊢
    rw [hpk] at hpk₁
    obtain rfl := Except.ok.inj hpk₁
    rw [convertNamedUrl_of_finds hr', hpk', heq]
    rfl

/-- A path whose text is a converted one begins with the prefix that is found. -/
theorem matching_of_pathText (hr : s.Finds urlPath r) {pk : Str}
    (hpk : s.namedUrlToPk r.resource r.name = .ok pk) (htext : pathText (r.parts pk) = urlPath) :
    occurringPrefix s (ofText urlPath).parts = matchingPrefix s (ofText urlPath).parts := by
  have hparts := hr.parts_pathText hpk
  rw [htext] at hparts
  exact matching_eq_occurring hr.1 (hparts ▸ List.prefix_append _ _)

theorem unmistaken_of_positional (h : Positional s urlPath (convertNamedUrl s urlPath)) :
    s.Unmistaken urlPath := by
  by_cases hfound : ∃ r', s.Finds urlPath r'
  · obtain ⟨r', hr'⟩ := hfound
    have hconverted := convertNamedUrl_of_finds hr'
    by_cases hnamed : ∃ r, s.Names urlPath r
    · obtain ⟨r, hr⟩ := hnamed
      cases hpk : s.namedUrlToPk r.resource r.name with
      | error e => exact .inr (.inl ⟨r, e, hr, hpk⟩)
      | ok pk =>
        rw [h.named r hr pk hpk] at hconverted
        cases hpk' : s.namedUrlToPk r'.resource r'.name with
        | error e =>
          rw [hpk'] at hconverted
          cases hconverted
        | ok pk' =>
          rw [hpk'] at hconverted
          have htext : pathText (r.parts pk) = pathText (r'.parts pk') := Except.ok.inj hconverted
          refine .inr (.inr (.inr ⟨r, r', pk, pk', hr, hr', hpk, hpk', ?_⟩))
          rw [← hr.parts_pathText hpk, htext, hr'.parts_pathText hpk']
    · rw [h.other fun r hr => hnamed ⟨r, hr⟩] at hconverted
      cases hpk' : s.namedUrlToPk r'.resource r'.name with
      | error e =>
        rw [hpk'] at hconverted
        cases hconverted
      | ok pk' =>
        rw [hpk'] at hconverted
        exact .inl (matching_of_pathText hr' hpk' (Except.ok.inj hconverted).symm)
  · have hnone : ∀ r, ¬ s.Finds urlPath r := fun r hr => hfound ⟨r, hr⟩
    have hkept := convertNamedUrl_of_not_finds hnone
    by_cases herror : ∃ r e, s.Names urlPath r ∧ s.namedUrlToPk r.resource r.name = .error e
    · exact .inr (.inl herror)
    refine .inr (.inr (.inl ⟨hnone, fun r hr => ?_⟩))
    cases hpk : s.namedUrlToPk r.resource r.name with
    | error e => exact absurd ⟨r, e, hr, hpk⟩ herror
    | ok pk =>
      have htext : urlPath = pathText (r.parts pk) :=
        Except.ok.inj (hkept.symm.trans (h.named r hr pk hpk))
      have hparts := hr.parts_pathText hpk
      rw [← htext, hr.2.1] at hparts
      obtain rfl := NamedPath.parts_inj hparts
      exact ⟨rfl, by rw [hr.2.1, ← htext]⟩

/-- The third component after the prefix is rewritten, and nothing else, where the path is not
mistaken for one with another prefix. -/
theorem convertNamedUrl_positional_iff (s : Settings) (urlPath : Str) :
    Positional s urlPath (convertNamedUrl s urlPath) ↔ s.Unmistaken urlPath :=
  ⟨unmistaken_of_positional, positional_of_unmistaken⟩

/-- An API at `/api/foo/v2/` whose named organizations have the key 7. -/
def fooSettings : Settings where
  optionalApiUrlpatternPrefix := "foo".toList
  mapped resource := resource = "organizations".toList
  namedUrlToPk _ _ := .ok ['7']
  component _ h := Except.ok.inj h ▸ (by decide : IsComponent ['7'])

/-- An organization named `foo` keeps its name in the path, and a path that begins with neither
prefix is rewritten. -/
theorem prefix_found_elsewhere :
    ¬ Positional fooSettings "/api/v2/organizations/foo/".toList
      (convertNamedUrl fooSettings "/api/v2/organizations/foo/".toList) ∧
    ¬ Positional fooSettings "/api/x/organizations/y/v2/".toList
      (convertNamedUrl fooSettings "/api/x/organizations/y/v2/".toList) := by
  have hnamed : fooSettings.Names "/api/v2/organizations/foo/".toList
      ⟨defaultPrefix.parts, "organizations".toList, "foo".toList, []⟩ := by
    refine ⟨by decide, by decide, rfl⟩
  have hkept : convertNamedUrl fooSettings "/api/v2/organizations/foo/".toList =
      .ok "/api/v2/organizations/foo/".toList := rfl
  have hchanged : convertNamedUrl fooSettings "/api/x/organizations/y/v2/".toList =
      .ok "/api/v2/organizations/7/v2/".toList := rfl
  constructor
  · intro h
    have hanswer := h.named _ hnamed ['7'] rfl
    rw [hkept] at hanswer
    exact absurd (Except.ok.inj hanswer) (by decide)
  · intro h
    have hnone : matchingPrefix fooSettings (ofText "/api/x/organizations/y/v2/".toList).parts = none := by
      decide
    have hanswer := h.other fun r hr => by
      rw [Settings.Names, hnone] at hr
      cases hr.1
    rw [hchanged] at hanswer
    exact absurd (Except.ok.inj hanswer) (by decide)

end Forail.NamedUrl
