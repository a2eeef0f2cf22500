import Forail.Base.MarkedReplace
import Forail.Base.Percent

/-! The redaction of URIs in texts (`main/redact.py`). The pattern finds a word of at most twenty characters,
a colon and everything up to the next space; the user name and the password that `urlsplit` finds in it
are replaced where they occur first. -/

namespace Forail.UriCleaner

open Replace

/-- The character classes of the pattern, and what `urlsplit` checks of the network location. -/
structure Platform where
  isWord : Char → Bool
  isSpace : Char → Bool
  netlocValid : Str → Bool
  word_not_space : ∀ c, isWord c = true → isSpace c = false
  colon_not_word : isWord ':' = false
  colon_not_space : isSpace ':' = false

def replaceStr : Str := "$encrypted$".toList

/-! ### `urlsplit` -/

/-- The scheme with its slashes, the network location and the rest. -/
structure SplitResult where
  before : Str
  netloc : Str
  after : Str
deriving DecidableEq

def isSchemeChar (c : Char) : Bool := c.isAlphanum || c = '+' || c = '-' || c = '.'

/-- The scheme with its colon, and what follows it; what is no scheme belongs to the path. -/
def splitScheme (url : Str) : Str × Str :=
  let scheme := url.takeWhile (· ≠ ':')
  match url.dropWhile (· ≠ ':') with
  | [] => ([], url)
  | colon :: rest =>
    if scheme.head?.any Char.isAlpha && scheme.all isSchemeChar then (scheme ++ [colon], rest) else ([], url)

def isNetlocChar (c : Char) : Bool := c ≠ '/' && c ≠ '?' && c ≠ '#'

/-- The user information of a network location, which ends at its last `@`, and the host. -/
structure Userinfo where
  username : Str
  separator : Str
  password : Str
  host : Str

/-- `username` and `password`; of these, what is missing is empty. -/
def userinfo (netloc : Str) : Userinfo :=
  if '@' ∈ netloc then
    let host := (netloc.reverse.takeWhile (· ≠ '@')).reverse
    let info := ((netloc.reverse.dropWhile (· ≠ '@')).drop 1).reverse
    let rest := info.dropWhile (· ≠ ':')
    ⟨info.takeWhile (· ≠ ':'), rest.take 1, rest.drop 1, host⟩
  else ⟨[], [], [], netloc⟩

/-! ### One URI -/

/-- The replacements in a URI, whose characters may carry marks. -/
def redactUri {α : Type} (char : α → Char) (plain : Char → α) (username password : Str) (uri : List α) :
    List α :=
  let uri := if username ≠ [] then replace char username (replaceStr.map plain) 1 uri else uri
  if password ≠ [] then replace char password (replaceStr.map plain) 2 uri else uri

namespace Platform

variable (platform : Platform)

/-- `urlsplit`, none where it raises. -/
def urlsplit (url : Str) : Option SplitResult :=
  let (scheme, rest) := splitScheme url
  if "//".toList <+: rest then
    let netloc := (rest.drop 2).takeWhile isNetlocChar
    if platform.netlocValid netloc then
      some ⟨scheme ++ "//".toList, netloc, (rest.drop 2).dropWhile isNetlocChar⟩
    else none
  else some ⟨scheme, [], rest⟩

/-- The user name and the password to replace: none where there are neither, and no result where the code
raises. A network location without them is taken for both, if it has a colon. -/
def credentials (uri : Str) : Option (Option (Str × Str)) := do
  let o ← platform.urlsplit uri
  let info := userinfo o.netloc
  if info.username = [] ∧ info.password = [] then
    if ':' ∈ o.netloc then
      match o.netloc.splitOn ':' with
      | [username, password] => some (some (username, password))
      | _ => none
    else some none
  else some (some (info.username, info.password))

/-! ### The loop -/

/-- The match at the start of a text, and what follows it. The colon is not a word character, so that the
word has to end at it. -/
def matchAt (s : Str) : Option (Str × Str) :=
  let word := s.takeWhile platform.isWord
  match s.dropWhile platform.isWord with
  | [] => none
  | colon :: body =>
    let run := body.takeWhile fun c => !platform.isSpace c
    if colon = ':' ∧ 1 ≤ word.length ∧ word.length ≤ 20 ∧ run ≠ [] then
      some (word ++ colon :: run, body.dropWhile fun c => !platform.isSpace c)
    else none

/-- The first match, what precedes and what follows it. -/
def firstMatch : Str → Option (Str × Str × Str)
  | [] => none
  | c :: s =>
    match platform.matchAt (c :: s) with
    | some (uri, rest) => some ([], uri, rest)
    | none => (firstMatch s).map fun (gap, uri, rest) => (c :: gap, uri, rest)

/-- `SENSITIVE_URI_PATTERN.search(text, index)`: the start and the end of the match. -/
def search (text : Str) (index : ℕ) : Option (ℕ × ℕ) :=
  (platform.firstMatch (text.drop index)).map fun (gap, uri, _) =>
    (index + gap.length, index + gap.length + uri.length)

/-- The text and the index after a match. -/
def clean (text : Str) (index start stop : ℕ) : Str × ℕ :=
  let uri := (text.take stop).drop start
  match platform.credentials uri with
  | none => (text.take start ++ replaceStr ++ text.drop stop, start + replaceStr.length)
  | some none => (text, index + uri.length)
  | some (some (username, password)) =>
    let uri := redactUri id id username password uri
    let t := text.take start ++ uri
    let index := t.length
    let t := if stop < text.length then t ++ text.drop stop else t
    (t, if t.length ≤ index then t.length - 1 else index)

/-- The loop for at most `fuel` matches, none where it has not ended by then. -/
def loop : ℕ → Str → ℕ → Option Str
  | 0, _, _ => none
  | fuel + 1, text, index =>
    match platform.search text index with
    | none => some text
    | some (start, stop) =>
      let next := platform.clean text index start stop
      loop fuel next.1 next.2

/-- `remove_sensitive`, with a fuel that a text never uses up. -/
def removeSensitive (cleartext : Str) : Option Str := platform.loop (cleartext.length + 2) cleartext 0

end Platform

end Forail.UriCleaner
