import Forail.Base.RealPath
import Forail.Tasks.FactCache

/-! The files that `start_fact_cache` and `finish_fact_cache` open, on a disk without symbolic links. A
host's file is found by its name, which may be any text; the real path has to start with the text of the
directory, which does not yet put it inside. -/

namespace Forail.FactPaths

open FactCache PosixPath

/-- A file that is opened for a host, by the names on its real path. -/
structure Opened where
  host : Str
  file : List Str
  deriving DecidableEq

variable (destination : Str)

/-! ### The two loops -/

/-- The file can be opened. -/
def Attempt.opens (a : Attempt) : Bool :=
  match a.write with
  | .failed none => false
  | _ => true

/-- `start_fact_cache`. A path that cannot be resolved ends the loop. -/
def startOpened (timeout : ℤ) : List Attempt → List Opened
  | [] => []
  | a :: attempts =>
    if skips timeout a then startOpened timeout attempts
    else
      match realpath (filepath destination a.host) with
      | none => []
      | some real =>
        if destination <+: real ∧ Attempt.opens a then
          ⟨a.host.name, resolve (filepath destination a.host)⟩ :: startOpened timeout attempts
        else startOpened timeout attempts

/-- A host, what is found under its path when the loop comes to it, and the time then. -/
structure Reading where
  host : Host
  found : Option File
  now : ℤ

def Reading.opens (r : Reading) : Bool :=
  match r.found with
  | some ⟨.json _, _⟩ | some ⟨.invalid, _⟩ => true
  | _ => false

/-- The body of the loop of `finish_fact_cache`: the file that it opens and the update, none where it
raises, as it does for a file that cannot be opened. -/
def finishHost (writeTime : Option ℤ) (r : Reading) : Option (List Opened × Option Update) :=
  match realpath (filepath destination r.host) with
  | none => none
  | some real =>
    if ¬ destination <+: real then some ([], none)
    else
      match r.found with
      | none => some ([], some ⟨r.host, .dict [], r.now⟩)
      | some file =>
        if changedSince writeTime file.mtime then
          match file.content with
          | .json facts => some ([⟨r.host.name, resolve (filepath destination r.host)⟩],
              some ⟨r.host, facts, r.now⟩)
          | .invalid => some ([⟨r.host.name, resolve (filepath destination r.host)⟩], none)
          | .unreadable => none
        else some ([], none)

/-- `finish_fact_cache`, with the updates that are not stored yet. A batch that cannot be stored raises
too. -/
def finishOpened (writeTime : Option ℤ) (tries : List Update → ℕ → Bool) :
    List Reading → List Update → List Opened
  | [], _ => []
  | r :: readings, batch =>
    match finishHost destination writeTime r with
    | none => []
    | some (opened, update) =>
      let batch := batch ++ update.toList
      opened ++
        if 100 < batch.length then
          if updateHosts tries batch then finishOpened writeTime tries readings [] else []
        else finishOpened writeTime tries readings batch

/-! ### What is opened -/

variable {destination}

/-- The file of a host whose path passes the check. -/
structure Opened.For (destination : Str) (o : Opened) (host : Host) : Prop where
  name : o.host = host.name
  file : o.file = resolve (filepath destination host)
  checked : destination <+: absolute (resolve (filepath destination host))

theorem of_realpath {p real : Str} (h : realpath p = some real) : real = absolute (resolve p) := by
  unfold realpath at h
  split_ifs at h
  exact (Option.some.inj h).symm

theorem of_mem_startOpened {timeout : ℤ} {attempts : List Attempt} {o : Opened}
    (h : o ∈ startOpened destination timeout attempts) :
    ∃ a ∈ attempts, Attempt.opens a ∧ o.For destination a.host := by
  induction attempts with
  | nil => exact absurd h List.not_mem_nil
  | cons a attempts ih =>
    have hlater : o ∈ startOpened destination timeout attempts →
        ∃ b ∈ a :: attempts, Attempt.opens b ∧ o.For destination b.host :=
      fun hmem => (ih hmem).imp fun b hb => ⟨List.mem_cons_of_mem a hb.1, hb.2⟩
    unfold startOpened at h
    split_ifs at h
    · exact hlater h
    cases hreal : realpath (filepath destination a.host) with
    | none =>
      rw [hreal] at h
      exact absurd h List.not_mem_nil
    | some real =>
      simp only [hreal] at h
      split_ifs at h with hopen
      · rcases List.mem_cons.mp h with rfl | h
        · exact ⟨a, List.mem_cons_self, hopen.2, rfl, rfl, of_realpath hreal ▸ hopen.1⟩
        · exact hlater h
      · exact hlater h

theorem of_finishHost {writeTime : Option ℤ} {r : Reading} {opened : List Opened} {update : Option Update}
    (h : finishHost destination writeTime r = some (opened, update)) :
    ∀ o ∈ opened, r.opens ∧ o.For destination r.host := by
  unfold finishHost at h
  cases hreal : realpath (filepath destination r.host) with
  | none =>
    rw [hreal] at h
    cases h
  | some real =>
    simp only [hreal] at h
    by_cases hcheck : destination <+: real
    · have hfor : Opened.For destination ⟨r.host.name, resolve (filepath destination r.host)⟩ r.host :=
        ⟨rfl, rfl, of_realpath hreal ▸ hcheck⟩
      rw [if_neg (not_not.mpr hcheck)] at h
      obtain ⟨host, found, now⟩ := r
      rcases found with _ | ⟨content, mtime⟩
      · cases h
        nofun
      · dsimp only at h
        split_ifs at h
        · cases content with
          | json facts =>
            cases h
            exact fun o ho => List.mem_singleton.mp ho ▸ ⟨rfl, hfor⟩
          | invalid =>
            cases h
            exact fun o ho => List.mem_singleton.mp ho ▸ ⟨rfl, hfor⟩
          | unreadable => cases h
        · cases h
          nofun
    · rw [if_pos hcheck] at h
      cases h
      nofun

theorem of_mem_finishOpened {writeTime : Option ℤ} {tries : List Update → ℕ → Bool}
    {readings : List Reading} {batch : List Update} {o : Opened}
    (h : o ∈ finishOpened destination writeTime tries readings batch) :
    ∃ r ∈ readings, r.opens ∧ o.For destination r.host := by
  induction readings generalizing batch with
  | nil => exact absurd h List.not_mem_nil
  | cons r readings ih =>
    have hlater : ∀ {batch}, o ∈ finishOpened destination writeTime tries readings batch →
        ∃ b ∈ r :: readings, b.opens ∧ o.For destination b.host :=
      fun hmem => (ih hmem).imp fun b hb => ⟨List.mem_cons_of_mem r hb.1, hb.2⟩
    unfold finishOpened at h
    cases hread : finishHost destination writeTime r with
    | none =>
      rw [hread] at h
      exact absurd h List.not_mem_nil
    | some result =>
      obtain ⟨opened, update⟩ := result
      simp only [hread] at h
      rcases List.mem_append.mp h with h | h
      · exact ⟨r, List.mem_cons_self, of_finishHost hread o h⟩
      · split_ifs at h
        · exact hlater h
        · exact absurd h List.not_mem_nil
        · exact hlater h

/-- Where no path raises, the files of the hosts that are not skipped are opened. -/
theorem mem_startOpened {timeout : ℤ} {attempts : List Attempt} {a : Attempt} (ha : a ∈ attempts)
    (hresolved : ∀ b ∈ attempts, skips timeout b = false → nul ∉ filepath destination b.host)
    (hskips : skips timeout a = false) (hopens : Attempt.opens a = true)
    (hcheck : destination <+: absolute (resolve (filepath destination a.host))) :
    ⟨a.host.name, resolve (filepath destination a.host)⟩ ∈ startOpened destination timeout attempts := by
  induction attempts with
  | nil => exact absurd ha List.not_mem_nil
  | cons b attempts ih =>
    have hrest := fun c hc => hresolved c (List.mem_cons_of_mem b hc)
    unfold startOpened
    rcases List.mem_cons.mp ha with rfl | ha
    · have hreal : realpath (filepath destination a.host) =
          some (absolute (resolve (filepath destination a.host))) :=
        if_neg (hresolved a List.mem_cons_self hskips)
      rw [hskips, hreal]
      simp [hcheck, hopens]
    · have hmem := ih ha hrest
      cases hb : skips timeout b with
      | true => exact hmem
      | false =>
        have hreal : realpath (filepath destination b.host) =
            some (absolute (resolve (filepath destination b.host))) :=
          if_neg (hresolved b List.mem_cons_self hb)
        rw [hreal]
        simp only [Bool.false_eq_true, if_false]
        split_ifs
        · exact List.mem_cons_of_mem _ hmem
        · exact hmem

/-! ### Runs -/

/-- A call of each function for the hosts of some names. The system opens a file only through what are
directories at that time. -/
structure Run (destination : Str) (names : List Str) where
  timeout : ℤ
  attempts : List Attempt
  writeTime : Option ℤ
  tries : List Update → ℕ → Bool
  readings : List Reading
  before : List Str → Prop
  after : List Str → Prop
  started : attempts.map (fun a => a.host.name) = names
  finished : readings.map (fun r => r.host.name) = names
  written : ∀ a ∈ attempts, Attempt.opens a → Opens before (filepath destination a.host)
  read : ∀ r ∈ readings, r.opens → Opens after (filepath destination r.host)

namespace Run

variable {names : List Str} (run : Run destination names)

def opened : List Opened :=
  startOpened destination run.timeout run.attempts ++
    finishOpened destination run.writeTime run.tries run.readings []

/-- All that is opened is inside the directory. -/
def Confined : Prop :=
  ∀ o ∈ run.opened, resolve destination <+: o.file ∧ o.file ≠ resolve destination

/-- No file is opened for two hosts, which are known by their names. -/
def Private : Prop := ∀ o ∈ run.opened, ∀ o' ∈ run.opened, o.file = o'.file → o.host = o'.host

end Run

variable {names : List Str}

/-- The path of a host of this name. -/
def pathOf (destination name : Str) : Str := destination ++ '/' :: name

/-- What the names have to be like. -/
structure Apart (destination : Str) (names : List Str) : Prop where
  /-- No name leads to a place beside the directory whose name continues that of the directory. -/
  not_continues : ∀ n ∈ names, NamesFile (pathOf destination n) →
    ¬ Continues destination (resolve (pathOf destination n))
  /-- Names whose paths pass the check lead to different places. -/
  distinct : ∀ n ∈ names, ∀ n' ∈ names, NamesFile (pathOf destination n) →
    NamesFile (pathOf destination n') → destination <+: absolute (resolve (pathOf destination n)) →
    resolve (pathOf destination n) = resolve (pathOf destination n') → n = n'

theorem Run.of_mem_opened (run : Run destination names) {o : Opened} (h : o ∈ run.opened) :
    o.host ∈ names ∧ NamesFile (pathOf destination o.host) ∧
      o.file = resolve (pathOf destination o.host) ∧
      destination <+: absolute (resolve (pathOf destination o.host)) := by
  rcases List.mem_append.mp h with h | h
  · obtain ⟨a, ha, hopens, hname, hfile, hchecked⟩ := of_mem_startOpened h
    rw [hname]
    refine ⟨?_, (run.written a ha hopens).namesFile, hfile, hchecked⟩
    rw [← run.started]
    exact List.mem_map_of_mem ha
  · obtain ⟨r, hr, hopens, hname, hfile, hchecked⟩ := of_mem_finishOpened h
    rw [hname]
    refine ⟨?_, (run.read r hr hopens).namesFile, hfile, hchecked⟩
    rw [← run.finished]
    exact List.mem_map_of_mem hr

theorem Apart.confined (h : Apart destination names) (habsolute : destination.head? = some '/')
    (run : Run destination names) : run.Confined := by
  intro o ho
  obtain ⟨hmem, hnames, hfile, hchecked⟩ := run.of_mem_opened ho
  rw [hfile]
  refine ⟨?_, hnames.ne_above⟩
  rcases below_or_continues habsolute isName_of_mem_resolve hchecked with hbelow | hcontinues
  · exact hbelow
  · exact absurd hcontinues (h.not_continues o.host hmem hnames)

theorem Apart.isPrivate (h : Apart destination names) (run : Run destination names) : run.Private := by
  intro o ho o' ho' heq
  obtain ⟨hmem, hnames, hfile, hchecked⟩ := run.of_mem_opened ho
  obtain ⟨hmem', hnames', hfile', -⟩ := run.of_mem_opened ho'
  rw [hfile, hfile'] at heq
  exact h.distinct o.host hmem o'.host hmem' hnames hnames' hchecked heq

variable (names) in
/-- Both of two hosts have facts and are written, and no other host. -/
def writing (n n' : Str) (hn : NamesFile (pathOf destination n)) (hn' : NamesFile (pathOf destination n'))
    (hsame : resolve (pathOf destination n) = resolve (pathOf destination n')) :
    Run destination names where
  timeout := 0
  attempts := names.map fun m => ⟨⟨m, .dict [], if m = n ∨ m = n' then some 0 else none⟩, 0,
    if m = n ∨ m = n' then .written 0 else .failed none⟩
  writeTime := none
  tries := fun _ _ => true
  readings := names.map fun m => ⟨⟨m, .dict [], none⟩, none, 0⟩
  before := fun d => d ∈ passed (pathOf destination n) ∨ d ∈ passed (pathOf destination n')
  after := fun _ => False
  started := by
    rw [List.map_map]
    exact List.map_id names
  finished := by
    rw [List.map_map]
    exact List.map_id names
  written := by
    intro a ha hopens
    obtain ⟨m, -, rfl⟩ := List.mem_map.mp ha
    have hfile : ¬ (resolve (pathOf destination n) ∈ passed (pathOf destination n) ∨
        resolve (pathOf destination n) ∈ passed (pathOf destination n')) := by
      rintro (hmem | hmem)
      · exact hn.file hmem
      · exact hn'.file (hsame ▸ hmem)
    by_cases hm : m = n ∨ m = n'
    · rcases hm with rfl | rfl
      · exact ⟨hn.readable, hn.name, fun _ hd => .inl hd, hfile⟩
      · exact ⟨hn'.readable, hn'.name, fun _ hd => .inr hd, hsame ▸ hfile⟩
    · simp [Attempt.opens, hm] at hopens
  read := by
    intro r hr hopens
    obtain ⟨m, -, rfl⟩ := List.mem_map.mp hr
    cases hopens

theorem mem_writing {n n' : Str} (hn : NamesFile (pathOf destination n))
    (hn' : NamesFile (pathOf destination n'))
    (hsame : resolve (pathOf destination n) = resolve (pathOf destination n')) {m : Str} (hm : m ∈ names)
    (hmn : m = n ∨ m = n') (hcheck : destination <+: absolute (resolve (pathOf destination m))) :
    ⟨m, resolve (pathOf destination m)⟩ ∈ (writing names n n' hn hn' hsame).opened := by
  refine List.mem_append_left _ ?_
  refine mem_startOpened (List.mem_map.mpr ⟨m, hm, rfl⟩) ?_ ?_ ?_ hcheck
  · intro b hb hskips
    obtain ⟨m', -, rfl⟩ := List.mem_map.mp hb
    by_cases hm' : m' = n ∨ m' = n'
    · rcases hm' with rfl | rfl
      · exact hn.readable
      · exact hn'.readable
    · simp [skips, hm'] at hskips
  · simp [skips, writing, hmn]
  · simp [Attempt.opens, hmn]

/-- Exactly for such names the two functions open only files inside the directory, each for one host. -/
theorem confined_private_iff (habsolute : destination.head? = some '/') :
    (∀ run : Run destination names, run.Confined ∧ run.Private) ↔ Apart destination names := by
  constructor
  · intro h
    refine ⟨?_, ?_⟩
    · intro n hn hfile hcontinues
      have hmem := mem_writing hfile hfile rfl hn (.inl rfl) hcontinues.starts
      exact hcontinues.not_below ((h _).1 _ hmem).1
    · intro n hn n' hn' hfile hfile' hcheck hsame
      have hmem := mem_writing hfile hfile' hsame hn (.inl rfl) hcheck
      have hmem' := mem_writing hfile hfile' hsame hn' (.inr rfl) (hsame ▸ hcheck)
      exact (h _).2 _ hmem _ hmem' hsame
  · exact fun h run => ⟨h.confined habsolute run, h.isPrivate run⟩

def facts : Str := "/tmp/facts".toList

theorem confined_private_iff_example : facts.head? = some '/' ∧
    ∀ run : Run facts ["web".toList, "db.example.org".toList], run.Confined ∧ run.Private := by
  have habsolute : facts.head? = some '/' := by decide
  refine ⟨habsolute, (confined_private_iff habsolute).mpr ⟨?_, ?_⟩⟩
  · rintro n hn - hcontinues
    refine hcontinues.not_below ?_
    rcases List.mem_pair.mp hn with rfl | rfl
    · decide
    · decide
  · rintro n hn n' hn' - - - hsame
    rcases List.mem_pair.mp hn with rfl | rfl <;> rcases List.mem_pair.mp hn' with rfl | rfl
    · rfl
    · exact absurd hsame (by decide)
    · exact absurd hsame (by decide)
    · rfl

/-- A name that continues the directory's own puts a file beside it, and two spellings of a name share
a file. -/
theorem sibling_and_shared_files :
    (∃ run : Run facts ["../facts2".toList], ¬ run.Confined) ∧
    ∃ run : Run facts ["web".toList, "./web".toList], ¬ run.Private := by
  constructor
  · have hfile : NamesFile (pathOf facts "../facts2".toList) :=
      ⟨by decide, by decide, fun _ hd => hd, by decide⟩
    have hin : "../facts2".toList ∈ ["../facts2".toList] := List.mem_cons_self
    have hmem := mem_writing hfile hfile rfl hin (.inl rfl) (by decide)
    exact ⟨_, fun hconfined => absurd (hconfined _ hmem).1 (by decide)⟩
  · have hfile : NamesFile (pathOf facts "web".toList) :=
      ⟨by decide, by decide, fun _ hd => hd, by decide⟩
    have hfile' : NamesFile (pathOf facts "./web".toList) :=
      ⟨by decide, by decide, fun _ hd => hd, by decide⟩
    have hin : "web".toList ∈ ["web".toList, "./web".toList] := List.mem_cons_self
    have hin' : "./web".toList ∈ ["web".toList, "./web".toList] := List.mem_cons_of_mem _ List.mem_cons_self
    have hmem := mem_writing hfile hfile' (by decide) hin (.inl rfl) (by decide)
    have hmem' := mem_writing hfile hfile' (by decide) hin' (.inr rfl) (by decide)
    exact ⟨_, fun hprivate => absurd (hprivate _ hmem _ hmem' (by decide)) (by decide)⟩

end Forail.FactPaths
