import Forail.Base.Percent
import Forail.Base.Value

/-! The fact cache of a job: `start_fact_cache` writes a file for each host whose facts have not expired,
and `finish_fact_cache` reads the files back. A host whose file is missing loses its facts, also where
no file was written. -/

namespace Forail.FactCache

/-- What `json.load` makes of a file, if the file can be opened. -/
inductive Content
  | json (facts : Value) | invalid | unreadable

structure File where
  content : Content
  mtime : ℤ

/-- A disk, whose files are found under their real paths. -/
structure Disk where
  realpath : Str → Str
  file : Str → Option File

namespace Disk

def get (disk : Disk) (path : Str) : Option File := disk.file (disk.realpath path)

def put (disk : Disk) (path : Str) (file : File) : Disk :=
  { disk with file := Function.update disk.file (disk.realpath path) (some file) }

@[simp] theorem realpath_put (disk : Disk) (path : Str) (file : File) :
    (disk.put path file).realpath = disk.realpath := rfl

theorem get_put (disk : Disk) (path path' : Str) (file : File) :
    (disk.put path file).get path' =
      if disk.realpath path = disk.realpath path' then some file else disk.get path' := by
  simp only [get, put, Function.update_apply, eq_comm]

end Disk

structure Host where
  name : Str
  facts : Value
  modified : Option ℤ

def filepath (destination : Str) (host : Host) : Str := destination ++ '/' :: host.name

/-- The real path starts with the text of the directory. -/
def Inside (disk : Disk) (destination : Str) (host : Host) : Prop :=
  destination <+: disk.realpath (filepath destination host)

instance (disk : Disk) (destination : Str) (host : Host) : Decidable (Inside disk destination host) :=
  inferInstanceAs (Decidable (destination <+: _))

/-! ### Before the run -/

/-- How the file of a host is written. A write that fails may leave a file. -/
inductive Write
  | written (mtime : ℤ) | failed (left : Option File)

/-- A host, the time at which the loop comes to it, and what the disk does with its file. -/
structure Attempt where
  host : Host
  now : ℤ
  write : Write

/-- There are no facts, or they are expired. Times are in microseconds, the timeout in seconds. -/
def skips (timeout : ℤ) (a : Attempt) : Bool :=
  match a.host.modified with
  | none => true
  | some modified => timeout ≠ 0 ∧ modified < a.now - 1000000 * timeout

structure Started where
  disk : Disk
  lastWritten : Option Str

/-- The body of the loop of `start_fact_cache`. -/
def startHost (destination : Str) (timeout : ℤ) (st : Started) (a : Attempt) : Started :=
  if skips timeout a ∨ ¬ Inside st.disk destination a.host then st
  else
    match a.write with
    | .written mtime =>
      ⟨st.disk.put (filepath destination a.host) ⟨.json a.host.facts, mtime⟩,
        some (filepath destination a.host)⟩
    | .failed none => st
    | .failed (some file) => { st with disk := st.disk.put (filepath destination a.host) file }

def startHosts (destination : Str) (timeout : ℤ) (disk : Disk) (attempts : List Attempt) : Started :=
  attempts.foldl (startHost destination timeout) ⟨disk, none⟩

/-- `start_fact_cache`: the disk that it leaves, and the time of the last file that it wrote. -/
def startFactCache (setting : ℤ) (timeout : Option ℤ) (destination : Str) (disk : Disk)
    (attempts : List Attempt) : Disk × Option ℤ :=
  let st := startHosts destination (timeout.getD setting) disk attempts
  (st.disk, st.lastWritten.bind fun path => (st.disk.get path).map File.mtime)

/-! ### After the run -/

/-- New facts for a host. -/
structure Update where
  host : Host
  facts : Value
  modified : ℤ

/-- There is no time of a write, or the file is newer. A time of zero is none. -/
def changedSince (writeTime : Option ℤ) (mtime : ℤ) : Bool :=
  match writeTime with
  | none => true
  | some t => t = 0 ∨ t < mtime

/-- The body of the loop of `finish_fact_cache`, none where it raises. -/
def finishHost (destination : Str) (writeTime : Option ℤ) (clock : Host → ℤ) (disk : Disk)
    (host : Host) : Option (Option Update) :=
  if ¬ Inside disk destination host then some none
  else
    match disk.get (filepath destination host) with
    | none => some (some ⟨host, .dict [], clock host⟩)
    | some file =>
      if changedSince writeTime file.mtime then
        match file.content with
        | .json facts => some (some ⟨host, facts, clock host⟩)
        | .invalid => some none
        | .unreadable => none
      else some none

/-- `update_hosts`: whether one of five tries stores the batch. -/
def updateHosts (tries : List Update → ℕ → Bool) (batch : List Update) : Bool :=
  batch.isEmpty || (List.range 5).any (tries batch)

/-- The loop of `finish_fact_cache`: the updates that are stored when it ends or raises. -/
def finishLoop (finish : Host → Option (Option Update)) (tries : List Update → ℕ → Bool) :
    List Host → List Update → List Update → List Update
  | [], batch, stored => if updateHosts tries batch then stored ++ batch else stored
  | host :: hosts, batch, stored =>
    match finish host with
    | none => stored
    | some update =>
      let batch := batch ++ update.toList
      if 100 < batch.length then
        if updateHosts tries batch then finishLoop finish tries hosts [] (stored ++ batch) else stored
      else finishLoop finish tries hosts batch stored

def finishFactCache (destination : Str) (writeTime : Option ℤ) (clock : Host → ℤ)
    (tries : List Update → ℕ → Bool) (disk : Disk) (hosts : List Host) : List Update :=
  finishLoop (finishHost destination writeTime clock disk) tries hosts [] []

theorem of_mem_finishLoop {finish : Host → Option (Option Update)} {tries : List Update → ℕ → Bool}
    {u : Update} {hosts : List Host} {batch stored : List Update}
    (h : u ∈ finishLoop finish tries hosts batch stored) :
    u ∈ stored ∨ u ∈ batch ∨ ∃ host ∈ hosts, finish host = some (some u) := by
  induction hosts generalizing batch stored with
  | nil =>
    rw [finishLoop] at h
    split_ifs at h
    · exact (List.mem_append.mp h).imp_right .inl
    · exact .inl h
  | cons host hosts ih =>
    rw [finishLoop] at h
    cases hread : finish host with
    | none =>
      rw [hread] at h
      exact .inl h
    | some update =>
      simp only [hread] at h
      have hbatch : u ∈ batch ++ update.toList →
          u ∈ batch ∨ ∃ host' ∈ host :: hosts, finish host' = some (some u) := by
        intro hu
        refine (List.mem_append.mp hu).imp_right fun hu => ⟨host, List.mem_cons_self, ?_⟩
        rw [hread, Option.mem_toList.mp hu]
      have hlater : (∃ host ∈ hosts, finish host = some (some u)) →
          ∃ host' ∈ host :: hosts, finish host' = some (some u) :=
        fun ⟨host', hmem, hu⟩ => ⟨host', List.mem_cons_of_mem _ hmem, hu⟩
      split_ifs at h
      · rcases ih h with hu | hu | hu
        · exact (List.mem_append.mp hu).imp_right hbatch
        · exact absurd hu List.not_mem_nil
        · exact .inr (.inr (hlater hu))
      · exact .inl h
      · rcases ih h with hu | hu | hu
        · exact .inl hu
        · exact .inr (hbatch hu)
        · exact .inr (.inr (hlater hu))

/-- Where nothing raises and the database accepts each batch, all updates are stored. -/
theorem mem_finishLoop {finish : Host → Option (Option Update)} {u : Update} {hosts : List Host}
    (batch stored : List Update) (hraise : ∀ host ∈ hosts, finish host ≠ none)
    (h : u ∈ stored ∨ u ∈ batch ∨ ∃ host ∈ hosts, finish host = some (some u)) :
    u ∈ finishLoop finish (fun _ _ => true) hosts batch stored := by
  have haccepts : ∀ batch, updateHosts (fun _ _ => true) batch = true := fun batch =>
    Bool.or_eq_true_iff.mpr (.inr (List.any_eq_true.mpr ⟨0, List.mem_range.mpr (by omega), rfl⟩))
  induction hosts generalizing batch stored with
  | nil =>
    rw [finishLoop, if_pos (haccepts batch)]
    rcases h with hu | hu | ⟨host, hmem, -⟩
    · exact List.mem_append_left _ hu
    · exact List.mem_append_right _ hu
    · exact absurd hmem List.not_mem_nil
  | cons host hosts ih =>
    obtain ⟨update, hread⟩ := Option.ne_none_iff_exists'.mp (hraise host List.mem_cons_self)
    have hrest := fun host' hmem => hraise host' (List.mem_cons_of_mem host hmem)
    have hu : u ∈ stored ∨ u ∈ batch ++ update.toList ∨
        ∃ host ∈ hosts, finish host = some (some u) := by
      rcases h with hu | hu | ⟨host', hmem, hu⟩
      · exact .inl hu
      · exact .inr (.inl (List.mem_append_left _ hu))
      · rcases List.mem_cons.mp hmem with rfl | hmem
        · rw [hread] at hu
          refine .inr (.inl (List.mem_append_right _ ?_))
          exact Option.mem_toList.mpr (Option.some.inj hu)
        · exact .inr (.inr ⟨host', hmem, hu⟩)
    simp only [finishLoop, hread, haccepts, if_true]
    split_ifs
    · refine ih _ _ hrest ?_
      rcases hu with hu | hu | hu
      · exact .inl (List.mem_append_left _ hu)
      · exact .inl (List.mem_append_right _ hu)
      · exact .inr (.inr hu)
    · exact ih _ _ hrest hu

end Forail.FactCache
