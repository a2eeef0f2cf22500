import Forail.Tasks.FactCache

/-! When the fact cache changes only what the run changed: each host of the list has its file written,
and no file is newer than the one that was written last. -/

namespace Forail.FactCache

section Files
variable (destination : Str) (timeout : ℤ) (disk : Disk)

/-- The file of a host is written. -/
def Attempt.Written (a : Attempt) : Prop :=
  Inside disk destination a.host ∧ skips timeout a = false ∧ ∃ mtime, a.write = .written mtime

/-- The last host with a file. -/
def writer (attempts : List Attempt) (file : Str) : Option Attempt :=
  attempts.reverse.find? fun a => disk.realpath (filepath destination a.host) = file

/-- The disk has the facts of the last host with each file. -/
structure Wrote (attempts : List Attempt) (st : Started) : Prop where
  realpath : st.disk.realpath = disk.realpath
  lastWritten : st.lastWritten = attempts.getLast?.map fun a => filepath destination a.host
  file : ∀ a ∈ attempts, ∃ w ∈ attempts, ∃ t,
    writer destination disk attempts (disk.realpath (filepath destination a.host)) = some w ∧
    w.write = .written t ∧ st.disk.get (filepath destination a.host) = some ⟨.json w.host.facts, t⟩

variable {destination timeout disk}

theorem startHosts_spec {attempts : List Attempt}
    (h : ∀ a ∈ attempts, a.Written destination timeout disk) :
    Wrote destination disk attempts (startHosts destination timeout disk attempts) := by
  induction attempts using List.reverseRecOn with
  | nil => exact ⟨rfl, rfl, fun a ha => absurd ha List.not_mem_nil⟩
  | append_singleton attempts a ih =>
    obtain ⟨hrealpath, -, hfile⟩ := ih fun b hb => h b (List.mem_append_left _ hb)
    obtain ⟨hinside, hskips, t, hwrite⟩ := h a (List.mem_append_right _ List.mem_cons_self)
    have hinside' : Inside (startHosts destination timeout disk attempts).disk destination a.host := by
      rw [Inside, hrealpath]
      exact hinside
    have hstep : startHosts destination timeout disk (attempts ++ [a]) =
        ⟨(startHosts destination timeout disk attempts).disk.put (filepath destination a.host)
          ⟨.json a.host.facts, t⟩, some (filepath destination a.host)⟩ := by
      rw [startHosts, List.foldl_append, List.foldl_cons, List.foldl_nil, ← startHosts, startHost,
        if_neg (by simp [hskips, hinside']), hwrite]
    rw [hstep]
    refine ⟨hrealpath, by simp, fun b hb => ?_⟩
    rw [Disk.get_put, hrealpath]
    by_cases hsame : disk.realpath (filepath destination a.host) =
        disk.realpath (filepath destination b.host)
    · refine ⟨a, List.mem_append_right _ List.mem_cons_self, t, ?_, hwrite, if_pos hsame⟩
      rw [writer, List.reverse_append, List.reverse_singleton, List.singleton_append,
        List.find?_cons_of_pos (by simpa using hsame)]
    · have hb : b ∈ attempts := by
        refine (List.mem_append.mp hb).resolve_right fun hb => hsame ?_
        rw [List.mem_singleton.mp hb]
      obtain ⟨w, hw, t', hwriter, hwrite', hget⟩ := hfile b hb
      refine ⟨w, List.mem_append_left _ hw, t', ?_, hwrite', by rw [if_neg hsame, hget]⟩
      rw [writer, List.reverse_append, List.reverse_singleton, List.singleton_append,
        List.find?_cons_of_neg (by simpa using hsame)]
      exact hwriter

end Files

section Faithful
variable (setting : ℤ) (timeout : Option ℤ) (destination : Str) (disk : Disk) (attempts : List Attempt)

/-- The facts that are stored when the job is over, for a disk that the run leaves. -/
def stored (clock : Host → ℤ) (tries : List Update → ℕ → Bool) (after : Disk) : List Update :=
  finishFactCache destination (startFactCache setting timeout destination disk attempts).2 clock tries
    after (attempts.map Attempt.host)

/-- Only what the run changed is changed. -/
structure OnlyRunChanges : Prop where
  unchanged : ∀ clock tries, ∀ u ∈ stored setting timeout destination disk attempts clock tries
      (startFactCache setting timeout destination disk attempts).1,
    u.facts = u.host.facts ∧ some u.modified = u.host.modified
  changed : ∀ clock tries after, ∀ u ∈ stored setting timeout destination disk attempts clock tries after,
    (after.get (filepath destination u.host) = none ∧ u.facts = .dict [] ∧
      ∀ a ∈ attempts, a.host = u.host → a.Written destination (timeout.getD setting) disk) ∨
    ∃ file, after.get (filepath destination u.host) = some file ∧ file.content = .json u.facts ∧
      (startFactCache setting timeout destination disk attempts).1.get (filepath destination u.host) ≠
        some file

/-- Every file is written, and none is newer than the last one. -/
structure AllWritten : Prop where
  written : ∀ a ∈ attempts, a.Written destination (timeout.getD setting) disk
  times : ∀ last ∈ attempts.getLast?, ∀ t, last.write = .written t → t ≠ 0 ∧
    ∀ file w, writer destination disk attempts file = some w → ∀ t', w.write = .written t' → t' ≤ t

variable {setting timeout destination disk attempts}

theorem startFactCache_fst : (startFactCache setting timeout destination disk attempts).1 =
    (startHosts destination (timeout.getD setting) disk attempts).disk := rfl

theorem writer_getLast {last : Attempt} (hlast : last ∈ attempts.getLast?) :
    writer destination disk attempts (disk.realpath (filepath destination last.host)) = some last := by
  obtain ⟨init, rfl⟩ := List.getLast?_eq_some_iff.mp hlast
  rw [writer, List.reverse_append, List.reverse_singleton, List.singleton_append,
    List.find?_cons_of_pos (by simp)]

theorem of_writer {file : Str} {w : Attempt} (h : writer destination disk attempts file = some w) :
    w ∈ attempts ∧ disk.realpath (filepath destination w.host) = file := by
  have hfile := List.find?_some h
  exact ⟨List.mem_reverse.mp (List.mem_of_find?_eq_some h), of_decide_eq_true hfile⟩

section Written
variable (h : ∀ a ∈ attempts, a.Written destination (timeout.getD setting) disk)
include h

/-- Each host has its file, and the file of the last host has the time that is returned. -/
theorem realpath_started :
    (startFactCache setting timeout destination disk attempts).1.realpath = disk.realpath :=
  (startHosts_spec h).realpath

theorem started_file {file : Str} {w : Attempt} (hw : writer destination disk attempts file = some w) :
    ∃ t, w.write = .written t ∧
      ∀ a ∈ attempts, disk.realpath (filepath destination a.host) = file →
        (startFactCache setting timeout destination disk attempts).1.get (filepath destination a.host) =
          some ⟨.json w.host.facts, t⟩ := by
  obtain ⟨hmem, -⟩ := of_writer hw
  obtain ⟨-, -, t, ht⟩ := h w hmem
  refine ⟨t, ht, fun a ha hfile => ?_⟩
  obtain ⟨w', -, t', hwriter, ht', hget⟩ := (startHosts_spec h).file a ha
  rw [hfile, hw] at hwriter
  obtain rfl := Option.some.inj hwriter
  rw [ht] at ht'
  obtain rfl := Write.written.inj ht'
  exact hget

theorem started_time {last : Attempt} (hlast : last ∈ attempts.getLast?) {t : ℤ}
    (ht : last.write = .written t) :
    (startFactCache setting timeout destination disk attempts).2 = some t := by
  obtain ⟨t', ht', hget⟩ := started_file h (writer_getLast hlast)
  rw [ht] at ht'
  obtain rfl := Write.written.inj ht'
  have hfile := hget last (List.mem_of_mem_getLast? hlast) rfl
  have hpath : (startHosts destination (timeout.getD setting) disk attempts).lastWritten =
      some (filepath destination last.host) := by
    rw [(startHosts_spec h).lastWritten, Option.mem_def.mp hlast, Option.map_some]
  rw [startFactCache] at hfile ⊢
  simp only [hpath, Option.bind_some, hfile, Option.map_some]

end Written

/-- A run that leaves no file clears each host whose path is then inside of the directory. -/
theorem written_of_onlyRunChanges (h : OnlyRunChanges setting timeout destination disk attempts)
    {a : Attempt} (ha : a ∈ attempts) : a.Written destination (timeout.getD setting) disk := by
  have hread : ∀ host : Host, finishHost destination
      (startFactCache setting timeout destination disk attempts).2 (fun _ => 0)
      ⟨fun _ => destination, fun _ => none⟩ host = some (some ⟨host, .dict [], 0⟩) := fun host =>
    if_neg (not_not.mpr (List.prefix_refl destination))
  have hu := mem_finishLoop [] []
    (fun host (_ : host ∈ attempts.map Attempt.host) => by rw [hread host]; exact Option.some_ne_none _)
    (.inr (.inr ⟨a.host, List.mem_map_of_mem ha, hread a.host⟩))
  rcases h.changed _ _ _ _ hu with ⟨-, -, hwritten⟩ | ⟨file, hfile, -⟩
  · exact hwritten a ha rfl
  · exact absurd hfile (Option.some_ne_none file).symm

/-- A run that changes nothing replaces the facts of a host whose file is newer than the last one. -/
theorem times_of_onlyRunChanges (h : OnlyRunChanges setting timeout destination disk attempts)
    {last : Attempt} (hlast : last ∈ attempts.getLast?) {t : ℤ} (ht : last.write = .written t)
    {file : Str} {w : Attempt} (hw : writer destination disk attempts file = some w) {t' : ℤ}
    (ht' : w.write = .written t') : t ≠ 0 ∧ t' ≤ t := by
  have hwritten := fun a ha => written_of_onlyRunChanges h (a := a) ha
  obtain ⟨hmem, hpath⟩ := of_writer hw
  obtain ⟨t'', htw, hget⟩ := started_file hwritten hw
  rw [ht'] at htw
  obtain rfl := Write.written.inj htw
  by_contra hnot
  have hread : finishHost destination (some t) (fun _ => 0)
      (startFactCache setting timeout destination disk attempts).1 w.host =
        some (some ⟨w.host, w.host.facts, 0⟩) := by
    have hinside : Inside (startFactCache setting timeout destination disk attempts).1 destination
        w.host := by
      rw [Inside, realpath_started hwritten]
      exact (hwritten w hmem).1
    have hchanged : changedSince (some t) t' = true := by
      simp only [changedSince, decide_eq_true_iff]
      omega
    rw [finishHost, if_neg (not_not.mpr hinside), hget w hmem hpath]
    simp only [hchanged, if_true]
  have hraise : ∀ host ∈ attempts.map Attempt.host, finishHost destination (some t) (fun _ => 0)
      (startFactCache setting timeout destination disk attempts).1 host ≠ none := by
    intro host hhost
    obtain ⟨a, ha, rfl⟩ := List.mem_map.mp hhost
    obtain ⟨v, -, s, hv, -, hfile⟩ := (startHosts_spec hwritten).file a ha
    rw [← startFactCache_fst] at hfile
    rw [finishHost, hfile]
    dsimp only
    split_ifs <;> exact Option.some_ne_none _
  have hu := mem_finishLoop [] [] hraise
    (.inr (.inr ⟨w.host, List.mem_map_of_mem hmem, hread⟩))
  rw [← started_time hwritten hlast ht] at hu
  rcases h.changed _ _ _ _ hu with ⟨hnone, -⟩ | ⟨f, hf, -, hne⟩
  · rw [hget w hmem hpath] at hnone
    exact Option.some_ne_none _ hnone
  · exact hne hf

/-- What is stored for a host of the list, when every file was written. -/
theorem of_mem_stored (h : AllWritten setting timeout destination disk attempts)
    {clock : Host → ℤ} {tries : List Update → ℕ → Bool} {after : Disk} {u : Update}
    (hu : u ∈ stored setting timeout destination disk attempts clock tries after) :
    ∃ a ∈ attempts, a.host = u.host ∧
      ((after.get (filepath destination u.host) = none ∧ u.facts = .dict []) ∨
        ∃ file, after.get (filepath destination u.host) = some file ∧ file.content = .json u.facts ∧
          ∀ w t, writer destination disk attempts
              (disk.realpath (filepath destination u.host)) = some w →
            w.write = .written t → t < file.mtime) := by
  obtain ⟨host, hhost, hread⟩ :=
    ((of_mem_finishLoop hu).resolve_left List.not_mem_nil).resolve_left List.not_mem_nil
  obtain ⟨a, ha, rfl⟩ := List.mem_map.mp hhost
  obtain ⟨last, hlast⟩ : ∃ last, last ∈ attempts.getLast? :=
    ⟨_, List.getLast?_eq_getLast_of_ne_nil (List.ne_nil_of_mem ha)⟩
  obtain ⟨-, -, t, ht⟩ := h.written last (List.mem_of_mem_getLast? hlast)
  obtain ⟨hzero, htimes⟩ := h.times last hlast t ht
  rw [started_time h.written hlast ht, finishHost] at hread
  split_ifs at hread
  · cases hget : after.get (filepath destination a.host) with
    | none =>
      rw [hget] at hread
      obtain rfl := Option.some.inj (Option.some.inj hread)
      exact ⟨a, ha, rfl, .inl ⟨hget, rfl⟩⟩
    | some file =>
      simp only [hget] at hread
      split_ifs at hread with hchanged
      · cases hcontent : file.content with
        | json facts =>
          rw [hcontent] at hread
          obtain rfl := Option.some.inj (Option.some.inj hread)
          refine ⟨a, ha, rfl, .inr ⟨file, hget, hcontent, fun w t' hw ht' => ?_⟩⟩
          have hle := htimes _ w hw t' ht'
          simp only [changedSince, decide_eq_true_iff] at hchanged
          omega
        | invalid => simp [hcontent] at hread
        | unreadable => simp [hcontent] at hread
      · exact absurd hread (by simp)
  · exact absurd hread (by simp)

/-- Only what the run changed is changed, if and only if a file was written for each host and none is
newer than the last one. -/
theorem onlyRunChanges_iff :
    OnlyRunChanges setting timeout destination disk attempts ↔
      AllWritten setting timeout destination disk attempts := by
  constructor
  · intro h
    refine ⟨fun a ha => written_of_onlyRunChanges h ha, fun last hlast t ht => ⟨?_, ?_⟩⟩
    · exact (times_of_onlyRunChanges h hlast ht (writer_getLast hlast) ht).1
    · exact fun file w hw t' ht' => (times_of_onlyRunChanges h hlast ht hw ht').2
  · intro h
    -- The file that was left for a host has the time of its writer.
    have hleft : ∀ u : Update, (∃ a ∈ attempts, a.host = u.host) → ∃ w t,
        writer destination disk attempts (disk.realpath (filepath destination u.host)) = some w ∧
        w.write = .written t ∧ (startFactCache setting timeout destination disk attempts).1.get
          (filepath destination u.host) = some ⟨.json w.host.facts, t⟩ := by
      rintro u ⟨a, ha, hau⟩
      obtain ⟨w, -, t, hw, ht, hget⟩ := (startHosts_spec h.written).file a ha
      rw [hau] at hw hget
      exact ⟨w, t, hw, ht, hget⟩
    refine ⟨fun clock tries u hu => ?_, fun clock tries after u hu => ?_⟩
    · obtain ⟨a, ha, hau, hread⟩ := of_mem_stored h hu
      obtain ⟨w, t, hw, ht, hget⟩ := hleft u ⟨a, ha, hau⟩
      rcases hread with ⟨hnone, -⟩ | ⟨file, hfile, -, hnewer⟩
      · rw [hget] at hnone
        exact absurd hnone (Option.some_ne_none _)
      · rw [hget] at hfile
        obtain rfl := Option.some.inj hfile
        exact absurd (hnewer w t hw ht) (Int.lt_irrefl t)
    · obtain ⟨a, ha, hau, hread⟩ := of_mem_stored h hu
      rcases hread with ⟨hnone, hfacts⟩ | ⟨file, hfile, hcontent, hnewer⟩
      · exact .inl ⟨hnone, hfacts, fun b hb _ => h.written b hb⟩
      · obtain ⟨w, t, hw, ht, hget⟩ := hleft u ⟨a, ha, hau⟩
        refine .inr ⟨file, hfile, hcontent, fun hsame => ?_⟩
        rw [hget] at hsame
        obtain rfl := Option.some.inj hsame
        exact Int.lt_irrefl t (hnewer w t hw ht)

/-- The facts of a host expired before the run, which changed nothing, and are cleared after it. -/
theorem expired_facts_cleared :
    stored 0 (some 2) ['/', 'd'] ⟨id, fun _ => none⟩
      [⟨⟨['h'], .dict [("a", .int 1)], some 0⟩, 5000000, .written 5⟩] (fun _ => 9000000)
      (fun _ _ => true) (startFactCache 0 (some 2) ['/', 'd'] ⟨id, fun _ => none⟩
        [⟨⟨['h'], .dict [("a", .int 1)], some 0⟩, 5000000, .written 5⟩]).1 =
      [⟨⟨['h'], .dict [("a", .int 1)], some 0⟩, .dict [], 9000000⟩] ∧
    ¬ OnlyRunChanges 0 (some 2) ['/', 'd'] ⟨id, fun _ => none⟩
      [⟨⟨['h'], .dict [("a", .int 1)], some 0⟩, 5000000, .written 5⟩] := by
  have hrun : stored 0 (some 2) ['/', 'd'] ⟨id, fun _ => none⟩
      [⟨⟨['h'], .dict [("a", .int 1)], some 0⟩, 5000000, .written 5⟩] (fun _ => 9000000)
      (fun _ _ => true) (startFactCache 0 (some 2) ['/', 'd'] ⟨id, fun _ => none⟩
        [⟨⟨['h'], .dict [("a", .int 1)], some 0⟩, 5000000, .written 5⟩]).1 =
      [⟨⟨['h'], .dict [("a", .int 1)], some 0⟩, .dict [], 9000000⟩] := rfl
  refine ⟨hrun, fun h => ?_⟩
  have hu := h.unchanged (fun _ => 9000000) (fun _ _ => true) _ (hrun ▸ List.mem_cons_self)
  exact absurd hu.2 (by decide)

end Faithful

end Forail.FactCache
