import Forail.Api.WebAuthn

/-! Runs of begin and complete. A challenge that a call has succeeded on is gone for those that
look up later, so it is used again only by calls that had looked it up before. -/

namespace Forail.WebAuthn

section Runs
variable {users : String → Option ℕ} {verify : Verify} {s s' : State} {call : Call}
  {stored : Credential} {c : Challenge}

/-- What a call has read, against what has happened since. -/
structure CallInv (s : State) (call : Call) : Prop where
  nodup : (call.challenges.map Challenge.challenge).Nodup
  before : call.before ≤ s.consumed.length
  fresh : ∀ c ∈ call.challenges, c.pk ∉ s.consumed.take call.before
  issued : ∀ c ∈ call.challenges, c.pk < s.nextPk
  row : call.stored.isSome → (s.credentials.get? call.assertion.rawId).isSome
  ended : call.phase ≠ .found → call.phase ≠ .rejected → ∃ stored c, call.stored = some stored ∧
    call.challengeObj = some c ∧ call.Honest stored c

structure Inv (s : State) : Prop where
  nodup : (s.challenges.map Challenge.challenge).Nodup
  issued : ∀ c ∈ s.challenges, c.pk < s.nextPk
  unused : ∀ c ∈ s.challenges, c.pk ∉ s.consumed
  consumed : ∀ pk ∈ s.consumed, pk < s.nextPk
  calls : ∀ i call, s.calls.get? i = some call → CallInv s call

/-- The invariant of a call sees a state only in three places, which grow. -/
theorem CallInv.mono (h : CallInv s call) (hpk : s.nextPk ≤ s'.nextPk) {l : List ℕ}
    (hconsumed : s'.consumed = s.consumed ++ l)
    (hrow : ∀ id, (s.credentials.get? id).isSome → (s'.credentials.get? id).isSome) :
    CallInv s' call where
  nodup := h.nodup
  before := by
    rw [hconsumed, List.length_append]
    exact Nat.le_add_right_of_le h.before
  fresh c hc := by
    rw [hconsumed, List.take_append_of_le_length h.before]
    exact h.fresh c hc
  issued c hc := Nat.lt_of_lt_of_le (h.issued c hc) hpk
  row hs := hrow _ (h.row hs)
  ended := h.ended

/-- A call goes on, and only it changes. -/
theorem Inv.goOn (h : Inv s) {i : ℕ} (hd : s.calls.get? i = some call) {phase : Phase}
    (hover : phase ≠ .rejected → ∃ stored c, call.stored = some stored ∧
      call.challengeObj = some c ∧ call.Honest stored c) : Inv (call.goOn s i phase) where
  nodup := h.nodup
  issued := h.issued
  unused := h.unused
  consumed := h.consumed
  calls j call' hj := by
    rcases Dict.of_get?_set hj with ⟨-, rfl⟩ | ⟨-, hj⟩
    · have hc := h.calls i call hd
      exact ⟨hc.nodup, hc.before, hc.fresh, hc.issued, hc.row, fun _ hr => hover hr⟩
    · have hc := h.calls j call' hj
      exact ⟨hc.nodup, hc.before, hc.fresh, hc.issued, hc.row, hc.ended⟩

theorem Inv.purge (h : Inv s) (p : Challenge → Bool) :
    Inv { s with challenges := s.challenges.filter p } where
  nodup := h.nodup.sublist (List.Sublist.map _ List.filter_sublist)
  issued c hc := h.issued c (List.mem_of_mem_filter hc)
  unused c hc := h.unused c (List.mem_of_mem_filter hc)
  consumed := h.consumed
  calls j call hj :=
    (h.calls j call hj).mono (Nat.le_refl _) (List.append_nil _).symm fun _ hrow => hrow

theorem Inv.create (h : Inv s) (hpk : c.pk = s.nextPk)
    (hc : ∀ c' ∈ s.challenges, c'.challenge ≠ c.challenge) :
    Inv { s with challenges := s.challenges ++ [c], nextPk := s.nextPk + 1 } where
  nodup := by
    rw [List.map_append, List.nodup_append]
    refine ⟨h.nodup, by simp, fun a ha b hb => ?_⟩
    obtain ⟨c', hc', rfl⟩ := List.mem_map.mp ha
    rw [List.map_singleton, List.mem_singleton] at hb
    exact hb ▸ hc c' hc'
  issued c' hc' := by
    rcases List.mem_append.mp hc' with hc' | hc'
    · exact Nat.lt_succ_of_lt (h.issued c' hc')
    · rw [List.mem_singleton.mp hc', hpk]
      exact Nat.lt_succ_self _
  unused c' hc' := by
    rcases List.mem_append.mp hc' with hc' | hc'
    · exact h.unused c' hc'
    · rw [List.mem_singleton.mp hc', hpk]
      exact fun hmem => Nat.lt_irrefl _ (h.consumed _ hmem)
  consumed pk hpk := Nat.lt_succ_of_lt (h.consumed pk hpk)
  calls j call hj :=
    (h.calls j call hj).mono (Nat.le_succ _) (List.append_nil _).symm fun _ hrow => hrow

theorem Inv.lookup (h : Inv s) {i : ℕ} {assertion : Assertion} {now : ℤ} {rows : List Challenge}
    (hrows : rows.Perm s.challenges) :
    Inv { s with calls := s.calls.set i ⟨assertion, now, s.credentials.get? assertion.rawId, rows,
      s.consumed.length, .found⟩ } where
  nodup := h.nodup
  issued := h.issued
  unused := h.unused
  consumed := h.consumed
  calls j call hj := by
    rcases Dict.of_get?_set hj with ⟨-, rfl⟩ | ⟨-, hj⟩
    · refine ⟨(hrows.map _).nodup_iff.mpr h.nodup, Nat.le_refl _, fun c hc hmem => ?_,
        fun c hc => h.issued c (hrows.mem_iff.mp hc), fun hs => hs, fun hf => absurd rfl hf⟩
      exact h.unused c (hrows.mem_iff.mp hc) (List.mem_of_mem_take hmem)
    · have hc := h.calls j call hj
      exact ⟨hc.nodup, hc.before, hc.fresh, hc.issued, hc.row, hc.ended⟩

theorem Inv.save (h : Inv s) (id : Bytes) (row : Credential) :
    Inv { s with credentials := s.credentials.set id row } where
  nodup := h.nodup
  issued := h.issued
  unused := h.unused
  consumed := h.consumed
  calls j call hj := by
    refine (h.calls j call hj).mono (Nat.le_refl _) (List.append_nil _).symm fun id' hrow => ?_
    rw [Dict.get?_set]
    split_ifs
    · rfl
    · exact hrow

theorem Inv.delete (h : Inv s) (hpk : c.pk < s.nextPk) :
    Inv { s with
      challenges := s.challenges.filter fun c' => c'.pk ≠ c.pk
      consumed := s.consumed ++ [c.pk] } where
  nodup := (h.purge _).nodup
  issued := (h.purge _).issued
  unused c' hc' hmem := by
    obtain ⟨hc', hne⟩ := List.mem_filter.mp hc'
    rcases List.mem_append.mp hmem with hmem | hmem
    · exact h.unused c' hc' hmem
    · exact of_decide_eq_true hne (List.mem_singleton.mp hmem)
  consumed pk hmem := by
    rcases List.mem_append.mp hmem with hmem | hmem
    · exact h.consumed pk hmem
    · rw [List.mem_singleton.mp hmem]
      exact hpk
  calls j call hj := (h.calls j call hj).mono (Nat.le_refl _) rfl fun _ hrow => hrow

/-- What a step does: it leaves the calls alone, enters one, or lets one go on. -/
inductive StepCases (verify : Verify) (s : State) : Event → State → Prop
  | purge (cutoff : ℤ) : StepCases verify s (.purge cutoff)
      { s with challenges := s.challenges.filter fun c => cutoff ≤ c.expiresAt }
  | create {username : String} {challenge : Bytes} {now createdAt : ℤ} (c : Challenge)
      (hpk : c.pk = s.nextPk) (hc : ∀ c' ∈ s.challenges, c'.challenge ≠ c.challenge) :
      StepCases verify s (.create username challenge now createdAt)
        { s with challenges := s.challenges ++ [c], nextPk := s.nextPk + 1 }
  | lookup {i : ℕ} {assertion : Assertion} {now : ℤ} {rows : List Challenge}
      (hi : s.calls.get? i = none) (hrows : rows.Perm s.challenges) :
      StepCases verify s (.lookup i assertion now rows)
        { s with calls := s.calls.set i ⟨assertion, now, s.credentials.get? assertion.rawId, rows,
          s.consumed.length, .found⟩ }
  | verify {i : ℕ} {call : Call} (hi : s.calls.get? i = some call) (hp : call.phase = .found) :
      StepCases verify s (.verify i) (call.goOn s i (call.verification verify))
  | save {i n : ℕ} {call : Call} (row : Credential) (hi : s.calls.get? i = some call)
      (hp : call.phase = .verified n) :
      StepCases verify s (.save i) { call.goOn s i .counted with
        credentials := s.credentials.set call.assertion.rawId row }
  | delete {i : ℕ} {call : Call} {c : Challenge} (hi : s.calls.get? i = some call)
      (hc : call.challengeObj = some c) (hp : call.phase = .counted) :
      StepCases verify s (.delete i) { call.goOn s i .succeeded with
        challenges := s.challenges.filter fun c' => c'.pk ≠ c.pk
        consumed := s.consumed ++ [c.pk] }

theorem exec_cases {e : Event} (hs : exec users verify s e = some s') : StepCases verify s e s' := by
  cases e with
  | purge cutoff => exact Option.some.inj hs ▸ .purge cutoff
  | create username challenge now createdAt =>
    obtain ⟨hc, hs⟩ := Option.ite_none_right_eq_some.mp hs
    exact Option.some.inj hs ▸ .create _ rfl hc
  | lookup i assertion now rows =>
    obtain ⟨hc, hs⟩ := Option.ite_none_right_eq_some.mp hs
    exact Option.some.inj hs ▸ .lookup hc.1 hc.2.1
  | verify i =>
    obtain ⟨call, hi, hs⟩ := Option.bind_eq_some_iff.mp hs
    obtain ⟨hp, hs⟩ := Option.ite_none_right_eq_some.mp hs
    exact Option.some.inj hs ▸ .verify hi hp
  | save i =>
    obtain ⟨call, hi, hs⟩ := Option.bind_eq_some_iff.mp hs
    cases hp : call.phase with
    | verified n =>
      rw [hp] at hs
      obtain ⟨row, hr, hs⟩ := Option.bind_eq_some_iff.mp hs
      exact Option.some.inj hs ▸ .save _ hi hp
    | found | counted | succeeded | rejected =>
      rw [hp] at hs
      cases hs
  | delete i =>
    obtain ⟨call, hi, hs⟩ := Option.bind_eq_some_iff.mp hs
    obtain ⟨c, hc, hs⟩ := Option.bind_eq_some_iff.mp hs
    obtain ⟨hp, hs⟩ := Option.ite_none_right_eq_some.mp hs
    exact Option.some.inj hs ▸ .delete hi hc hp

theorem Inv.step (hv : verify.Exact) (h : Inv s) {e : Event} (hs : exec users verify s e = some s') :
    Inv s' := by
  cases exec_cases hs with
  | purge cutoff => exact h.purge _
  | create c hpk hc => exact h.create hpk hc
  | lookup hi hrows => exact h.lookup hrows
  | verify hi hp =>
    refine h.goOn hi fun hr => ?_
    obtain hrej | ⟨stored, c, hs, hc, hh, -⟩ := verification_cases hv _
    · exact absurd hrej hr
    · exact ⟨stored, c, hs, hc, hh⟩
  | save row hi hp =>
    have hover := (h.calls _ _ hi).ended
    rw [hp] at hover
    exact (h.goOn hi fun _ => hover nofun nofun).save _ row
  | delete hi hc hp =>
    have hover := (h.calls _ _ hi).ended
    rw [hp] at hover
    obtain ⟨stored, hs⟩ := stored_of_challengeObj hc
    have hmem := ((challengeObj_iff hs).mp hc).1
    exact (h.goOn hi fun _ => hover nofun nofun).delete ((h.calls _ _ hi).issued _ hmem)

theorem inv (hv : verify.Exact) (h : (webAuthn users verify).Reachable s) : Inv s := by
  refine h.invariant ?_ fun s e s' _ hi hs => hi.step hv hs
  rintro _ ⟨credentials, rfl⟩
  constructor <;> intros <;> simp_all

/-- Where one call goes on it is owed that it is not rejected if it is honest. -/
theorem exactlyOnce_goOn_iff (h : ExactlyOnce s) {i : ℕ} {phase : Phase}
    (hover : phase = .succeeded → ∃ stored c, call.stored = some stored ∧
      call.challengeObj = some c ∧ call.Honest stored c) :
    ExactlyOnce (call.goOn s i phase) ↔ ∀ stored ∈ call.stored, ∀ c ∈ call.challenges,
      call.Honest stored c → phase ≠ .rejected := by
  constructor
  · intro h' stored hs c hc hh
    have hget : (call.goOn s i phase).calls.get? i = some { call with phase := phase } := by
      rw [Call.goOn, Dict.get?_set, if_pos rfl]
    exact h'.available i _ hget stored hs c hc hh
  · intro havailable
    refine ⟨fun j call' hj hp => ?_, h.once, fun j call' hj stored hs c hc hh => ?_⟩
    · rcases Dict.of_get?_set hj with ⟨-, rfl⟩ | ⟨-, hj⟩
      · obtain ⟨stored, c, hs, hc, hh⟩ := hover hp
        exact ⟨stored, hs, c, ((challengeObj_iff hs).mp hc).1, hh.1, hc⟩
      · exact h.sound j call' hj hp
    · rcases Dict.of_get?_set hj with ⟨-, rfl⟩ | ⟨-, hj⟩
      · exact havailable stored hs c hc hh
      · exact h.available j call' hj stored hs c hc hh

/-- A success does not repeat one exactly if none was on its challenge since the lookup. -/
theorem nodup_consumed_iff (h : s.consumed.Nodup) (hc : CallInv s call) (hmem : c ∈ call.challenges) :
    (s.consumed ++ [c.pk]).Nodup ↔ c.pk ∉ s.consumed.drop call.before := by
  have hsplit : c.pk ∈ s.consumed ↔ c.pk ∈ s.consumed.drop call.before := by
    constructor
    · intro hin
      rw [← List.take_append_drop call.before s.consumed] at hin
      exact (List.mem_append.mp hin).resolve_left (hc.fresh c hmem)
    · exact List.mem_of_mem_drop
  rw [← hsplit, ← List.concat_eq_append, List.nodup_concat]
  exact and_iff_left h

theorem exactlyOnce_step_iff (hv : verify.Exact) (hi : Inv s) (h : ExactlyOnce s) {e : Event}
    (hs : exec users verify s e = some s') : ExactlyOnce s' ↔ Uncontended s e := by
  cases exec_cases hs with
  | purge | create => exact iff_of_true ⟨h.sound, h.once, h.available⟩ trivial
  | lookup hn hrows =>
    refine iff_of_true ⟨fun j call hj hp => ?_, h.once, fun j call hj stored hs c hc hh => ?_⟩ trivial
    · rcases Dict.of_get?_set hj with ⟨-, rfl⟩ | ⟨-, hj⟩
      · cases hp
      · exact h.sound j call hj hp
    · rcases Dict.of_get?_set hj with ⟨-, rfl⟩ | ⟨-, hj⟩
      · nofun
      · exact h.available j call hj stored hs c hc hh
  | @verify i call hd hp =>
    have hcall := hi.calls i call hd
    rw [exactlyOnce_goOn_iff h fun hp' => ?_]
    · constructor
      · intro hne call' hd' stored hs c hc hh
        obtain rfl := Option.some.inj (hd.symm.trans hd')
        exact (verification_iff hv hcall.nodup hs hc hh).mp (hne stored hs c hc hh)
      · intro hu stored hs c hc hh
        exact (verification_iff hv hcall.nodup hs hc hh).mpr (hu call hd stored hs c hc hh)
    · obtain hrej | ⟨stored, c, -, -, -, heq⟩ := verification_cases hv call
      · rw [hrej] at hp'
        cases hp'
      · rw [heq] at hp'
        cases hp'
  | @save i n call row hd hp =>
    have h' : ExactlyOnce (call.goOn s i .counted) :=
      (exactlyOnce_goOn_iff h (by nofun)).mpr (by nofun)
    exact iff_of_true ⟨h'.sound, h'.once, h'.available⟩ trivial
  | @delete i call c hd hc hp =>
    have hcall := hi.calls i call hd
    have hover := hcall.ended
    rw [hp] at hover
    have h' : ExactlyOnce (call.goOn s i .succeeded) :=
      (exactlyOnce_goOn_iff h fun _ => hover nofun nofun).mpr (by nofun)
    obtain ⟨stored, hs⟩ := stored_of_challengeObj hc
    have honce := nodup_consumed_iff h.once hcall ((challengeObj_iff hs).mp hc).1
    constructor
    · intro h'' call' hd' c' hc'
      obtain rfl := Option.some.inj (hd.symm.trans hd')
      obtain rfl := Option.some.inj (hc.symm.trans hc')
      exact honce.mp h''.once
    · intro hu
      exact ⟨h'.sound, honce.mpr (hu call hd c hc), h'.available⟩

/-- A call that has neither succeeded nor been rejected can go on. -/
theorem exists_exec (hi : Inv s) {i : ℕ} (hd : s.calls.get? i = some call)
    (hs : call.phase ≠ .succeeded) (hr : call.phase ≠ .rejected) :
    ∃ e ∈ [Event.verify i, .save i, .delete i], ∃ s', exec users verify s e = some s' := by
  have hcall := hi.calls i call hd
  have hover (hf : call.phase ≠ .found) := hcall.ended hf hr
  cases hp : call.phase with
  | found => exact ⟨.verify i, by simp, _, by rw [exec, hd]; exact if_pos hp⟩
  | verified n =>
    obtain ⟨stored, c, hstored, -⟩ := hover (by rw [hp]; exact fun h => by cases h)
    obtain ⟨row, hrow⟩ := Option.isSome_iff_exists.mp (hcall.row (by rw [hstored]; rfl))
    exact ⟨.save i, by simp, _, by simp [exec, hd, hp, hrow]; rfl⟩
  | counted =>
    obtain ⟨stored, c, -, hc, -⟩ := hover (by rw [hp]; exact fun h => by cases h)
    exact ⟨.delete i, by simp, _, by simp [exec, hd, hp, hc]; rfl⟩
  | succeeded => exact absurd hp hs
  | rejected => exact absurd hp hr

/-- In every run whose steps are uncontended assertions are accepted exactly and once, and the
first step that is contended ends this. -/
theorem exactly_once (hv : verify.Exact)
    (h : ((webAuthn users verify).restrict Uncontended).Reachable s) :
    ExactlyOnce s ∧
    (∀ e s', exec users verify s e = some s' → (ExactlyOnce s' ↔ Uncontended s e)) ∧
    ∀ i call, s.calls.get? i = some call → call.phase ≠ .succeeded → call.phase ≠ .rejected →
      ∃ e ∈ [Event.verify i, .save i, .delete i], ∃ s', exec users verify s e = some s' := by
  have hexact : ExactlyOnce s := by
    refine h.invariant ?_ fun s e s' hr hs hstep => ?_
    · rintro _ ⟨credentials, rfl⟩
      exact ⟨fun _ _ hd => (by cases hd), List.nodup_nil, fun _ _ hd => (by cases hd)⟩
    · exact (exactlyOnce_step_iff hv (inv hv hr.of_restrict) hs hstep.1).mpr hstep.2
  have hi := inv hv h.of_restrict
  exact ⟨hexact, fun e s' hs => exactlyOnce_step_iff hv hi hexact hs,
    fun i call hd hs hr => exists_exec hi hd hs hr⟩

end Runs

/-! ### One user with one credential -/

/-- The verification of the package, which also refuses a counter that does not grow. -/
def strictVerify : Verify := fun a challenge publicKey n =>
  if a.key = publicKey ∧ a.challenge = challenge ∧ isReplay n a.signCount = false then
    some a.signCount
  else none

theorem strictVerify_exact : strictVerify.Exact where
  sound h := by
    obtain ⟨hc, h⟩ := Option.ite_none_right_eq_some.mp h
    exact ⟨hc.1, hc.2.1, (Option.some.inj h).symm⟩
  complete hk hc hr := if_pos ⟨hk, hc, hr⟩

def oneUser : String → Option ℕ := fun name => if name = "ann" then some 7 else none

def oneCredential : State := ⟨Dict.empty.set [1] ⟨7, [9], 4⟩, [], 0, .empty, []⟩

/-- An assertion over the challenge with these bytes. -/
def assertionOver (challenge : Bytes) : Assertion := ⟨[1], [9], challenge, 5⟩

/-- Between begin and complete someone else begins: the assertions over the older challenge and
over one for no user are rejected. Two calls with one challenge both succeed. -/
theorem rejected_and_repeated :
    (∃ s, (webAuthn oneUser strictVerify).Reachable s ∧ ¬ExactlyOnce s ∧
      (s.calls.get? 0).map Call.phase = some .rejected ∧
      (s.calls.get? 1).map Call.phase = some .rejected) ∧
    ∃ s, (webAuthn oneUser strictVerify).Reachable s ∧ ¬ExactlyOnce s ∧ s.consumed = [0, 0] := by
  constructor
  · let rows : List Challenge := [⟨2, some 7, [12], 8, 308⟩, ⟨1, none, [11], 4, 304⟩,
      ⟨0, some 7, [10], 0, 300⟩]
    obtain ⟨s, hrun, hs⟩ := System.exists_of_runAll (f := exec oneUser strictVerify)
      (s := oneCredential)
      (l := [.create "ann" [10] 0 0, .create "" [11] 4 4, .create "ann" [12] 8 8,
        .lookup 0 (assertionOver [10]) 20 rows, .lookup 1 (assertionOver [11]) 20 rows,
        .verify 0, .verify 1])
      (P := fun s => (s.calls.get? 0).map Call.phase = some .rejected ∧
        (s.calls.get? 1).map Call.phase = some .rejected ∧
        ∀ call ∈ s.calls.get? 0, ∃ stored ∈ call.stored, ∃ c ∈ call.challenges, call.Honest stored c)
      (by decide)
    refine ⟨s, .runAll (fun _ _ _ _ h => h) (.init ⟨_, rfl⟩) hrun, fun h => ?_, hs.1, hs.2.1⟩
    obtain ⟨call, hcall, hp⟩ := Option.map_eq_some_iff.mp hs.1
    obtain ⟨stored, hstored, c, hc, hh⟩ := hs.2.2 call hcall
    exact h.available 0 call hcall stored hstored c hc hh hp
  · let rows : List Challenge := [⟨0, some 7, [10], 0, 300⟩]
    obtain ⟨s, hrun, hs⟩ := System.exists_of_runAll (f := exec oneUser strictVerify)
      (s := oneCredential)
      (l := [.create "ann" [10] 0 0, .lookup 0 (assertionOver [10]) 20 rows,
        .lookup 1 (assertionOver [10]) 20 rows, .verify 0, .verify 1, .save 0, .delete 0, .save 1,
        .delete 1])
      (P := fun s => s.consumed = [0, 0]) (by decide)
    refine ⟨s, .runAll (fun _ _ _ _ h => h) (.init ⟨_, rfl⟩) hrun, fun h => ?_, hs⟩
    have honce := h.once
    rw [hs] at honce
    exact absurd honce (by decide)

/-- The user alone: the assertion succeeds, and the challenge is gone. -/
theorem exactly_once_alone : ∃ s : State, s.consumed = [0] ∧ s.challenges = [] ∧ ExactlyOnce s := by
  let rows : List Challenge := [⟨0, some 7, [10], 0, 300⟩]
  obtain ⟨s, hrun, hs⟩ := System.exists_of_runAll
    (f := System.guarded (exec oneUser strictVerify) Uncontended) (s := oneCredential)
    (l := [.create "ann" [10] 0 0, .lookup 0 (assertionOver [10]) 20 rows, .verify 0, .save 0,
      .delete 0])
    (P := fun s => s.consumed = [0] ∧ s.challenges = []) (by decide)
  have hreach : ((webAuthn oneUser strictVerify).restrict Uncontended).Reachable s :=
    .runAll_guarded (fun _ _ _ h => h) (.init ⟨_, rfl⟩) hrun
  exact ⟨s, hs.1, hs.2, (exactly_once strictVerify_exact hreach).1⟩

end Forail.WebAuthn
