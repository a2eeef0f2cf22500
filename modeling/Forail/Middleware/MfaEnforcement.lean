import Mathlib.Data.List.Basic

/-! The second factor of a session. The middleware flags a session whose user has to present
one, and the view of the assertion clears the flag; but only the middleware writes the key
that lets a user pass, so that a user of whom the factor is required is flagged again. -/

namespace Forail.Mfa

inductive WebauthnRequired
  | none
  | admins
  | all
  deriving DecidableEq

/-- An organization with the users who may change it and the members. -/
structure Organization where
  adminRole : List ℕ
  memberRole : List ℕ
  webauthnRequired : WebauthnRequired

structure User where
  id : ℕ
  isSuperuser : Bool

/-- The three keys of the session; a flag that is absent is false. -/
structure Session where
  mfaPending : Bool
  mfaPendingUser : Option ℕ
  mfaSatisfiedFor : Option ℕ
  deriving DecidableEq

/-- The keys after a login. -/
def Session.fresh : Session := ⟨false, none, none⟩

def isWebauthnRequired (setting : WebauthnRequired) (isAdmin : Bool) : Bool :=
  if setting = .all then true
  else if setting = .admins ∧ isAdmin then true
  else false

def safePaths : List String :=
  ["/api/v2/webauthn/", "/api/login/", "/api/logout/", "/sso/", "/api/v2/me/", "/api/v2/ping/",
    "/api/v2/config/"]

def isSafe (path : String) : Bool :=
  safePaths.any fun safe => safe.toList.isPrefixOf path.toList

def User.isAdmin (orgs : List Organization) (user : User) : Bool :=
  user.isSuperuser || orgs.any fun org => user.id ∈ org.adminRole

def orgSettings (orgs : List Organization) (user : User) : List WebauthnRequired :=
  (orgs.filter fun org => user.id ∈ org.memberRole).map Organization.webauthnRequired

/-- Some organization of the user requires the second factor of this user. -/
def required (orgs : List Organization) (user : User) : Bool :=
  (orgSettings orgs user).any fun setting => isWebauthnRequired setting (user.isAdmin orgs)

/-- `process_request`; a user that is not authenticated is none. -/
def processRequest (orgs : List Organization) (user : Option User) (path : String)
    (session : Session) : Session :=
  match user with
  | none => session
  | some user =>
    if isSafe path then session
    else if session.mfaPending then session
    else if session.mfaSatisfiedFor = some user.id then session
    else if !required orgs user then { session with mfaSatisfiedFor := some user.id }
    else { session with mfaPending := true, mfaPendingUser := some user.id }

/-- The end of the view, for the owner of the credential. The login of another user flushes the
session, which then is none of this user's. -/
def authenticateComplete (user : User) (owner : ℕ) (session : Session) : Option Session :=
  if session.mfaPending ∧ session.mfaPendingUser = some owner then
    some { session with mfaPending := false, mfaPendingUser := none }
  else if owner = user.id then some session
  else none

def completePath : String := "/api/v2/webauthn/authenticate/complete/"

/-- A request to another view, and an assertion that a credential's owner completes or that
fails. -/
inductive Event
  | request (path : String)
  | completed (owner : ℕ)
  | failed
  deriving DecidableEq

/-- A request that the middleware does not skip. -/
def Event.isUnsafe : Event → Bool
  | .request path => !isSafe path
  | .completed _ | .failed => false

section Runs
variable (orgs : List Organization) (user : User)

def exec (session : Session) : Event → Option Session
  | .request path => some (processRequest orgs (some user) path session)
  | .completed owner =>
    authenticateComplete user owner (processRequest orgs (some user) completePath session)
  | .failed => some (processRequest orgs (some user) completePath session)

/-- The session after some requests, none once it has ended. -/
def run (session : Session) : List Event → Option Session
  | [] => some session
  | e :: es => (exec orgs user session e).bind fun session => run session es

/-- After an assertion that succeeded no request sets the flag. -/
def NotFlaggedAgain (es : List Event) : Prop :=
  ∀ before e, before ++ [e] <+: es → .completed user.id ∈ before →
    ∀ s s', run orgs user .fresh before = some s → exec orgs user s e = some s' →
      s'.mfaPending = true → s.mfaPending = true

/-- Before an assertion of a user who has to present one, requests find the flag set. -/
def Enforced (es : List Event) : Prop :=
  required orgs user = true → ∀ before path, before ++ [.request path] <+: es →
    .completed user.id ∉ before → isSafe path = false →
    ∀ s s', run orgs user .fresh before = some s →
      processRequest orgs (some user) path s = s' →
      s'.mfaPending = true ∧ s'.mfaPendingUser = some user.id

/-- A user who need not present one is never flagged. -/
def NeverFlagged (es : List Event) : Prop :=
  required orgs user = false → ∀ before, before <+: es →
    ∀ s, run orgs user .fresh before = some s → s.mfaPending = false

/-- In the session of the user an assertion is followed by a request outside the safe paths. -/
def UnsafeAfterAssertion (es : List Event) : Prop :=
  ∃ before path, before ++ [.request path] <+: es ∧ .completed user.id ∈ before ∧
    (∀ owner, .completed owner ∈ before → owner = user.id) ∧ isSafe path = false

variable {orgs user}
variable {s s' : Session} {e : Event} {es es' : List Event}

theorem isSafe_completePath : isSafe completePath = true := by decide

theorem processRequest_safe {path : String} (h : isSafe path = true) :
    processRequest orgs (some user) path s = s := if_pos h

theorem exec_completed (owner : ℕ) :
    exec orgs user s (.completed owner) = authenticateComplete user owner s := by
  rw [exec, processRequest_safe isSafe_completePath]

theorem exec_failed : exec orgs user s .failed = some s := by
  rw [exec, processRequest_safe isSafe_completePath]

theorem run_append : run orgs user s (es ++ es') =
    (run orgs user s es).bind fun s => run orgs user s es' := by
  induction es generalizing s with
  | nil => rfl
  | cons e es ih =>
    cases he : exec orgs user s e with
    | none => simp [run, he]
    | some t => simp [run, he, ih]

theorem run_concat (hs : run orgs user s es = some s') :
    run orgs user s (es ++ [e]) = exec orgs user s' e := by
  rw [run_append, hs]
  simp [run]

/-- The keys of a session are about its user. -/
structure Inv (orgs : List Organization) (user : User) (s : Session) : Prop where
  pending : s.mfaPending = true → required orgs user = true ∧ s.mfaPendingUser = some user.id
  satisfied : s.mfaSatisfiedFor = some user.id → required orgs user = false

theorem Inv.fresh : Inv orgs user .fresh := ⟨nofun, nofun⟩

theorem Inv.processRequest (h : Inv orgs user s) (path : String) :
    Inv orgs user (processRequest orgs (some user) path s) := by
  unfold Mfa.processRequest
  dsimp only
  split_ifs with hsafe hpending hsatisfied hreq
  · exact h
  · exact h
  · exact h
  · exact ⟨h.pending, fun _ => by simpa using hreq⟩
  · exact ⟨fun _ => ⟨by simpa using hreq, rfl⟩, h.satisfied⟩

/-- What a completed assertion leaves: the session of its owner without the flag. -/
theorem authenticateComplete_eq_some {owner : ℕ} (h : Inv orgs user s)
    (hs : authenticateComplete user owner s = some s') :
    owner = user.id ∧ s'.mfaPending = false ∧ s'.mfaSatisfiedFor = s.mfaSatisfiedFor := by
  unfold authenticateComplete at hs
  split_ifs at hs with hpending howner
  · obtain rfl := Option.some.inj hs
    exact ⟨Option.some.inj (hpending.2.symm.trans (h.pending hpending.1).2), rfl, rfl⟩
  · obtain rfl := Option.some.inj hs
    refine ⟨howner, Bool.eq_false_iff.mpr fun hp => hpending ⟨hp, ?_⟩, rfl⟩
    rw [(h.pending hp).2, howner]

theorem Inv.exec (h : Inv orgs user s) (hs : Mfa.exec orgs user s e = some s') : Inv orgs user s' := by
  cases e with
  | request path => exact Option.some.inj hs ▸ h.processRequest path
  | completed owner =>
    rw [exec_completed] at hs
    obtain ⟨-, hp, hsat⟩ := authenticateComplete_eq_some h hs
    refine ⟨fun hp' => ?_, fun hsat' => h.satisfied (hsat ▸ hsat')⟩
    rw [hp] at hp'
    cases hp'
  | failed => exact Option.some.inj (exec_failed.symm.trans hs) ▸ h

theorem Inv.run (h : Inv orgs user s) (hs : Mfa.run orgs user s es = some s') : Inv orgs user s' := by
  induction es generalizing s with
  | nil => exact Option.some.inj hs ▸ h
  | cons e es ih =>
    obtain ⟨t, ht, hs⟩ := Option.bind_eq_some_iff.mp hs
    exact ih (h.exec ht) hs

/-- In the session of a user only this user has completed assertions. -/
theorem owner_of_run (h : Inv orgs user s) (hs : run orgs user s es = some s') {owner : ℕ}
    (hmem : .completed owner ∈ es) : owner = user.id := by
  induction es generalizing s with
  | nil => cases hmem
  | cons e es ih =>
    obtain ⟨t, ht, hs⟩ := Option.bind_eq_some_iff.mp hs
    rcases List.mem_cons.mp hmem with rfl | hmem
    · rw [exec_completed] at ht
      exact (authenticateComplete_eq_some h ht).1
    · exact ih (h.exec ht) hs hmem

/-- The run of a session in which only its user completes assertions does not end. -/
theorem exists_run (h : Inv orgs user s)
    (hall : ∀ owner, .completed owner ∈ es → owner = user.id) : ∃ s', run orgs user s es = some s' := by
  induction es generalizing s with
  | nil => exact ⟨s, rfl⟩
  | cons e es ih =>
    have ht : ∃ t, exec orgs user s e = some t := by
      cases e with
      | request path => exact ⟨_, rfl⟩
      | completed owner =>
        rw [exec_completed, hall owner List.mem_cons_self]
        unfold authenticateComplete
        rw [if_pos rfl]
        split_ifs
        · exact ⟨_, rfl⟩
        · exact ⟨_, rfl⟩
      | failed => exact ⟨s, exec_failed⟩
    obtain ⟨t, ht⟩ := ht
    obtain ⟨s', hs'⟩ := ih (h.exec ht) fun owner hmem => hall owner (List.mem_cons_of_mem e hmem)
    exact ⟨s', by rw [run, ht]; exact hs'⟩

/-- A request outside the safe paths flags a session that no user has satisfied. -/
theorem processRequest_of_not_safe (h : Inv orgs user s) {path : String} (hpath : isSafe path = false)
    (hreq : required orgs user = true) :
    (processRequest orgs (some user) path s).mfaPending = true ∧
      (processRequest orgs (some user) path s).mfaPendingUser = some user.id := by
  have hsat : s.mfaSatisfiedFor ≠ some user.id := by
    intro hsat
    rw [h.satisfied hsat] at hreq
    cases hreq
  unfold processRequest
  dsimp only
  rw [if_neg (Bool.eq_false_iff.mp hpath), if_neg hsat, hreq]
  by_cases hpending : s.mfaPending = true
  · rw [if_pos hpending]
    exact ⟨hpending, (h.pending hpending).2⟩
  · rw [if_neg hpending, if_neg (by decide)]
    exact ⟨rfl, rfl⟩

/-- Without a request outside the safe paths the flag stays down. -/
theorem pending_false_of_run (h : Inv orgs user s) (hp : s.mfaPending = false)
    (hall : ∀ path, .request path ∈ es → isSafe path = true) (hs : run orgs user s es = some s') :
    s'.mfaPending = false := by
  induction es generalizing s with
  | nil => exact Option.some.inj hs ▸ hp
  | cons e es ih =>
    obtain ⟨t, ht, hs⟩ := Option.bind_eq_some_iff.mp hs
    refine ih (h.exec ht) ?_ (fun path hmem => hall path (List.mem_cons_of_mem e hmem)) hs
    cases e with
    | request path =>
      rw [exec, processRequest_safe (hall path List.mem_cons_self)] at ht
      exact Option.some.inj ht ▸ hp
    | completed owner =>
      rw [exec_completed] at ht
      exact (authenticateComplete_eq_some h ht).2.1
    | failed => exact Option.some.inj (exec_failed.symm.trans ht) ▸ hp

theorem enforced : Enforced orgs user es := by
  intro hreq before path _ _ hpath s s' hs hs'
  exact hs' ▸ processRequest_of_not_safe (Inv.fresh.run hs) hpath hreq

theorem never_flagged : NeverFlagged orgs user es := by
  intro hreq before _ s hs
  refine Bool.eq_false_iff.mpr fun hp => ?_
  rw [((Inv.fresh.run hs).pending hp).1] at hreq
  cases hreq

/-- A step that sets the flag is a request outside the safe paths. -/
theorem exec_flags (h : Inv orgs user s) (hs : exec orgs user s e = some s')
    (hp : s.mfaPending = false) (hp' : s'.mfaPending = true) :
    ∃ path, e = .request path ∧ isSafe path = false := by
  have hkeep (heq : some s = some s') : False := by
    rw [Option.some.inj heq, hp'] at hp
    cases hp
  cases e with
  | request path =>
    refine ⟨path, rfl, Bool.eq_false_iff.mpr fun hsafe => ?_⟩
    rw [exec, processRequest_safe hsafe] at hs
    exact (hkeep hs).elim
  | completed owner =>
    rw [exec_completed] at hs
    rw [(authenticateComplete_eq_some h hs).2.1] at hp'
    cases hp'
  | failed => exact (hkeep (exec_failed.symm.trans hs)).elim

/-- The first request outside the safe paths after an assertion. -/
theorem exists_first_unsafe {path : String} (hmem : .completed user.id ∈ es)
    (hpath : isSafe path = false) : ∃ before quiet path',
      before ++ [.completed user.id] ++ quiet ++ [.request path'] <+: es ++ [.request path] ∧
      (∀ p, .request p ∈ quiet → isSafe p = true) ∧ isSafe path' = false := by
  obtain ⟨before, after, rfl⟩ := List.append_of_mem hmem
  have hsome : ((after ++ [Event.request path]).find? Event.isUnsafe).isSome := by
    rw [List.find?_isSome]
    exact ⟨.request path, by simp, by simp [Event.isUnsafe, hpath]⟩
  obtain ⟨e, he⟩ := Option.isSome_iff_exists.mp hsome
  obtain ⟨hu, quiet, rest, heq, hquiet⟩ := List.find?_eq_some_iff_append.mp he
  cases e with
  | completed | failed => cases hu
  | request path' =>
    refine ⟨before, quiet, path', ⟨rest, ?_⟩, fun p hp => ?_, by simpa [Event.isUnsafe] using hu⟩
    · simp [heq]
    · simpa [Event.isUnsafe] using hquiet _ hp

theorem notFlaggedAgain_iff : NotFlaggedAgain orgs user es ↔
    required orgs user = false ∨ ¬UnsafeAfterAssertion user es := by
  constructor
  · intro h
    refine or_iff_not_imp_left.mpr fun hreq => ?_
    rintro ⟨before, path, hpre, hmem, howner, hpath⟩
    have hreq : required orgs user = true := by simpa using hreq
    obtain ⟨first, quiet, path', hpre', hquiet, hpath'⟩ := exists_first_unsafe hmem hpath
    have hbefore : first ++ [.completed user.id] ++ quiet <+: before := by
      rcases List.prefix_concat_iff.mp hpre' with heq | hle
      · exact ⟨[], by simpa using (List.append_inj_left' heq rfl)⟩
      · exact (List.prefix_append _ _).trans hle
    obtain ⟨s, hs⟩ : ∃ s, run orgs user .fresh (first ++ [.completed user.id] ++ quiet) = some s :=
      exists_run Inv.fresh fun owner hmem => howner owner (hbefore.subset hmem)
    -- the assertion has taken the flag down, and nothing set it since
    have hp : s.mfaPending = false := by
      rw [List.append_assoc, run_append] at hs
      obtain ⟨t, ht, hs⟩ := Option.bind_eq_some_iff.mp hs
      obtain ⟨t', ht', hs⟩ := Option.bind_eq_some_iff.mp hs
      have hinv := Inv.fresh.run ht
      rw [exec_completed] at ht'
      exact pending_false_of_run (hinv.exec ((exec_completed user.id).trans ht'))
        (authenticateComplete_eq_some hinv ht').2.1 hquiet hs
    have hflag := (processRequest_of_not_safe (Inv.fresh.run hs) hpath' hreq).1
    have hset := h _ _ (hpre'.trans hpre) (by simp) s _ hs rfl hflag
    rw [hp] at hset
    cases hset
  · rintro h before e hpre hmem s s' hs hs' hp'
    have hinv := Inv.fresh.run hs
    by_contra hp
    obtain ⟨path, rfl, hpath⟩ := exec_flags hinv hs' (by simpa using hp) hp'
    rcases h with hreq | hno
    · rw [((hinv.exec hs').pending hp').1] at hreq
      cases hreq
    · exact hno ⟨before, path, hpre, hmem, fun owner => owner_of_run Inv.fresh hs, hpath⟩

end Runs

/-! ### A user who presents the second factor and goes on -/

def strictOrganization : Organization := ⟨[], [7], .all⟩

end Forail.Mfa
