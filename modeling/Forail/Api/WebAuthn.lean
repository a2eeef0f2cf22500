import Forail.Base.Dict
import Forail.Base.Runs
import Mathlib.Data.Int.Notation
import Mathlib.Data.List.Nodup

/-! Assertions of a second factor. Anyone may begin and thereby issue a challenge; to complete,
the newest challenge of the credential's user is taken for the one that was signed, and it is
deleted only after the assertion was verified and the counter saved. -/

namespace Forail.WebAuthn

abbrev Bytes := List UInt8

structure Credential where
  user : ℕ
  publicKey : Bytes
  signCount : ℕ

/-- A row of `WebAuthnAuthenticationChallenge`; instants are in seconds. -/
structure Challenge where
  pk : ℕ
  user : Option ℕ
  challenge : Bytes
  createdAt : ℤ
  expiresAt : ℤ
  deriving DecidableEq

/-- What a browser presents: the credential, the key that signed, the challenge in the signed
data, and the counter. -/
structure Assertion where
  rawId : Bytes
  key : Bytes
  challenge : Bytes
  signCount : ℕ

def challengeTtlSeconds : ℤ := 300

def isReplay (storedCount presentedCount : ℕ) : Bool :=
  if storedCount = 0 ∧ presentedCount = 0 then false
  else presentedCount ≤ storedCount

/-- `verify_authentication_response` with the assertion, the expected challenge, the public key
and the stored counter; the new counter if it accepts. -/
abbrev Verify := Assertion → Bytes → Bytes → ℕ → Option ℕ

/-- It accepts what was made with this key over this challenge and is no replay. -/
structure Verify.Exact (verify : Verify) : Prop where
  sound : ∀ {a challenge publicKey n m}, verify a challenge publicKey n = some m →
    a.key = publicKey ∧ a.challenge = challenge ∧ m = a.signCount
  complete : ∀ {a challenge publicKey n}, a.key = publicKey → a.challenge = challenge →
    isReplay n a.signCount = false → verify a challenge publicKey n = some a.signCount

/-- `filter(column__in=values)`: no list has the null of a row. -/
def columnIn (values : List (Option ℕ)) (column : Option ℕ) : Bool :=
  column.isSome && values.contains column

inductive Phase
  | found
  | verified (newSignCount : ℕ)
  | counted
  | succeeded
  | rejected
  deriving DecidableEq

/-- A call of complete with what it has read: the credential and the challenges at that time,
newest first. `before` counts the calls that had succeeded. -/
structure Call where
  assertion : Assertion
  now : ℤ
  stored : Option Credential
  challenges : List Challenge
  before : ℕ
  phase : Phase

/-- The query of `challenge_obj`. -/
def Call.challengeObj (call : Call) : Option Challenge := do
  let stored ← call.stored
  let fresh := call.challenges.filter fun c => call.now ≤ c.expiresAt
  (fresh.filter fun c => columnIn [some stored.user, none] c.user).head?

/-- `consumed` lists the challenges on which calls have succeeded. -/
structure State where
  credentials : Dict Bytes Credential
  challenges : List Challenge
  nextPk : ℕ
  calls : Dict ℕ Call
  consumed : List ℕ

/-- A call of begin purges and creates; the rows that `order_by('-created_at')` returns may
have challenges of one instant in any order. -/
inductive Event
  | purge (cutoff : ℤ)
  | create (username : String) (challenge : Bytes) (now createdAt : ℤ)
  | lookup (i : ℕ) (assertion : Assertion) (now : ℤ) (rows : List Challenge)
  | verify (i : ℕ)
  | save (i : ℕ)
  | delete (i : ℕ)

section Runs
variable (users : String → Option ℕ) (verify : Verify)

/-- The user for whom begin issues; none for a name that is empty or unknown. -/
def beginUser (username : String) : Option ℕ := if username = "" then none else users username

/-- Verification and the test for a replay, on what was looked up. -/
def Call.verification (call : Call) : Phase :=
  match call.stored, call.challengeObj with
  | some stored, some challenge =>
    match verify call.assertion challenge.challenge stored.publicKey stored.signCount with
    | some newSignCount =>
      if isReplay stored.signCount newSignCount then .rejected else .verified newSignCount
    | none => .rejected
  | _, _ => .rejected

def Call.goOn (call : Call) (s : State) (i : ℕ) (phase : Phase) : State :=
  { s with calls := s.calls.set i { call with phase := phase } }

def exec (s : State) : Event → Option State
  | .purge cutoff => some { s with challenges := s.challenges.filter fun c => cutoff ≤ c.expiresAt }
  | .create username challenge now createdAt =>
    if ∀ c ∈ s.challenges, c.challenge ≠ challenge then
      let c := ⟨s.nextPk, beginUser users username, challenge, createdAt, now + challengeTtlSeconds⟩
      some { s with challenges := s.challenges ++ [c], nextPk := s.nextPk + 1 }
    else none
  | .lookup i assertion now rows =>
    if s.calls.get? i = none ∧ rows.Perm s.challenges ∧
        rows.Pairwise fun c c' => c'.createdAt ≤ c.createdAt then
      let stored := s.credentials.get? assertion.rawId
      let call := ⟨assertion, now, stored, rows, s.consumed.length, .found⟩
      some { s with calls := s.calls.set i call }
    else none
  | .verify i => do
    let call ← s.calls.get? i
    if call.phase = .found then some (call.goOn s i (call.verification verify)) else none
  | .save i => do
    let call ← s.calls.get? i
    let .verified newSignCount := call.phase | none
    let row ← s.credentials.get? call.assertion.rawId
    let credentials := s.credentials.set call.assertion.rawId { row with signCount := newSignCount }
    some { call.goOn s i .counted with credentials := credentials }
  | .delete i => do
    let call ← s.calls.get? i
    let challenge ← call.challengeObj
    if call.phase = .counted then
      some
        { call.goOn s i .succeeded with
          challenges := s.challenges.filter fun c => c.pk ≠ challenge.pk
          consumed := s.consumed ++ [challenge.pk] }
    else none

/-- All interleavings of calls, on any credentials. -/
def webAuthn : System State Event where
  init s := ∃ credentials, s = ⟨credentials, [], 0, .empty, []⟩
  step s e s' := exec users verify s e = some s'

/-- The assertion was made with the stored key over this challenge, which is unexpired and was
issued for the credential's user or for no user. -/
def Call.Over (call : Call) (stored : Credential) (c : Challenge) : Prop :=
  call.now ≤ c.expiresAt ∧ (c.user = some stored.user ∨ c.user = none) ∧
    call.assertion.key = stored.publicKey ∧ call.assertion.challenge = c.challenge

/-- The same with a counter that passes. -/
def Call.Honest (call : Call) (stored : Credential) (c : Challenge) : Prop :=
  call.Over stored c ∧ isReplay stored.signCount call.assertion.signCount = false

/-- Success is only for assertions over such a challenge, once for each, and an assertion over
one is not rejected if its counter passes. -/
structure ExactlyOnce (s : State) : Prop where
  sound : ∀ i call, s.calls.get? i = some call → call.phase = .succeeded →
    ∃ stored ∈ call.stored, ∃ c ∈ call.challenges, call.Over stored c ∧ call.challengeObj = some c
  once : s.consumed.Nodup
  available : ∀ i call, s.calls.get? i = some call → ∀ stored ∈ call.stored,
    ∀ c ∈ call.challenges, call.Honest stored c → call.phase ≠ .rejected

/-- The challenges that precede this one, newest first. -/
def Call.newer (call : Call) (c : Challenge) : List Challenge :=
  call.challenges.takeWhile fun c' => c' ≠ c

/-- The challenge was issued for the credential's user, and no other unexpired one of this user
precedes it. -/
def Call.First (call : Call) (stored : Credential) (c : Challenge) : Prop :=
  c.user = some stored.user ∧
    ∀ c' ∈ call.newer c, call.now ≤ c'.expiresAt → c'.user ≠ some stored.user

/-- An honest assertion that is verified was made over the first challenge of the user, and
since the lookup of a call that ends now no other call has succeeded on its challenge. -/
def Uncontended (s : State) : Event → Prop
  | .verify i => ∀ call ∈ s.calls.get? i, ∀ stored ∈ call.stored, ∀ c ∈ call.challenges,
    call.Honest stored c → call.First stored c
  | .delete i => ∀ call ∈ s.calls.get? i, ∀ c ∈ call.challengeObj,
    c.pk ∉ s.consumed.drop call.before
  | _ => True

instance (call : Call) (stored : Credential) (c : Challenge) : Decidable (call.Honest stored c) := by
  unfold Call.Honest Call.Over
  infer_instance

instance (call : Call) (stored : Credential) (c : Challenge) : Decidable (call.First stored c) := by
  unfold Call.First
  infer_instance

instance (s : State) (e : Event) : Decidable (Uncontended s e) := by
  cases e <;> unfold Uncontended <;> infer_instance

variable {verify} {call : Call} {stored : Credential} {c : Challenge}

/-- The first element with a property, by what precedes it. -/
theorem find?_eq_some_iff_takeWhile {α : Type*} [DecidableEq α] {p : α → Bool} {l : List α} {a : α} :
    l.find? p = some a ↔ a ∈ l ∧ p a = true ∧ ∀ b ∈ l.takeWhile (fun b => b ≠ a), p b = false := by
  induction l with
  | nil => simp
  | cons b l ih =>
    rw [List.find?_cons, List.takeWhile_cons]
    by_cases hba : b = a
    · subst hba
      cases hp : p b with
      | true => simp
      | false =>
        simp only [List.mem_cons, true_or, Bool.false_eq_true, false_and, and_false, iff_false]
        exact fun h => by simpa [hp] using List.find?_some h
    · have hab : a ≠ b := fun h => hba h.symm
      cases hp : p b with
      | true => simp [hba, hp]
      | false => simp [hba, hp, ih, hab]

theorem columnIn_iff {user : ℕ} {column : Option ℕ} :
    columnIn [some user, none] column = true ↔ column = some user := by
  cases column with
  | none => simp [columnIn]
  | some u => simp [columnIn]

/-- The challenge that a call takes. -/
theorem challengeObj_iff (hs : call.stored = some stored) : call.challengeObj = some c ↔
    c ∈ call.challenges ∧ call.now ≤ c.expiresAt ∧ call.First stored c := by
  unfold Call.challengeObj
  rw [hs, Option.bind_eq_bind, Option.bind_some]
  dsimp only
  rw [List.filter_filter, List.head?_filter, find?_eq_some_iff_takeWhile, Bool.and_eq_true,
    columnIn_iff, decide_eq_true_iff]
  have hnewer (c' : Challenge) :
      (columnIn [some stored.user, none] c'.user && decide (call.now ≤ c'.expiresAt)) = false ↔
        (call.now ≤ c'.expiresAt → c'.user ≠ some stored.user) := by
    rw [Bool.and_eq_false_iff, ← Bool.not_eq_true, columnIn_iff, decide_eq_false_iff_not]
    tauto
  simp only [hnewer, Call.First, Call.newer]
  tauto

theorem stored_of_challengeObj (h : call.challengeObj = some c) : ∃ stored, call.stored = some stored := by
  obtain ⟨stored, hs, -⟩ := Option.bind_eq_some_iff.mp h
  exact ⟨stored, hs⟩

/-- What is not rejected was made over the challenge that the call takes. -/
theorem verification_cases (hv : verify.Exact) (call : Call) :
    call.verification verify = .rejected ∨ ∃ stored c, call.stored = some stored ∧
      call.challengeObj = some c ∧ call.Honest stored c ∧
      call.verification verify = .verified call.assertion.signCount := by
  unfold Call.verification
  split
  case h_2 => exact .inl rfl
  case h_1 stored challenge hs hc =>
    split
    case h_2 => exact .inl rfl
    case h_1 n hn =>
      obtain ⟨hkey, hchal, rfl⟩ := hv.sound hn
      split_ifs with hr
      · exact .inl rfl
      · obtain ⟨-, hexp, huser, -⟩ := (challengeObj_iff hs).mp hc
        exact .inr ⟨stored, challenge, hs, hc,
          ⟨⟨hexp, .inl huser, hkey, hchal⟩, Bool.eq_false_iff.mpr hr⟩, rfl⟩

/-- An honest assertion is not rejected exactly if it is over the first challenge of the user. -/
theorem verification_iff (hv : verify.Exact) (hb : (call.challenges.map Challenge.challenge).Nodup)
    (hs : call.stored = some stored) (hc : c ∈ call.challenges) (hh : call.Honest stored c) :
    call.verification verify ≠ .rejected ↔ call.First stored c := by
  constructor
  · intro hne
    obtain hr | ⟨stored', c', hs', hc', hh', -⟩ := verification_cases hv call
    · exact absurd hr hne
    · obtain rfl := Option.some.inj (hs.symm.trans hs')
      obtain ⟨hmem', -, hfirst⟩ := (challengeObj_iff hs).mp hc'
      have heq : c.challenge = c'.challenge := hh.1.2.2.2.symm.trans hh'.1.2.2.2
      rw [List.inj_on_of_nodup_map hb hc hmem' heq]
      exact hfirst
  · intro hfirst
    have hobj := (challengeObj_iff hs).mpr ⟨hc, hh.1.1, hfirst⟩
    have haccept := hv.complete hh.1.2.2.1 hh.1.2.2.2 hh.2
    unfold Call.verification
    rw [hs, hobj]
    dsimp only
    rw [haccept]
    dsimp only
    rw [if_neg (Bool.eq_false_iff.mp hh.2)]
    nofun

end Runs

end Forail.WebAuthn
