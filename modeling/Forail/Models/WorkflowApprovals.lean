import Forail.Base.Dict
import Forail.Base.Register
import Forail.Base.Runs
import Forail.Models.UnifiedJob
import Mathlib.Data.Int.Notation

/-! Approvals in workflows. Requests load the row, test that it is pending and save all its
columns; the task manager loads the rows that have expired and saves three columns later.
Nobody holds a lock in between, so a row may be decided again on a copy that is still
pending. -/

namespace Forail.Approvals

/-- The columns of a `WorkflowApproval` that a decision reads or writes. -/
structure WorkflowApproval where
  pk : ℕ
  name : String
  created : ℤ
  timeout : ℤ
  status : Status
  approvedOrDeniedBy : Option ℕ
  timedOut : Bool
  jobExplanation : String

/-- The column that `save` keeps at this value, in seconds like `created`. -/
def WorkflowApproval.expires (a : WorkflowApproval) : Option ℤ :=
  if a.timeout ≠ 0 then some (a.created + a.timeout) else none

/-- A request with its user, or an expiry found by the task manager. -/
inductive Writer
  | approve (user : Option ℕ)
  | deny (user : Option ℕ)
  | expiry
  deriving DecidableEq

def Writer.isRequest : Writer → Bool
  | .approve _ | .deny _ => true
  | .expiry => false

/-- A refused request is answered with 403 or 400, one that has saved with 204. -/
inductive Phase
  | loaded
  | tested
  | saved
  | permissionDenied
  | alreadyDecided
  | leftForNextCycle
  deriving DecidableEq

def Writer.isApproval : Writer → Bool
  | .approve _ => true
  | .deny _ | .expiry => false

structure Decision where
  writer : Writer
  copy : Register.Copy WorkflowApproval
  phase : Phase

/-- `saves` lists the decisions in the order in which they were saved. -/
structure State where
  row : Register WorkflowApproval
  decisions : Dict ℕ Decision
  saves : List ℕ

inductive Event
  | request (i : ℕ) (writer : Writer) (permitted : Bool)
  | getExpired (i : ℕ) (now : ℤ)
  | test (i : ℕ)
  | save (i : ℕ)
  | timedOut (i : ℕ)

def timeoutMessage (a : WorkflowApproval) : String :=
  "The approval node " ++ a.name ++ " (" ++ toString a.pk ++ ") has expired after " ++
    toString a.timeout ++ " seconds."

/-- The row after a save: `approve` and `deny` write their copy, `timeout_approval_node` three
columns only. -/
def WorkflowApproval.decide (row copy : WorkflowApproval) : Writer → WorkflowApproval
  | .approve user => { copy with status := .successful, approvedOrDeniedBy := user }
  | .deny user => { copy with status := .failed, approvedOrDeniedBy := user }
  | .expiry =>
    { row with status := .failed, jobExplanation := timeoutMessage copy, timedOut := true }

def exec (s : State) : Event → Option State
  | .request i writer permitted =>
    if s.decisions.get? i = none ∧ writer.isRequest then
      let d := ⟨writer, s.row.read, if permitted then .loaded else .permissionDenied⟩
      some { s with decisions := s.decisions.set i d }
    else none
  | .getExpired i now =>
    if s.decisions.get? i = none ∧ s.row.value.status = .pending ∧
        ∃ t ∈ s.row.value.expires, t < now then
      some { s with decisions := s.decisions.set i ⟨.expiry, s.row.read, .tested⟩ }
    else none
  | .test i => do
    let d ← s.decisions.get? i
    if d.phase = .loaded then
      let phase := if d.copy.value.status = .pending then .tested else .alreadyDecided
      some { s with decisions := s.decisions.set i { d with phase := phase } }
    else none
  | .save i => do
    let d ← s.decisions.get? i
    if d.phase = .tested then
      some
        { row := s.row.store (s.row.value.decide d.copy.value d.writer)
          decisions := s.decisions.set i { d with phase := .saved }
          saves := s.saves ++ [i] }
    else none
  | .timedOut i => do
    let d ← s.decisions.get? i
    if d.writer = .expiry ∧ d.phase = .tested then
      some { s with decisions := s.decisions.set i { d with phase := .leftForNextCycle } }
    else none

/-- All runs on a pending approval. -/
def approvals : System State Event where
  init s := ∃ row : WorkflowApproval, row.status = .pending ∧ s = ⟨⟨row, []⟩, .empty, []⟩
  step s e s' := exec s e = some s'

/-- The status leaves `pending` once and then stays, and a request that succeeded is the one
whose outcome is stored. -/
structure DecidedOnce (s : State) : Prop where
  left : ∀ a ∈ s.row.stores, a.status ≠ .pending
  stays : ∀ a ∈ s.row.stores, a.status = s.row.value.status
  outcome : ∀ i d, s.decisions.get? i = some d → d.writer.isRequest = true → d.phase = .saved →
    s.saves.getLast? = some i

/-- Since a copy was loaded that is saved now only expiries were saved, and nothing if the save
is an approval. -/
def Undisturbed (s : State) : Event → Prop
  | .save i => ∀ d ∈ s.decisions.get? i, ∀ j ∈ s.saves.drop d.copy.seen,
    ∀ d' ∈ s.decisions.get? j, d'.writer = .expiry ∧ d.writer.isApproval = false
  | _ => True

instance (s : State) (e : Event) : Decidable (Undisturbed s e) := by
  cases e <;> unfold Undisturbed <;> infer_instance

section Runs
variable {s s' : State}

/-- What holds in every run: only pending copies pass the test. -/
structure Inv (s : State) : Prop where
  copy : ∀ i d, s.decisions.get? i = some d → s.row.Valid d.copy
  tested : ∀ i d, s.decisions.get? i = some d → d.phase = .tested → d.copy.value.status = .pending
  left : ∀ a ∈ s.row.stores, a.status ≠ .pending
  length : s.saves.length = s.row.stores.length
  saver : ∀ j ∈ s.saves, ∃ d, s.decisions.get? j = some d ∧ d.phase = .saved
  saved : ∀ j d, s.decisions.get? j = some d → d.phase = .saved → j ∈ s.saves
  expired : (∀ j ∈ s.saves, ∀ d, s.decisions.get? j = some d → d.writer = .expiry) →
    ∀ a ∈ s.row.stores, a.status = .failed

/-- A decision is entered or goes on without a save. -/
theorem Inv.set (h : Inv s) {i : ℕ} {d : Decision} (hc : s.row.Valid d.copy)
    (ht : d.phase = .tested → d.copy.value.status = .pending) (hp : d.phase ≠ .saved)
    (hi : ∀ d', s.decisions.get? i = some d' → d'.phase ≠ .saved) :
    Inv { s with decisions := s.decisions.set i d } := by
  have hne (j : ℕ) (hj : j ∈ s.saves) : j ≠ i := by
    rintro rfl
    obtain ⟨d', hd', hs⟩ := h.saver j hj
    exact hi d' hd' hs
  have hkeep (j : ℕ) (hj : j ∈ s.saves) : (s.decisions.set i d).get? j = s.decisions.get? j := by
    rw [Dict.get?_set, if_neg (hne j hj)]
  constructor
  · intro j d' hd'
    rcases Dict.of_get?_set hd' with ⟨-, rfl⟩ | ⟨-, hd'⟩
    · exact hc
    · exact h.copy j d' hd'
  · intro j d' hd' ht'
    rcases Dict.of_get?_set hd' with ⟨-, rfl⟩ | ⟨-, hd'⟩
    · exact ht ht'
    · exact h.tested j d' hd' ht'
  · exact h.left
  · exact h.length
  · intro j hj
    dsimp only
    rw [hkeep j hj]
    exact h.saver j hj
  · intro j d' hd' hs
    rcases Dict.of_get?_set hd' with ⟨-, rfl⟩ | ⟨-, hd'⟩
    · exact absurd hs hp
    · exact h.saved j d' hd' hs
  · intro hall
    exact h.expired fun j hj d' hd' => hall j hj d' ((hkeep j hj).trans hd')

theorem decide_status (row copy : WorkflowApproval) (w : Writer) :
    (row.decide copy w).status = if w.isApproval then .successful else .failed := by
  cases w <;> rfl

/-- A step either enters a decision or lets it go on without a save, or saves a tested one. -/
theorem exec_cases {e : Event} (h : Inv s) (hs : exec s e = some s') :
    (∃ i d, s' = { s with decisions := s.decisions.set i d } ∧ (∀ j, e ≠ .save j) ∧
      s.row.Valid d.copy ∧ (d.phase = .tested → d.copy.value.status = .pending) ∧
      d.phase ≠ .saved ∧ ∀ d', s.decisions.get? i = some d' → d'.phase ≠ .saved) ∨
    ∃ i d, e = .save i ∧ s.decisions.get? i = some d ∧ d.phase = .tested ∧
      s' = ⟨s.row.store (s.row.value.decide d.copy.value d.writer),
        s.decisions.set i { d with phase := .saved }, s.saves ++ [i]⟩ := by
  cases e with
  | request i writer permitted =>
    obtain ⟨hn, hs⟩ := Option.ite_none_right_eq_some.mp hs
    refine .inl ⟨i, _, (Option.some.inj hs).symm, nofun, Register.valid_read, ?_, ?_, ?_⟩
    · cases permitted <;> nofun
    · cases permitted <;> nofun
    · intro d' hd'
      rw [hn.1] at hd'
      cases hd'
  | getExpired i now =>
    obtain ⟨hn, hs⟩ := Option.ite_none_right_eq_some.mp hs
    refine .inl ⟨i, _, (Option.some.inj hs).symm, nofun, Register.valid_read, fun _ => hn.2.1, nofun, ?_⟩
    intro d' hd'
    rw [hn.1] at hd'
    cases hd'
  | test i =>
    obtain ⟨d, hd, hs⟩ := Option.bind_eq_some_iff.mp hs
    obtain ⟨hp, hs⟩ := Option.ite_none_right_eq_some.mp hs
    refine .inl ⟨i, _, (Option.some.inj hs).symm, nofun, h.copy i d hd, ?_, ?_, ?_⟩
    · dsimp only
      split_ifs with hpending
      · exact fun _ => hpending
      · nofun
    · dsimp only
      split_ifs <;> nofun
    · intro d' hd'
      rw [← Option.some.inj (hd.symm.trans hd'), hp]
      nofun
  | save i =>
    obtain ⟨d, hd, hs⟩ := Option.bind_eq_some_iff.mp hs
    obtain ⟨hp, hs⟩ := Option.ite_none_right_eq_some.mp hs
    exact .inr ⟨i, d, rfl, hd, hp, (Option.some.inj hs).symm⟩
  | timedOut i =>
    obtain ⟨d, hd, hs⟩ := Option.bind_eq_some_iff.mp hs
    obtain ⟨hp, hs⟩ := Option.ite_none_right_eq_some.mp hs
    refine .inl ⟨i, _, (Option.some.inj hs).symm, nofun, h.copy i d hd, nofun, nofun, ?_⟩
    intro d' hd'
    rw [← Option.some.inj (hd.symm.trans hd'), hp.2]
    nofun

/-- The save of a tested decision. -/
theorem Inv.save (h : Inv s) {i : ℕ} {d : Decision} (hd : s.decisions.get? i = some d)
    (hp : d.phase = .tested) :
    Inv ⟨s.row.store (s.row.value.decide d.copy.value d.writer),
      s.decisions.set i { d with phase := .saved }, s.saves ++ [i]⟩ := by
  have hkeep (j : ℕ) (hj : j ∈ s.saves) :
      (s.decisions.set i { d with phase := .saved }).get? j = s.decisions.get? j := by
    rw [Dict.get?_set, if_neg]
    rintro rfl
    obtain ⟨d', hd', hs⟩ := h.saver j hj
    rw [← Option.some.inj (hd.symm.trans hd'), hp] at hs
    cases hs
  have hstatus := decide_status s.row.value d.copy.value d.writer
  constructor
  · intro j d' hd'
    rcases Dict.of_get?_set hd' with ⟨-, rfl⟩ | ⟨-, hd'⟩
    · exact (h.copy i d hd).store
    · exact (h.copy j d' hd').store
  · intro j d' hd' ht
    rcases Dict.of_get?_set hd' with ⟨-, rfl⟩ | ⟨-, hd'⟩
    · cases ht
    · exact h.tested j d' hd' ht
  · intro a ha
    rcases List.mem_append.mp ha with ha | ha
    · exact h.left a ha
    · rw [List.mem_singleton.mp ha, hstatus]
      split_ifs <;> nofun
  · simp [h.length]
  · intro j hj
    rcases List.mem_append.mp hj with hj | hj
    · dsimp only
      rw [hkeep j hj]
      exact h.saver j hj
    · obtain rfl := List.mem_singleton.mp hj
      exact ⟨_, by rw [Dict.get?_set, if_pos rfl], rfl⟩
  · intro j d' hd' hs
    rcases Dict.of_get?_set hd' with ⟨rfl, -⟩ | ⟨-, hd'⟩
    · exact List.mem_append_right _ (List.mem_singleton_self j)
    · exact List.mem_append_left _ (h.saved j d' hd' hs)
  · intro hall a ha
    rcases List.mem_append.mp ha with ha | ha
    · exact h.expired (fun j hj d' hd' =>
        hall j (List.mem_append_left _ hj) d' ((hkeep j hj).trans hd')) a ha
    · have hexpiry : d.writer = .expiry := hall i (List.mem_append_right _ (List.mem_singleton_self i))
        { d with phase := .saved } (by rw [Dict.get?_set, if_pos rfl])
      rw [List.mem_singleton.mp ha, hstatus, hexpiry]
      rfl

theorem inv (h : approvals.Reachable s) : Inv s := by
  refine h.invariant ?_ fun s e s' _ hi hs => ?_
  · rintro _ ⟨row, -, rfl⟩
    constructor <;> intros <;> simp_all
  · rcases exec_cases hi hs with ⟨i, d, rfl, -, hc, ht, hp, hold⟩ | ⟨i, d, -, hd, hp, rfl⟩
    · exact hi.set hc ht hp hold
    · exact hi.save hd hp

/-- A tested copy was loaded before anything was saved. -/
theorem Inv.seen_eq_zero (h : Inv s) {i : ℕ} {d : Decision} (hd : s.decisions.get? i = some d)
    (hp : d.phase = .tested) : d.copy.seen = 0 :=
  (h.copy i d hd).seen_eq_zero fun hmem => h.left _ hmem (h.tested i d hd hp)

theorem DecidedOnce.set (h : DecidedOnce s) {i : ℕ} {d : Decision} (hp : d.phase ≠ .saved) :
    DecidedOnce { s with decisions := s.decisions.set i d } where
  left := h.left
  stays := h.stays
  outcome j d' hd' hr hs := by
    rcases Dict.of_get?_set hd' with ⟨-, rfl⟩ | ⟨-, hd'⟩
    · exact absurd hs hp
    · exact h.outcome j d' hd' hr hs

/-- After a save the approval is decided once exactly if the save was undisturbed. -/
theorem decidedOnce_save_iff (hi : Inv s) {i : ℕ} {d : Decision}
    (hd : s.decisions.get? i = some d) (hp : d.phase = .tested) :
    DecidedOnce ⟨s.row.store (s.row.value.decide d.copy.value d.writer),
      s.decisions.set i { d with phase := .saved }, s.saves ++ [i]⟩ ↔ Undisturbed s (.save i) := by
  have hi' := hi.save hd hp
  have hstatus := decide_status s.row.value d.copy.value d.writer
  have hdrop : s.saves.drop d.copy.seen = s.saves := by rw [hi.seen_eq_zero hd hp, List.drop_zero]
  constructor
  · intro h' d' hd'
    obtain rfl := Option.some.inj (hd.symm.trans hd')
    rw [hdrop]
    -- a request that has saved would have to be the one that saves now
    have hexpiry : ∀ j ∈ s.saves, ∀ d', s.decisions.get? j = some d' → d'.writer = .expiry := by
      intro j hj d' hd'
      obtain ⟨d₀, hd₀, hs₀⟩ := hi.saver j hj
      have hne : j ≠ i := by
        rintro rfl
        rw [← Option.some.inj (hd.symm.trans hd₀), hp] at hs₀
        cases hs₀
      obtain rfl := Option.some.inj (hd₀.symm.trans hd')
      by_contra hw
      have hreq : d₀.writer.isRequest = true := by
        cases hk : d₀.writer with
        | expiry => exact absurd hk hw
        | approve | deny => rfl
      have hlast := h'.outcome j d₀ (by dsimp only; rw [Dict.get?_set, if_neg hne]; exact hd') hreq hs₀
      rw [List.getLast?_concat] at hlast
      exact hne (Option.some.inj hlast).symm
    intro j hj d' hd'
    refine ⟨hexpiry j hj d' hd', Bool.eq_false_iff.mpr fun happ => ?_⟩
    obtain ⟨a, ha⟩ := List.exists_mem_of_length_pos (hi.length ▸ List.length_pos_of_mem hj)
    have hstays := h'.stays a (List.mem_append_left _ ha)
    rw [hi.expired hexpiry a ha, Register.value_store, hstatus, if_pos happ] at hstays
    cases hstays
  · intro hu
    have hall := hdrop ▸ hu d hd
    refine ⟨hi'.left, fun a ha => ?_, fun j d' hd' hr hs => ?_⟩
    · rw [Register.value_store, hstatus]
      rcases List.mem_append.mp ha with ha | ha
      · obtain ⟨j, hj⟩ := List.exists_mem_of_length_pos
          (hi.length.symm ▸ List.length_pos_of_mem ha)
        obtain ⟨d', hd', -⟩ := hi.saver j hj
        rw [hi.expired (fun j hj d' hd' => (hall j hj d' hd').1) a ha, (hall j hj d' hd').2]
        rfl
      · rw [List.mem_singleton.mp ha, hstatus]
    · rcases Dict.of_get?_set hd' with ⟨rfl, -⟩ | ⟨-, hd'⟩
      · exact List.getLast?_concat
      · rw [(hall j (hi.saved j d' hd' hs) d' hd').1] at hr
        cases hr

theorem decidedOnce_step_iff (hi : Inv s) (h : DecidedOnce s) {e : Event} (hs : exec s e = some s') :
    DecidedOnce s' ↔ Undisturbed s e := by
  rcases exec_cases hi hs with ⟨i, d, rfl, he, -, -, hp, -⟩ | ⟨i, d, rfl, hd, hp, rfl⟩
  · refine iff_of_true (h.set hp) ?_
    cases e with
    | save j => exact absurd rfl (he j)
    | request | getExpired | test | timedOut => trivial
  · exact decidedOnce_save_iff hi hd hp

/-- In every run whose saves are undisturbed the approval is decided once, and the first save
that is disturbed ends this. -/
theorem decided_once (h : (approvals.restrict Undisturbed).Reachable s) :
    DecidedOnce s ∧ ∀ e s', exec s e = some s' → (DecidedOnce s' ↔ Undisturbed s e) := by
  have hdecided : DecidedOnce s := by
    refine h.invariant ?_ fun s e s' hr hi hs => ?_
    · rintro _ ⟨row, -, rfl⟩
      exact ⟨fun _ ha => absurd ha List.not_mem_nil, fun _ ha => absurd ha List.not_mem_nil,
        fun _ _ hd => by cases hd⟩
    · exact (decidedOnce_step_iff (inv hr.of_restrict) hi hs.1).mpr hs.2
  exact ⟨hdecided, fun e s' hs => decidedOnce_step_iff (inv h.of_restrict) hdecided hs⟩

end Runs

/-! ### Two requests at once and one after the other -/

def pendingApproval : WorkflowApproval := ⟨5, "deploy", 0, 0, .pending, none, false, ""⟩

def pendingState : State := ⟨⟨pendingApproval, []⟩, .empty, []⟩

/-- Both requests load the pending row, both succeed, and the approval is then denied. -/
theorem decided_twice : ∃ s, approvals.Reachable s ∧
    s.row.stores.map WorkflowApproval.status = [.successful, .failed] ∧ ¬DecidedOnce s := by
  obtain ⟨s, hrun, hstores⟩ := System.exists_of_runAll (f := exec) (s := pendingState)
    (l := [.request 0 (.approve (some 1)) true, .request 1 (.deny (some 2)) true, .test 0, .test 1,
      .save 0, .save 1])
    (P := fun s => s.row.stores.map WorkflowApproval.status = [.successful, .failed] ∧
      s.row.value.status = .failed) (by decide)
  refine ⟨s, .runAll (fun _ _ _ _ h => h) (.init ⟨pendingApproval, rfl, rfl⟩) hrun, hstores.1,
    fun h => ?_⟩
  have hmem : Status.successful ∈ s.row.stores.map WorkflowApproval.status := by
    rw [hstores.1]
    exact List.mem_cons_self
  obtain ⟨a, ha, hs⟩ := List.mem_map.mp hmem
  have hstays := h.stays a ha
  rw [hs, hstores.2] at hstays
  cases hstays

/-- A request that loads the row after the decision is refused. -/
theorem decided_once_second : ∃ s : State, s.saves = [0] ∧
    (s.decisions.get? 1).map Decision.phase = some .alreadyDecided ∧ DecidedOnce s ∧
    ∀ e s', exec s e = some s' → (DecidedOnce s' ↔ Undisturbed s e) := by
  obtain ⟨s, hrun, hs⟩ := System.exists_of_runAll (f := System.guarded exec Undisturbed)
    (s := pendingState)
    (l := [.request 0 (.approve (some 1)) true, .test 0, .save 0, .request 1 (.deny (some 2)) true,
      .test 1])
    (P := fun s => s.saves = [0] ∧
      (s.decisions.get? 1).map Decision.phase = some .alreadyDecided) (by decide)
  exact ⟨s, hs.1, hs.2, decided_once
    (.runAll_guarded (fun _ _ _ h => h) (.init ⟨pendingApproval, rfl, rfl⟩) hrun)⟩

end Forail.Approvals
