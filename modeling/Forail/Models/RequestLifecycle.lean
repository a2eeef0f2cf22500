import Forail.Models.ServiceRequests

/-! The lifecycle of requests. Without a stale save one process at most is in `_launch`, and it
is there only while the stored status is approved; so a status that was terminal stays, and one
job is created. -/

namespace Forail.ServiceRequests

section Runs
variable {item : CatalogItem} {s s' : State} {p q : Process} {i : ℕ}

/-- What a process knows of the request. -/
structure ProcessInv (item : CatalogItem) (s : State) (p : Process) : Prop where
  launch : p.phase.inLaunch = true → s.row.value.status = .approved ∧
    (item.requiresApproval = true → s.approvals ≠ [])
  before : p.phase = .launching ∨ p.phase = .failing → s.jobs.keys = []
  allowed : ∀ user, p.writer = .approve user → p.phase = .allowed → canUserApprove item user = true
  sync : ∀ job, p.writer = .sync job → s.row.value.unifiedJob.isSome
  syncing : ∀ status, p.phase = .syncing status →
    status.terminal = true ∧ status ≠ .rejected ∧ s.row.value.unifiedJob.isSome

/-- What holds in a run without stale saves: one process at most launches, while the status is
approved. -/
structure Inv (item : CatalogItem) (s : State) : Prop where
  processes : ∀ i p, s.processes.get? i = some p → ProcessInv item s p
  launcher : ∀ i j p q, s.processes.get? i = some p → s.processes.get? j = some q →
    p.phase.inLaunch = true → q.phase.inLaunch = true → i = j
  approvals : ∀ user ∈ s.approvals, canUserApprove item user = true
  one : s.jobs.keys.length ≤ 1
  approved : item.requiresApproval = true → s.jobs.keys ≠ [] → s.approvals ≠ []
  pending : s.row.value.status = .pendingApproval → s.jobs.keys = []
  unlinked : s.row.value.status = .pendingApproval ∨ s.row.value.status = .approved →
    s.row.value.unifiedJob = none
  rejected : ∀ a ∈ s.row.stores, a.status = .rejected → s.jobs.keys = []
  final : ∀ a ∈ s.row.stores, a.status.terminal = true → s.row.value.status = a.status

theorem Inv.toLifecycle (h : Inv item s) : Lifecycle item s where
  one := h.one
  approved hreq hjobs := by
    obtain ⟨user, hu⟩ := List.exists_mem_of_ne_nil _ (h.approved hreq hjobs)
    exact ⟨user, hu, h.approvals user hu⟩
  rejected := h.rejected
  final := h.final

/-- One process changes; if it launches now, it did before. -/
theorem Inv.setProcess (h : Inv item s) {p' : Process} (hp' : ProcessInv item s p')
    (hlaunch : p'.phase.inLaunch = true → ∃ p, s.processes.get? i = some p ∧ p.phase.inLaunch = true) :
    Inv item { s with processes := s.processes.set i p' } where
  processes j q hq := by
    rcases Dict.of_get?_set hq with ⟨-, rfl⟩ | ⟨-, hq⟩
    · exact ⟨hp'.launch, hp'.before, hp'.allowed, hp'.sync, hp'.syncing⟩
    · have hq := h.processes j q hq
      exact ⟨hq.launch, hq.before, hq.allowed, hq.sync, hq.syncing⟩
  launcher j k q r hq hr hql hrl := by
    rcases Dict.of_get?_set hq with ⟨rfl, rfl⟩ | ⟨-, hq'⟩
    · rcases Dict.of_get?_set hr with ⟨rfl, -⟩ | ⟨-, hr'⟩
      · rfl
      · obtain ⟨p, hp, hpl⟩ := hlaunch hql
        exact h.launcher _ _ _ _ hp hr' hpl hrl
    · rcases Dict.of_get?_set hr with ⟨rfl, rfl⟩ | ⟨-, hr'⟩
      · obtain ⟨p, hp, hpl⟩ := hlaunch hrl
        exact h.launcher _ _ _ _ hq' hp hql hpl
      · exact h.launcher _ _ _ _ hq' hr' hql hrl
  approvals := h.approvals
  one := h.one
  approved := h.approved
  pending := h.pending
  unlinked := h.unlinked
  rejected := h.rejected
  final := h.final

/-- A process that ends without a further save. -/
theorem Inv.goOn (h : Inv item s) (hp : s.processes.get? i = some p) {phase : Phase}
    (hphase : phase = .finished ∨ phase = .refused ∨ phase = .raised) : Inv item (p.goOn s i phase) := by
  have hinv := h.processes i p hp
  refine h.setProcess ⟨?_, ?_, ?_, hinv.sync, ?_⟩ ?_ <;> rcases hphase with rfl | rfl | rfl <;> nofun

/-- A row is stored by a process while no other one launches. -/
theorem Inv.store (h : Inv item s) {p' : Process} {row : ServiceRequest} {users : List User}
    (hp' : ProcessInv item ⟨s.row.store row, s.deleted, s.jobs, s.handlers, s.processes,
      s.approvals ++ users⟩ p')
    (hno : ∀ j q, j ≠ i → s.processes.get? j = some q → q.phase.inLaunch = false)
    (husers : ∀ user ∈ users, canUserApprove item user = true)
    (hpending : row.status = .pendingApproval → s.jobs.keys = [])
    (hunlinked : row.status = .pendingApproval ∨ row.status = .approved → row.unifiedJob = none)
    (hlinked : s.row.value.unifiedJob.isSome → row.unifiedJob.isSome)
    (hrejected : row.status = .rejected → s.jobs.keys = [])
    (hfinal : ∀ a ∈ s.row.stores, a.status.terminal = true → row.status = a.status) :
    Inv item ⟨s.row.store row, s.deleted, s.jobs, s.handlers, s.processes.set i p',
      s.approvals ++ users⟩ where
  processes j q hq := by
    rcases Dict.of_get?_set hq with ⟨-, rfl⟩ | ⟨hne, hq⟩
    · exact ⟨hp'.launch, hp'.before, hp'.allowed, hp'.sync, hp'.syncing⟩
    · have hl := hno j q hne hq
      have hq := h.processes j q hq
      refine ⟨fun hlaunch => ?_, hq.before, hq.allowed, fun job hw => ?_, fun status hs => ?_⟩
      · rw [hl] at hlaunch
        cases hlaunch
      · rw [Register.value_store]
        exact hlinked (hq.sync job hw)
      · obtain ⟨ht, hr, hj⟩ := hq.syncing status hs
        rw [Register.value_store]
        exact ⟨ht, hr, hlinked hj⟩
  launcher j k q r hq hr hql hrl := by
    have honly (j : ℕ) (q : Process) (hq : (s.processes.set i p').get? j = some q)
        (hql : q.phase.inLaunch = true) : j = i := by
      rcases Dict.of_get?_set hq with ⟨rfl, -⟩ | ⟨hne, hq⟩
      · rfl
      · rw [hno j q hne hq] at hql
        cases hql
    rw [honly j q hq hql, honly k r hr hrl]
  approvals user hu := by
    rcases List.mem_append.mp hu with hu | hu
    · exact h.approvals user hu
    · exact husers user hu
  one := h.one
  approved hreq hjobs := List.append_ne_nil_of_left_ne_nil (h.approved hreq hjobs) users
  pending hs := by
    rw [Register.value_store] at hs
    exact hpending hs
  unlinked hs := by
    rw [Register.value_store] at hs ⊢
    exact hunlinked hs
  rejected a ha hs := by
    rcases List.mem_append.mp ha with ha | ha
    · exact h.rejected a ha hs
    · exact hrejected (List.mem_singleton.mp ha ▸ hs)
  final a ha hs := by
    rw [Register.value_store]
    rcases List.mem_append.mp ha with ha | ha
    · exact hfinal a ha hs
    · rw [List.mem_singleton.mp ha]

/-- No process launches while the status is not approved. -/
theorem Inv.not_inLaunch (h : Inv item s) (hs : s.row.value.status ≠ .approved) {j : ℕ}
    (hq : s.processes.get? j = some q) : q.phase.inLaunch = false :=
  Bool.eq_false_iff.mpr fun hl => hs ((h.processes j q hq).launch hl).1

/-- No process launches beside one that does. -/
theorem Inv.not_inLaunch_of_ne (h : Inv item s) (hp : s.processes.get? i = some p)
    (hl : p.phase.inLaunch = true) {j : ℕ} (hne : j ≠ i) (hq : s.processes.get? j = some q) :
    q.phase.inLaunch = false :=
  Bool.eq_false_iff.mpr fun hl' => hne (h.launcher _ _ _ _ hq hp hl' hl)

/-- What a save stores, and how its writer goes on. -/
inductive SavedCases (item : CatalogItem) (p : Process) (row : ServiceRequest) :
    ServiceRequest → Phase → Prop
  | submitted (hp : p.phase = .allowed) :
      SavedCases item p row { row with status := .pendingApproval } .finished
  | approved {row' : ServiceRequest} (hp : p.phase = .allowed)
      (happ : item.requiresApproval = true → p.approval ≠ []) (hs : row'.status = .approved)
      (hj : row'.unifiedJob = row.unifiedJob) : SavedCases item p row row' .launching
  | rejected {row' : ServiceRequest} (hp : p.phase = .allowed) (hs : row'.status = .rejected)
      (hj : row'.unifiedJob = row.unifiedJob) : SavedCases item p row row' .finished
  | failing (hp : p.phase = .failing) : SavedCases item p row { row with status := .failed } .finished
  | launched {job : ℕ} (hp : p.phase = .launched job) :
      SavedCases item p row { row with unifiedJob := some job, status := .running } .finished
  | syncing {status : RequestStatus} (hp : p.phase = .syncing status) :
      SavedCases item p row { row with status := status } .finished

theorem saved_cases {now : ℤ} {row row' : ServiceRequest} {phase : Phase}
    (h : p.saved item now row = some (row', phase)) : SavedCases item p row row' phase := by
  obtain ⟨writer, copy, ph⟩ := p
  cases ph with
  | allowed =>
    cases writer with
    | submit =>
      cases hreq : item.requiresApproval with
      | true =>
        obtain ⟨rfl, rfl⟩ : _ = row' ∧ _ = phase := by simpa [Process.saved, hreq] using h
        exact .submitted rfl
      | false =>
        obtain ⟨rfl, rfl⟩ : _ = row' ∧ _ = phase := by simpa [Process.saved, hreq] using h
        exact .approved rfl (fun hreq' => by rw [hreq] at hreq'; cases hreq') rfl rfl
    | approve user =>
      obtain ⟨rfl, rfl⟩ : _ = row' ∧ _ = phase := by simpa [Process.saved] using h
      exact .approved rfl (fun _ => List.cons_ne_nil user []) rfl rfl
    | reject user reason =>
      obtain ⟨rfl, rfl⟩ : _ = row' ∧ _ = phase := by simpa [Process.saved] using h
      exact .rejected rfl rfl rfl
    | delete | sync => cases h
  | failing =>
    obtain ⟨rfl, rfl⟩ : _ = row' ∧ _ = phase := by simpa [Process.saved] using h
    exact .failing rfl
  | launched job =>
    obtain ⟨rfl, rfl⟩ : _ = row' ∧ _ = phase := by simpa [Process.saved] using h
    exact .launched rfl
  | syncing status =>
    obtain ⟨rfl, rfl⟩ : _ = row' ∧ _ = phase := by simpa [Process.saved] using h
    exact .syncing rfl
  | loaded | launching | finished | refused | raised => cases h

theorem ProcessInv.approval (h : ProcessInv item s p) :
    ∀ user ∈ p.approval, canUserApprove item user = true := by
  obtain ⟨writer, copy, phase⟩ := p
  intro user hu
  cases phase with
  | allowed =>
    cases writer with
    | approve user' =>
      obtain rfl := List.mem_singleton.mp hu
      exact h.allowed user rfl rfl
    | submit | reject | delete | sync => cases hu
  | _ => cases hu

/-- A terminal status that was stored is the present one. -/
theorem Inv.not_stored (h : Inv item s) {status : RequestStatus} (ht : status.terminal = true)
    (hs : s.row.value.status ≠ status) : ∀ a ∈ s.row.stores, a.status ≠ status := by
  rintro a ha rfl
  exact hs (h.final a ha ht)

theorem Inv.not_terminal (h : Inv item s) (hs : s.row.value.status.terminal = false) :
    ∀ a ∈ s.row.stores, a.status.terminal = false := by
  intro a ha
  refine Bool.eq_false_iff.mpr fun ht => ?_
  rw [h.final a ha ht, ht] at hs
  cases hs

/-- A save that is not stale. -/
theorem Inv.save (h : Inv item s) (hp : s.processes.get? i = some p) {row : ServiceRequest}
    {phase : Phase} (hsaved : SavedCases item p s.row.value row phase) (hcur : p.Current s.row.value) :
    Inv item { p.goOn s i phase with
      row := s.row.store row
      approvals := s.approvals ++ p.approval } := by
  have hinv := h.processes i p hp
  have hfinal (ht : s.row.value.status.terminal = false) (b : RequestStatus) :
      ∀ a ∈ s.row.stores, a.status.terminal = true → b = a.status := by
    intro a ha ht'
    rw [h.not_terminal ht a ha] at ht'
    cases ht'
  have hpending (hph : p.phase = .allowed) : s.row.value.status = .pendingApproval := by
    unfold Process.Current at hcur
    rwa [hph] at hcur
  -- nobody launches while the status is pending, and nobody else while this process does
  cases hsaved with
  | submitted hph =>
    have hs := hpending hph
    refine h.store ⟨nofun, by nofun, by nofun, ?_, by nofun⟩
      (fun j q _ hq => h.not_inLaunch (by rw [hs]; nofun) hq) hinv.approval (fun _ => h.pending hs)
      (fun _ => h.unlinked (.inl hs)) id nofun (hfinal (by rw [hs]; rfl) _)
    intro job hw
    rw [Register.value_store]
    exact hinv.sync job hw
  | approved hph happ hs' hj =>
    have hs := hpending hph
    refine h.store ⟨fun _ => ⟨?_, fun hreq => ?_⟩, fun _ => h.pending hs, by nofun, ?_, by nofun⟩
      (fun j q _ hq => h.not_inLaunch (by rw [hs]; nofun) hq) hinv.approval (fun _ => h.pending hs)
      (fun _ => hj.trans (h.unlinked (.inl hs))) (fun hl => hj ▸ hl) (fun _ => h.pending hs)
      (hfinal (by rw [hs]; rfl) _)
    · rw [Register.value_store]
      exact hs'
    · exact List.append_ne_nil_of_right_ne_nil _ (happ hreq)
    · intro job hw
      rw [Register.value_store, hj]
      exact hinv.sync job hw
  | rejected hph hs' hj =>
    have hs := hpending hph
    refine h.store ⟨nofun, by nofun, by nofun, ?_, by nofun⟩
      (fun j q _ hq => h.not_inLaunch (by rw [hs]; nofun) hq) hinv.approval (fun _ => h.pending hs)
      (fun _ => hj.trans (h.unlinked (.inl hs))) (fun hl => hj ▸ hl) (fun _ => h.pending hs)
      (hfinal (by rw [hs]; rfl) _)
    intro job hw
    rw [Register.value_store, hj]
    exact hinv.sync job hw
  | failing hph =>
    have hl : p.phase.inLaunch = true := by rw [hph]; rfl
    have hs := (hinv.launch hl).1
    refine h.store ⟨nofun, by nofun, by nofun, ?_, by nofun⟩
      (fun j q hne hq => h.not_inLaunch_of_ne hp hl hne hq) hinv.approval nofun
      (fun hor => by rcases hor with hor | hor <;> cases hor) id nofun (hfinal (by rw [hs]; rfl) _)
    intro job hw
    rw [Register.value_store]
    exact hinv.sync job hw
  | launched hph =>
    have hl : p.phase.inLaunch = true := by rw [hph]; rfl
    have hs := (hinv.launch hl).1
    refine h.store ⟨nofun, by nofun, by nofun, ?_, by nofun⟩
      (fun j q hne hq => h.not_inLaunch_of_ne hp hl hne hq) hinv.approval nofun
      (fun hor => by rcases hor with hor | hor <;> cases hor) (fun _ => rfl) nofun
      (hfinal (by rw [hs]; rfl) _)
    intro job hw
    rw [Register.value_store]
    rfl
  | @syncing status hph =>
    obtain ⟨ht, hr, hj⟩ := hinv.syncing status hph
    have hcur : s.row.value.status.terminal = true → s.row.value.status = status := by
      unfold Process.Current at hcur
      rwa [hph] at hcur
    have hlinked (hs : s.row.value.status = .pendingApproval ∨ s.row.value.status = .approved) :
        False := by
      rw [h.unlinked hs] at hj
      cases hj
    refine h.store ⟨nofun, by nofun, by nofun, ?_, by nofun⟩
      (fun j q _ hq => h.not_inLaunch (fun hs => hlinked (.inr hs)) hq) hinv.approval ?_ ?_ id
      (fun hs => absurd hs hr) (fun a ha ht' => ?_)
    · intro job hw
      rw [Register.value_store]
      exact hinv.sync job hw
    · intro hs
      rw [show status = .pendingApproval from hs] at ht
      cases ht
    · rintro (hs | hs)
      · rw [show status = .pendingApproval from hs] at ht
        cases ht
      · rw [show status = .approved from hs] at ht
        cases ht
    · have heq := h.final a ha ht'
      exact (hcur (by rw [heq]; exact ht')).symm.trans heq

/-- The test of a process that has loaded the row. -/
theorem Inv.test (h : Inv item s) (hp : s.processes.get? i = some p) (hph : p.phase = .loaded) :
    Inv item (p.goOn s i (p.test item s.jobs)) := by
  have hinv := h.processes i p hp
  obtain ⟨writer, copy, phase⟩ := p
  have hallowed (hw : ∀ user, writer = .approve user → canUserApprove item user = true) :
      Inv item (Process.goOn ⟨writer, copy, phase⟩ s i .allowed) :=
    h.setProcess ⟨fun h => (by cases h), fun h => (by rcases h with h | h <;> cases h), fun user hw' _ => hw user hw',
      hinv.sync, fun _ h => (by cases h)⟩ fun h => by cases h
  cases writer with
  | submit => exact hallowed fun _ h => by cases h
  | approve user =>
    dsimp only [Process.test]
    split_ifs with hs hu
    · exact h.goOn hp (.inr (.inl rfl))
    · exact h.goOn hp (.inr (.inl rfl))
    · refine hallowed fun user' hw => ?_
      obtain rfl : user = user' := by injection hw
      simpa using hu
  | reject user reason =>
    dsimp only [Process.test]
    split_ifs with hs hu
    · exact h.goOn hp (.inr (.inl rfl))
    · exact h.goOn hp (.inr (.inl rfl))
    · exact hallowed fun _ h => by cases h
  | delete =>
    dsimp only [Process.test]
    split_ifs with hs
    · exact h.goOn hp (.inr (.inl rfl))
    · exact hallowed fun _ h => by cases h
  | sync job =>
    dsimp only [Process.test]
    split_ifs with hs
    · exact h.goOn hp (.inl rfl)
    · split
      case h_1 status hmirrored =>
        obtain ⟨st, -, hst⟩ := Option.bind_eq_some_iff.mp hmirrored
        refine h.setProcess ⟨fun h => (by cases h), fun h => (by rcases h with h | h <;> cases h), fun _ h => (by cases h),
          hinv.sync, fun status' hph' => ?_⟩ fun h => by cases h
        obtain rfl : status = status' := by injection hph'
        have hj := hinv.sync job rfl
        cases st <;> cases hst <;> exact ⟨rfl, fun h => (by cases h), hj⟩
      case h_2 => exact h.goOn hp (.inl rfl)

/-- A launch creates its job, the first one. -/
theorem Inv.createUnifiedJob (h : Inv item s) (hp : s.processes.get? i = some p)
    (hph : p.phase = .launching) {job : ℕ} :
    Inv item { p.goOn s i (.launched job) with jobs := s.jobs.set job .new } := by
  have hinv := h.processes i p hp
  have hl : p.phase.inLaunch = true := by rw [hph]; rfl
  obtain ⟨hs, happ⟩ := hinv.launch hl
  have hnone : s.jobs.keys = [] := hinv.before (.inl hph)
  have hkeys : (s.jobs.set job .new).keys = [job] := by
    rw [Dict.keys_set, hnone, if_neg List.not_mem_nil, List.nil_append]
  have hno (a : ServiceRequest) (ha : a ∈ s.row.stores) : a.status ≠ .rejected :=
    h.not_stored rfl (by rw [hs]; nofun) a ha
  refine ⟨fun j q hq => ?_, ?_, h.approvals, ?_, fun hreq _ => happ hreq, ?_, h.unlinked,
    fun a ha hr => absurd hr (hno a ha), h.final⟩
  · rcases Dict.of_get?_set hq with ⟨-, rfl⟩ | ⟨hne, hq⟩
    · exact ⟨fun _ => ⟨hs, happ⟩, by nofun, by nofun, hinv.sync, by nofun⟩
    · have hnl := h.not_inLaunch_of_ne hp hl hne hq
      have hq := h.processes j q hq
      refine ⟨hq.launch, fun hor => ?_, hq.allowed, hq.sync, hq.syncing⟩
      rcases hor with hor | hor <;> rw [hor] at hnl <;> cases hnl
  · exact (@Inv.setProcess _ _ _ h { p with phase := .launched job }
      ⟨fun _ => ⟨hs, happ⟩, by nofun, by nofun, hinv.sync, by nofun⟩ fun _ => ⟨p, hp, hl⟩).launcher
  · dsimp only
    rw [hkeys]
    exact Nat.le_refl 1
  · intro hs'
    rw [show s.row.value.status = .pendingApproval from hs'] at hs
    cases hs

/-- The save of a job that exists. -/
theorem Inv.saveJob (h : Inv item s) {job : ℕ} (hj : job ∈ s.jobs.keys) (status : Status)
    (handlers : List ℕ) :
    Inv item { s with jobs := s.jobs.set job status, handlers := handlers } := by
  have hkeys : (s.jobs.set job status).keys = s.jobs.keys := by rw [Dict.keys_set, if_pos hj]
  refine ⟨fun i p hp => ?_, h.launcher, h.approvals, ?_, ?_, ?_, h.unlinked, ?_, h.final⟩
  · have hp := h.processes i p hp
    refine ⟨hp.launch, ?_, hp.allowed, hp.sync, hp.syncing⟩
    dsimp only
    rw [hkeys]
    exact hp.before
  all_goals
    dsimp only
    rw [hkeys]
  · exact h.one
  · exact h.approved
  · exact h.pending
  · exact h.rejected

theorem Inv.handlers (h : Inv item s) (handlers : List ℕ) : Inv item { s with handlers := handlers } where
  processes i p hp := by
    have hp := h.processes i p hp
    exact ⟨hp.launch, hp.before, hp.allowed, hp.sync, hp.syncing⟩
  launcher := h.launcher
  approvals := h.approvals
  one := h.one
  approved := h.approved
  pending := h.pending
  unlinked := h.unlinked
  rejected := h.rejected
  final := h.final

theorem Inv.delete (h : Inv item s) : Inv item { s with deleted := true } where
  processes i p hp := by
    have hp := h.processes i p hp
    exact ⟨hp.launch, hp.before, hp.allowed, hp.sync, hp.syncing⟩
  launcher := h.launcher
  approvals := h.approvals
  one := h.one
  approved := h.approved
  pending := h.pending
  unlinked := h.unlinked
  rejected := h.rejected
  final := h.final

theorem Inv.step (h : Inv item s) {e : Event} (hs : exec item s e = some s') (hcur : Current s e) :
    Inv item s' := by
  cases e with
  | load i writer =>
    obtain ⟨hc, hs⟩ := Option.ite_none_right_eq_some.mp hs
    obtain rfl := Option.some.inj hs
    refine h.setProcess ⟨nofun, by nofun, by nofun, fun job hw => ?_, by nofun⟩ nofun
    rw [show writer = .sync job from hw] at hc
    exact absurd hc.2.2 Bool.false_ne_true
  | test i =>
    obtain ⟨p, hp, hs⟩ := Option.bind_eq_some_iff.mp hs
    obtain ⟨hph, hs⟩ := Option.ite_none_right_eq_some.mp hs
    exact Option.some.inj hs ▸ h.test hp hph
  | save i now =>
    obtain ⟨p, hp, hs⟩ := Option.bind_eq_some_iff.mp hs
    obtain ⟨⟨row, phase⟩, hsaved, hs⟩ := Option.bind_eq_some_iff.mp hs
    dsimp only at hs
    split_ifs at hs with hdel
    · exact Option.some.inj hs ▸ h.goOn hp (.inr (.inr rfl))
    · have hcur := hcur p hp (by simpa using hdel)
      exact Option.some.inj hs ▸ h.save hp (saved_cases hsaved) hcur
  | delete i =>
    obtain ⟨p, hp, hs⟩ := Option.bind_eq_some_iff.mp hs
    cases hw : p.writer with
    | delete =>
      rw [hw] at hs
      obtain ⟨hph, hs⟩ := Option.ite_none_right_eq_some.mp hs
      exact Option.some.inj hs ▸ (h.goOn hp (.inl rfl)).delete
    | submit | approve | reject | sync =>
      rw [hw] at hs
      cases hs
  | createUnifiedJob i job =>
    obtain ⟨p, hp, hs⟩ := Option.bind_eq_some_iff.mp hs
    obtain ⟨hph, hs⟩ := Option.ite_none_right_eq_some.mp hs
    have hl : p.phase.inLaunch = true := by rw [hph]; rfl
    have hinv := h.processes i p hp
    cases job with
    | none =>
      obtain rfl := Option.some.inj hs
      exact h.setProcess ⟨fun _ => hinv.launch hl, fun _ => hinv.before (.inl hph), by nofun,
        hinv.sync, by nofun⟩ fun _ => ⟨p, hp, hl⟩
    | some job =>
      obtain ⟨-, hs⟩ := Option.ite_none_right_eq_some.mp hs
      exact Option.some.inj hs ▸ h.createUnifiedJob hp hph
  | saveJob job status =>
    obtain ⟨hj, hs⟩ := Option.ite_none_right_eq_some.mp hs
    exact Option.some.inj hs ▸ h.saveJob hj status _
  | query i job =>
    obtain ⟨hc, hs⟩ := Option.ite_none_right_eq_some.mp hs
    have h := h.handlers (s.handlers.erase job)
    dsimp only at hs
    split_ifs at hs with hq
    · obtain rfl := Option.some.inj hs
      refine h.setProcess ⟨nofun, by nofun, by nofun, fun _ _ => ?_, by nofun⟩ nofun
      dsimp only
      rw [hq.2.1]
      rfl
    · exact Option.some.inj hs ▸ h

theorem Inv.submitted : Inv item submitted := by
  have hpr (i : ℕ) (p : Process) (hp : ServiceRequests.submitted.processes.get? i = some p) :
      p = ⟨.submit, created, .loaded⟩ := by
    rcases Dict.of_get?_set hp with ⟨-, rfl⟩ | ⟨-, hp⟩
    · rfl
    · cases hp
  refine ⟨fun i p hp => ?_, fun i j p q hp hq hl => ?_, nofun, Nat.zero_le 1, fun _ hj => absurd rfl hj,
    fun _ => rfl, fun _ => rfl, nofun, nofun⟩
  · rw [hpr i p hp]
    exact ⟨nofun, by nofun, by nofun, by nofun, by nofun⟩
  · rw [hpr i p hp] at hl
    cases hl

/-- In every run without a stale save a request has its lifecycle. -/
theorem lifecycle (h : ((serviceRequests item).restrict Current).Reachable s) : Lifecycle item s := by
  have hinv : Inv item s := by
    refine h.invariant ?_ fun s e s' _ hi hs => hi.step hs.1 hs.2
    rintro _ rfl
    exact .submitted
  exact hinv.toLifecycle

end Runs

/-! ### An item whose requests an admin approves -/

def approvable : CatalogItem := ⟨true, true, none, some [1]⟩

def admin : User := ⟨1, true, false⟩

/-- Two approvals load the pending row: both launch a job. -/
theorem launched_twice : ∃ s, (serviceRequests approvable).Reachable s ∧ s.jobs.keys = [10, 11] ∧
    ¬Lifecycle approvable s := by
  obtain ⟨s, hrun, hs⟩ := System.exists_of_runAll (f := exec approvable) (s := submitted)
    (l := [.test 0, .save 0 0, .load 1 (.approve admin), .load 2 (.approve admin), .test 1, .test 2,
      .save 1 5, .createUnifiedJob 1 (some 10), .save 1 5, .save 2 6, .createUnifiedJob 2 (some 11),
      .save 2 6])
    (P := fun s => s.jobs.keys = [10, 11]) (by decide)
  refine ⟨s, .runAll (fun _ _ _ _ h => h) (.init rfl) hrun, hs, fun h => ?_⟩
  have hone := h.one
  rw [hs] at hone
  exact absurd hone (by decide)

/-- A request that is approved once, and mirrors its job. -/
theorem lifecycle_approved : ∃ s : State, s.jobs.keys = [10] ∧ s.row.value.status = .successful ∧
    Lifecycle approvable s := by
  obtain ⟨s, hrun, hs⟩ := System.exists_of_runAll
    (f := System.guarded (exec approvable) Current) (s := submitted)
    (l := [.test 0, .save 0 0, .load 1 (.approve admin), .test 1, .save 1 5,
      .createUnifiedJob 1 (some 10), .save 1 5, .saveJob 10 .running, .saveJob 10 .successful,
      .query 2 10, .test 2, .save 2 9])
    (P := fun s => s.jobs.keys = [10] ∧ s.row.value.status = .successful) (by decide)
  exact ⟨s, hs.1, hs.2, lifecycle (.runAll_guarded (fun _ _ _ h => h) (.init rfl) hrun)⟩

end Forail.ServiceRequests
