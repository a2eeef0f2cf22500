import Forail.Base.Keyed
import Forail.Base.Runs
import Forail.Models.UnifiedJob
import Forail.Tenancy.Quota

/-! The counter of concurrent jobs over runs of launches and saves. The gate counts a job
up; the only place that counts it down is a receiver of saves that is connected to the
class `UnifiedJob` itself, and no saved job has exactly that class. So the counter is right
as long as no admitted job is deleted by a later gate or saved with a final status, and the
first time one is it becomes too high. -/

namespace Forail.Tenancy

open Keyed

/-- The base class and its concrete subclasses. -/
inductive JobClass
  | unifiedJob
  | job | workflowJob | projectUpdate | inventoryUpdate | adHocCommand | systemJob | workflowApproval
  deriving DecidableEq

/-- What the launch view does next with its new job. -/
inductive Stage
  | quota | policy | scanner | start
  deriving DecidableEq

/-- `stage` is set while a launch request still holds the job; `admitted` records that
the quota gate let it pass. -/
structure UnifiedJob where
  id : ℕ
  cls : JobClass
  organization : Option ℕ
  status : Status
  stage : Option Stage
  admitted : Bool

structure State where
  usage : ℕ → Option TenantUsage
  jobs : List UnifiedJob

/-- One step of a launch request, or a save of some job. -/
inductive Event
  | create (id : ℕ) (cls : JobClass) (organization : Option ℕ) (launched : Bool)
  | quotaGate (id : ℕ) (launch : Launch) (created now : Time)
  | gate (id : ℕ) (allowed : Bool)
  | signalStart (id : ℕ) (result : Bool)
  | save (id : ℕ) (status : Status)

/-- The `sender` of the receiver. -/
def connectedSender : JobClass := .unifiedJob

section Definitions
variable (orgs : ℕ → Organization)

/-- The receiver `_tenancy_on_unified_job_save`. -/
def tenancyOnUnifiedJobSave (usage : ℕ → Option TenantUsage) (job : UnifiedJob) (created : Bool) :
    ℕ → Option TenantUsage :=
  if created then usage
  else if !job.status.terminal then usage
  else match job.organization with
    | none => usage
    | some o => if (orgs o).isTenantRoot then Function.update usage o (onJobFinished (usage o)) else usage

/-- A receiver is called when the class of the saved instance is its sender. -/
def postSave (usage : ℕ → Option TenantUsage) (job : UnifiedJob) (created : Bool) :
    ℕ → Option TenantUsage :=
  if job.cls = connectedSender then tenancyOnUnifiedJobSave orgs usage job created else usage

def UnifiedJob.find (s : State) (id : ℕ) : Option UnifiedJob := Keyed.find UnifiedJob.id s.jobs id

/-- `new_job.delete()`. -/
def deleteJob (s : State) (id : ℕ) : State := { s with jobs := remove UnifiedJob.id s.jobs id }

def setStage (s : State) (id : ℕ) (stage : Option Stage) : State :=
  { s with jobs := modify UnifiedJob.id s.jobs id fun j => { j with stage := stage } }

/-- The job passed the quota gate. -/
def UnifiedJob.letPass (j : UnifiedJob) : UnifiedJob :=
  { j with stage := some .policy, admitted := true }

/-- The first gate of the view: a blocked job is deleted. -/
def quotaGate (s : State) (j : UnifiedJob) (launch : Launch) (created now : Time) : State :=
  match j.organization with
  | none => { s with jobs := modify UnifiedJob.id s.jobs j.id UnifiedJob.letPass }
  | some o =>
    let (result, row) := checkTenantQuota true (some (orgs o)) launch (s.usage o) created now
    let s := { s with usage := Function.update s.usage o row }
    if result.allowed then { s with jobs := modify UnifiedJob.id s.jobs j.id UnifiedJob.letPass }
    else deleteJob s j.id

/-- One event; it has no result where it is not possible. The policy gate and the scanner
delete a job that they do not allow, and so does a failed `signal_start`. -/
def exec (s : State) : Event → Option State
  | .create id cls organization launched =>
    if id ∈ s.jobs.map UnifiedJob.id ∨ cls = .unifiedJob then none
    else
      let job : UnifiedJob :=
        ⟨id, cls, organization, .new, if launched then some .quota else none, false⟩
      some ⟨postSave orgs s.usage job true, s.jobs ++ [job]⟩
  | .quotaGate id launch created now => do
    let j ← UnifiedJob.find s id
    if j.stage = some .quota then some (quotaGate orgs s j launch created now) else none
  | .gate id allowed => do
    let j ← UnifiedJob.find s id
    match j.stage with
    | some .policy => some (if allowed then setStage s id (some .scanner) else deleteJob s id)
    | some .scanner => some (if allowed then setStage s id (some .start) else deleteJob s id)
    | _ => none
  | .signalStart id result => do
    let j ← UnifiedJob.find s id
    if j.stage = some .start then some (if result then setStage s id none else deleteJob s id)
    else none
  | .save id status => do
    let j ← UnifiedJob.find s id
    some ⟨postSave orgs s.usage { j with status := status } false,
      modify UnifiedJob.id s.jobs id fun j => { j with status := status }⟩

/-- Launches and saves with tenancy enabled, from the empty database. -/
def launches : System State Event where
  init s := s = ⟨fun _ => none, []⟩
  step s e s' := exec orgs s e = some s'

end Definitions

/-! ### Counting -/

/-- The stored counter; without a row nothing is counted. -/
def counter (s : State) (o : ℕ) : ℕ := ((s.usage o).map TenantUsage.concurrentJobsCount).getD 0

def UnifiedJob.admittedFor (o : ℕ) (j : UnifiedJob) : Bool := j.admitted && j.organization = some o

def UnifiedJob.liveFor (o : ℕ) (j : UnifiedJob) : Bool := j.admittedFor o && !j.status.terminal

/-- The admitted jobs of the tenant that exist in a status that is not final. -/
def live (s : State) (o : ℕ) : ℕ := s.jobs.countP (UnifiedJob.liveFor o)

/-- The counter of every tenant is honest. -/
def Honest (orgs : ℕ → Organization) (s : State) : Prop :=
  ∀ o, (orgs o).isTenantRoot = true → counter s o = live s o

/-- The job was admitted for a tenant. -/
def UnifiedJob.Counted (orgs : ℕ → Organization) (j : UnifiedJob) : Prop :=
  ∃ o, (orgs o).isTenantRoot = true ∧ j.admittedFor o = true

/-- The event does not end an admitted job, and admits none that has already ended. -/
def Guard (orgs : ℕ → Organization) (s : State) : Event → Prop
  | .create _ _ _ _ => True
  | .quotaGate id _ _ _ => ∀ j ∈ s.jobs, j.id = id → j.status.terminal = false
  | .gate id ok | .signalStart id ok => ok = false → ∀ j ∈ s.jobs, j.id = id → ¬ j.Counted orgs
  | .save id status => status.terminal = true → ∀ j ∈ s.jobs, j.id = id → ¬ j.Counted orgs

/-- The invariant of guarded runs. -/
structure Inv (orgs : ℕ → Organization) (s : State) : Prop where
  nodup : (s.jobs.map UnifiedJob.id).Nodup
  concrete : ∀ j ∈ s.jobs, j.cls ≠ .unifiedJob
  status : ∀ j ∈ s.jobs, j.Counted orgs → j.status.terminal = false
  staged : ∀ j ∈ s.jobs, j.stage = some .quota → j.admitted = false
  honest : Honest orgs s

section Steps
variable {orgs : ℕ → Organization} {s s' : State}

theorem postSave_of_concrete (orgs : ℕ → Organization) (usage : ℕ → Option TenantUsage)
    {j : UnifiedJob} (h : j.cls ≠ .unifiedJob) (created : Bool) : postSave orgs usage j created = usage :=
  if_neg h

theorem admittedFor_status (o : ℕ) (j : UnifiedJob) (st : Status) :
    UnifiedJob.admittedFor o { j with status := st } = j.admittedFor o := rfl

/-- Changing one job moves the count of its tenants by that job. -/
theorem live_modify (hnd : (s.jobs.map UnifiedJob.id).Nodup) {j : UnifiedJob} (hj : j ∈ s.jobs)
    (f : UnifiedJob → UnifiedJob) (usage : ℕ → Option TenantUsage) (o : ℕ) :
    live ⟨usage, modify UnifiedJob.id s.jobs j.id f⟩ o + (if j.liveFor o then 1 else 0) =
      live s o + if (f j).liveFor o then 1 else 0 :=
  countP_modify hnd hj f _

theorem live_delete (hnd : (s.jobs.map UnifiedJob.id).Nodup) {j : UnifiedJob} (hj : j ∈ s.jobs)
    (o : ℕ) : live (deleteJob s j.id) o + (if j.liveFor o then 1 else 0) = live s o :=
  countP_remove hnd hj _

theorem Inv.liveFor_iff (h : Inv orgs s) {j : UnifiedJob} (hj : j ∈ s.jobs) {o : ℕ}
    (ho : (orgs o).isTenantRoot = true) : j.liveFor o = j.admittedFor o := by
  cases ha : j.admittedFor o with
  | false => simp [UnifiedJob.liveFor, ha]
  | true => simp [UnifiedJob.liveFor, ha, h.status j hj ⟨o, ho, ha⟩]

/-- Deleting a job keeps the counters honest exactly when it was not counted. -/
theorem Inv.delete_honest_iff (h : Inv orgs s) {j : UnifiedJob} (hj : j ∈ s.jobs) :
    Honest orgs (deleteJob s j.id) ↔ ¬ j.Counted orgs := by
  have hlive := live_delete h.nodup hj
  constructor
  · rintro hh ⟨o, ho, ha⟩
    have h₁ : counter s o = live (deleteJob s j.id) o := hh o ho
    have h₂ := h.honest o ho
    have h₃ := hlive o
    rw [h.liveFor_iff hj ho, ha, if_pos rfl] at h₃
    omega
  · intro hn o ho
    have ha : j.admittedFor o = false := by
      rw [← Bool.not_eq_true]
      exact fun ha => hn ⟨o, ho, ha⟩
    have h₂ := h.honest o ho
    have h₃ := hlive o
    rw [h.liveFor_iff hj ho, ha] at h₃
    show counter s o = _
    simp only [Bool.false_eq_true, if_false] at h₃
    omega

/-- Saving a job that is still counted keeps the counters honest exactly when the job is
not saved with a final status. -/
theorem Inv.save_honest_iff (h : Inv orgs s) {j : UnifiedJob} (hj : j ∈ s.jobs) (st : Status) :
    Honest orgs ⟨s.usage, modify UnifiedJob.id s.jobs j.id fun j => { j with status := st }⟩ ↔
      (st.terminal = true → ¬ j.Counted orgs) := by
  have hlive := live_modify h.nodup hj (fun j => { j with status := st }) s.usage
  constructor
  · rintro hh hst ⟨o, ho, ha⟩
    have h₁ : counter s o = live _ o := hh o ho
    have h₂ := h.honest o ho
    have h₃ := hlive o
    have hdead : UnifiedJob.liveFor o { j with status := st } = false := by
      simp [UnifiedJob.liveFor, hst]
    rw [h.liveFor_iff hj ho, ha, hdead, if_pos rfl] at h₃
    simp only [Bool.false_eq_true, if_false] at h₃
    omega
  · intro hn o ho
    have hsame : UnifiedJob.liveFor o { j with status := st } = j.liveFor o := by
      rw [h.liveFor_iff hj ho]
      cases ha : j.admittedFor o with
      | false => rw [UnifiedJob.liveFor, admittedFor_status, ha, Bool.false_and]
      | true =>
        have hst : st.terminal = false := by
          rw [← Bool.not_eq_true]
          exact fun hst => hn hst ⟨o, ho, ha⟩
        rw [UnifiedJob.liveFor, admittedFor_status, ha, hst]
        rfl
    have h₂ := h.honest o ho
    have h₃ := hlive o
    rw [hsame] at h₃
    show counter s o = _
    omega

theorem Inv.modify (h : Inv orgs s) {j : UnifiedJob} (hj : j ∈ s.jobs) {f : UnifiedJob → UnifiedJob}
    (hid : ∀ x, (f x).id = x.id) (hcls : ∀ x, (f x).cls = x.cls)
    (hst : (f j).Counted orgs → (f j).status.terminal = false)
    (hstage : (f j).stage = some .quota → (f j).admitted = false) {usage : ℕ → Option TenantUsage}
    (hh : Honest orgs ⟨usage, Keyed.modify UnifiedJob.id s.jobs j.id f⟩) :
    Inv orgs ⟨usage, Keyed.modify UnifiedJob.id s.jobs j.id f⟩ := by
  have hcases : ∀ y ∈ Keyed.modify UnifiedJob.id s.jobs j.id f, y = f j ∨ y ∈ s.jobs := fun y hy => by
    obtain ⟨x, hx, rfl⟩ := mem_modify.mp hy
    split_ifs with hk
    · exact .inl (congrArg f (eq_of_key h.nodup hx hj hk))
    · exact .inr hx
  refine ⟨by rw [keys_modify hid]; exact h.nodup, fun y hy => ?_, fun y hy => ?_, fun y hy => ?_, hh⟩
  · rcases hcases y hy with rfl | hy
    · rw [hcls]; exact h.concrete j hj
    · exact h.concrete y hy
  · rcases hcases y hy with rfl | hy
    · exact hst
    · exact h.status y hy
  · rcases hcases y hy with rfl | hy
    · exact hstage
    · exact h.staged y hy

theorem Inv.delete (h : Inv orgs s) (id : ℕ) (hh : Honest orgs (deleteJob s id)) :
    Inv orgs (deleteJob s id) :=
  ⟨nodup_remove h.nodup id, fun j hj => h.concrete j (mem_remove.mp hj).1,
    fun j hj => h.status j (mem_remove.mp hj).1, fun j hj => h.staged j (mem_remove.mp hj).1, hh⟩

/-- A stage after the quota gate changes no count. -/
theorem Inv.setStage (h : Inv orgs s) {j : UnifiedJob} (hj : j ∈ s.jobs) {stage : Option Stage}
    (hs : stage ≠ some .quota) : Inv orgs (setStage s j.id stage) := by
  refine h.modify hj (f := fun j => { j with stage := stage }) (fun _ => rfl) (fun _ => rfl)
    (h.status j hj) (fun hq => absurd hq hs) fun o ho => ?_
  have hlive := live_modify h.nodup hj (fun j => { j with stage := stage }) s.usage o
  have hsame : UnifiedJob.liveFor o { j with stage := stage } = j.liveFor o := rfl
  have hold := h.honest o ho
  rw [hsame] at hlive
  show counter s o = _
  omega

theorem Inv.create (h : Inv orgs s) {j : UnifiedJob} (hid : j.id ∉ s.jobs.map UnifiedJob.id)
    (hcls : j.cls ≠ .unifiedJob) (ha : j.admitted = false) : Inv orgs ⟨s.usage, s.jobs ++ [j]⟩ := by
  have hlive : ∀ o, j.liveFor o = false := fun o => by
    simp [UnifiedJob.liveFor, UnifiedJob.admittedFor, ha]
  have hmem : ∀ {p : UnifiedJob → Prop}, (∀ x ∈ s.jobs, p x) → p j → ∀ x ∈ s.jobs ++ [j], p x :=
    fun hp hpj x hx => (List.mem_append.mp hx).elim (hp x) fun hx => List.mem_singleton.mp hx ▸ hpj
  refine ⟨?_, hmem h.concrete hcls, hmem h.status fun ⟨o, _, hao⟩ => ?_,
    hmem h.staged fun _ => ha, fun o ho => ?_⟩
  · show ((s.jobs ++ [j]).map UnifiedJob.id).Nodup
    rw [List.map_append]
    refine List.nodup_append.mpr ⟨h.nodup, by simp, fun a ha b hb hab => ?_⟩
    simp only [List.map_cons, List.map_nil, List.mem_singleton] at hb
    exact hid (hb ▸ hab ▸ ha)
  · simp [UnifiedJob.admittedFor, ha] at hao
  · have hold := h.honest o ho
    show counter s o = _
    rw [live, List.countP_append, List.countP_singleton, hlive o]
    simpa [live] using hold

/-- The gate counts the job for its tenant exactly when it lets it pass. -/
theorem Inv.quotaGate (h : Inv orgs s) {j : UnifiedJob} (hj : j ∈ s.jobs)
    (hstage : j.stage = some .quota) (hst : j.status.terminal = false) (launch : Launch)
    (created now : Time) : Inv orgs (quotaGate orgs s j launch created now) := by
  have ha := h.staged j hj hstage
  have hnot : ∀ o, j.admittedFor o = false := fun o => by simp [UnifiedJob.admittedFor, ha]
  have hdead : ∀ o, j.liveFor o = false := fun o => by simp [UnifiedJob.liveFor, hnot]
  have hadm : ∀ usage o, live ⟨usage, Keyed.modify UnifiedJob.id s.jobs j.id UnifiedJob.letPass⟩ o =
      live s o + if j.organization = some o then 1 else 0 := fun usage o => by
    have hlive := live_modify h.nodup hj UnifiedJob.letPass usage o
    rw [hdead] at hlive
    by_cases ho : j.organization = some o <;>
      simpa [UnifiedJob.liveFor, UnifiedJob.admittedFor, UnifiedJob.letPass, hst, ho] using hlive
  have hmodify : ∀ {usage : ℕ → Option TenantUsage},
      Honest orgs ⟨usage, Keyed.modify UnifiedJob.id s.jobs j.id UnifiedJob.letPass⟩ →
      Inv orgs ⟨usage, Keyed.modify UnifiedJob.id s.jobs j.id UnifiedJob.letPass⟩ := fun hh =>
    h.modify hj (f := UnifiedJob.letPass) (fun _ => rfl) (fun _ => rfl) (fun _ => hst)
      (fun hq => by simp [UnifiedJob.letPass] at hq) hh
  unfold Tenancy.quotaGate
  cases horg : j.organization with
  | none =>
    refine hmodify fun o ho => ?_
    rw [hadm, horg]
    exact h.honest o ho
  | some o =>
    have hother : ∀ row o', o' ≠ o →
        counter { s with usage := Function.update s.usage o row } o' = counter s o' :=
      fun row o' hne => by simp [counter, Function.update_of_ne hne]
    have hself : ∀ row, counter { s with usage := Function.update s.usage o row } o =
        (row.map TenantUsage.concurrentJobsCount).getD 0 := fun row => by simp [counter]
    dsimp only
    have hgate : (orgs o).isTenantRoot = true → _ := fun hroot =>
      checkTenantQuota_concurrent hroot launch (s.usage o) created now
    generalize checkTenantQuota true (some (orgs o)) launch (s.usage o) created now = r at hgate ⊢
    split_ifs with hr
    · refine hmodify fun o' ho' => ?_
      rw [hadm, horg]
      have hold := h.honest o' ho'
      by_cases hne : o' = o
      · subst hne
        have hg := hgate ho'
        rw [if_pos hr] at hg
        rw [if_pos rfl, ← hold]
        exact (hself r.2).trans hg
      · rw [if_neg (by simpa using fun he => hne he.symm), ← hold]
        exact hother r.2 o' hne
    · have hinv : Inv orgs { s with usage := Function.update s.usage o r.2 } := by
        refine ⟨h.nodup, h.concrete, h.status, h.staged, fun o' ho' => ?_⟩
        have hold := h.honest o' ho'
        by_cases hne : o' = o
        · subst hne
          have hg := hgate ho'
          rw [if_neg hr] at hg
          exact ((hself r.2).trans hg).trans hold
        · exact (hother r.2 o' hne).trans hold
      refine hinv.delete j.id ((hinv.delete_honest_iff hj).mpr ?_)
      rintro ⟨o', -, ha'⟩
      rw [hnot] at ha'
      cases ha'

/-! ### One event -/

/-- The policy gate, the scanner and `signal_start` let a job go on or delete it. -/
def GateEffect (s : State) (id : ℕ) (ok : Bool) (s' : State) : Prop :=
  ∃ j ∈ s.jobs, j.id = id ∧ ((ok = false ∧ s' = deleteJob s j.id) ∨
    (ok = true ∧ ∃ stage, stage ≠ some .quota ∧ s' = setStage s j.id stage))

theorem exec_gate {id : ℕ} {ok : Bool} (h : exec orgs s (.gate id ok) = some s') :
    GateEffect s id ok s' := by
  obtain ⟨j, hf, h⟩ := Option.bind_eq_some_iff.mp h
  obtain ⟨hj, rfl⟩ := find_some hf
  refine ⟨j, hj, rfl, ?_⟩
  cases hst : j.stage with
  | none => simp [hst] at h
  | some stage =>
    cases stage with
    | quota | start => simp [hst] at h
    | policy | scanner =>
      rw [hst] at h
      cases ok with
      | false => exact .inl ⟨rfl, (Option.some.inj h).symm⟩
      | true => exact .inr ⟨rfl, _, by decide, (Option.some.inj h).symm⟩

theorem exec_signalStart {id : ℕ} {ok : Bool} (h : exec orgs s (.signalStart id ok) = some s') :
    GateEffect s id ok s' := by
  obtain ⟨j, hf, h'⟩ := Option.bind_eq_some_iff.mp h
  obtain ⟨hj, rfl⟩ := find_some hf
  refine ⟨j, hj, rfl, ?_⟩
  have hst : j.stage = some .start := by
    by_contra hst
    rw [if_neg hst] at h'
    cases h'
  rw [if_pos hst] at h'
  cases ok with
  | false => exact .inl ⟨rfl, (Option.some.inj h').symm⟩
  | true => exact .inr ⟨rfl, none, by decide, (Option.some.inj h').symm⟩

theorem exec_save (h : Inv orgs s) {id : ℕ} {st : Status}
    (hs : exec orgs s (.save id st) = some s') : ∃ j ∈ s.jobs, j.id = id ∧
      s' = ⟨s.usage, modify UnifiedJob.id s.jobs j.id fun j => { j with status := st }⟩ := by
  obtain ⟨j, hf, hs⟩ := Option.bind_eq_some_iff.mp hs
  obtain ⟨hj, rfl⟩ := find_some hf
  refine ⟨j, hj, rfl, ?_⟩
  -- the receiver is not connected to the class of the job
  rw [← Option.some.inj hs, postSave_of_concrete]
  exact h.concrete j hj

theorem exec_create {id : ℕ} {cls : JobClass} {organization : Option ℕ} {launched : Bool}
    (h : exec orgs s (.create id cls organization launched) = some s') : ∃ j : UnifiedJob,
      j.id ∉ s.jobs.map UnifiedJob.id ∧ j.cls ≠ .unifiedJob ∧ j.admitted = false ∧
      s' = ⟨s.usage, s.jobs ++ [j]⟩ := by
  have hc : ¬ (id ∈ s.jobs.map UnifiedJob.id ∨ cls = .unifiedJob) := fun hc => by
    simp only [exec, if_pos hc] at h
    cases h
  simp only [exec, if_neg hc] at h
  rw [not_or] at hc
  refine ⟨⟨id, cls, organization, .new, if launched then some .quota else none, false⟩,
    hc.1, hc.2, rfl, ?_⟩
  rw [← Option.some.inj h, postSave_of_concrete]
  exact hc.2

/-- Deleting the job is honest exactly when it was not counted, going on always is. -/
theorem GateEffect.honest_iff (h : Inv orgs s) {id : ℕ} {ok : Bool} (hs : GateEffect s id ok s') :
    Honest orgs s' ↔ (ok = false → ∀ j ∈ s.jobs, j.id = id → ¬ j.Counted orgs) := by
  obtain ⟨j, hj, rfl, ⟨rfl, rfl⟩ | ⟨rfl, stage, hstage, rfl⟩⟩ := hs
  · rw [h.delete_honest_iff hj]
    constructor
    · intro hn _ x hx hid
      rwa [eq_of_key h.nodup hx hj hid]
    · exact fun hn => hn rfl j hj rfl
  · exact iff_of_true (h.setStage hj hstage).honest fun hf => by cases hf

theorem GateEffect.inv (h : Inv orgs s) {id : ℕ} {ok : Bool} (hs : GateEffect s id ok s')
    (hh : Honest orgs s') : Inv orgs s' := by
  obtain ⟨j, hj, rfl, ⟨rfl, rfl⟩ | ⟨rfl, stage, hstage, rfl⟩⟩ := hs
  · exact h.delete j.id hh
  · exact h.setStage hj hstage

/-- A guarded event keeps the invariant. -/
theorem Inv.step (h : Inv orgs s) {e : Event} (hs : exec orgs s e = some s')
    (hg : Guard orgs s e) : Inv orgs s' := by
  cases e with
  | create id cls organization launched =>
    obtain ⟨j, hid, hcls, ha, rfl⟩ := exec_create hs
    exact h.create hid hcls ha
  | quotaGate id launch created now =>
    obtain ⟨j, hf, hs'⟩ := Option.bind_eq_some_iff.mp hs
    obtain ⟨hj, rfl⟩ := find_some hf
    split_ifs at hs' with hstage
    rw [← Option.some.inj hs']
    exact h.quotaGate hj hstage (hg j hj rfl) launch created now
  | gate id ok =>
    have heff := exec_gate hs
    exact heff.inv h ((heff.honest_iff h).mpr hg)
  | signalStart id ok =>
    have heff := exec_signalStart hs
    exact heff.inv h ((heff.honest_iff h).mpr hg)
  | save id st =>
    obtain ⟨j, hj, rfl, rfl⟩ := exec_save h hs
    have hn : st.terminal = true → ¬ j.Counted orgs := fun hst => hg hst j hj rfl
    refine h.modify hj (f := fun j => { j with status := st }) (fun _ => rfl) (fun _ => rfl)
      (fun hc => ?_) (h.staged j hj) ((h.save_honest_iff hj st).mpr hn)
    rw [← Bool.not_eq_true]
    exact fun hst => hn hst hc

/-- Apart from the quota gate itself, an event that leaves the counters honest is guarded. -/
theorem Inv.honest_iff (h : Inv orgs s) {e : Event} (hs : exec orgs s e = some s')
    (he : ∀ id launch created now, e ≠ .quotaGate id launch created now) :
    Honest orgs s' ↔ Guard orgs s e := by
  refine ⟨fun hh => ?_, fun hg => (h.step hs hg).honest⟩
  cases e with
  | create => trivial
  | quotaGate id launch created now => exact absurd rfl (he id launch created now)
  | gate id ok => exact ((exec_gate hs).honest_iff h).mp hh
  | signalStart id ok => exact ((exec_signalStart hs).honest_iff h).mp hh
  | save id st =>
    obtain ⟨j, hj, rfl, rfl⟩ := exec_save h hs
    intro hst x hx hid
    rw [eq_of_key h.nodup hx hj hid]
    exact (h.save_honest_iff hj st).mp hh hst

/-! ### Runs -/

end Steps

/-! One tenant without limits, and one job that runs to its end. -/

def freeTenant : Organization := ⟨"tenant", true, none, none, none, none⟩

end Forail.Tenancy
