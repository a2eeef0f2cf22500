import Forail.Api.Webhooks

/-! Runs of deliveries. A job is created only for a verified request. The header of a
signature is taken apart by an assignment that raises unless the header has exactly one equals
sign, and two deliveries of an event that are both between the test and the creation create
two jobs. -/

namespace Forail.Webhooks

/-! ### Signatures -/

/-- The signature or token of the request is the one of the key. -/
def Verifies (lib : Library) (r : Request) (key : String) : Prop :=
  key ≠ "" ∧ match r.service with
  | .github =>
    r.META "HTTP_X_HUB_SIGNATURE" = some ("sha1=" ++ hexdigest (lib.hmac .sha1 key r.body))
  | .bitbucketDc =>
    r.META "HTTP_X_HUB_SIGNATURE" = some ("sha1=" ++ hexdigest (lib.hmac .sha1 key r.body)) ∨
      r.META "HTTP_X_HUB_SIGNATURE" = some ("sha256=" ++ hexdigest (lib.hmac .sha256 key r.body))
  | .gitlab => r.META "HTTP_X_GITLAB_TOKEN" = some key

/-- The algorithms that a receiver accepts. -/
def algorithms : Service → List String
  | .github => ["sha1"]
  | .bitbucketDc => ["sha1", "sha256"]
  | .gitlab => []

/-- The header names an accepted algorithm and, after one equals sign, a signature. -/
def IsSignature (service : Service) (header : String) : Prop :=
  ∃ alg ∈ algorithms service, ∃ sig, '=' ∉ sig ∧ header.toList = alg.toList ++ '=' :: sig

/-- The header with the signature, or the token, is there and readable. -/
def WellFormed (r : Request) : Prop :=
  match r.service with
  | .github | .bitbucketDc =>
    ∃ h, r.META "HTTP_X_HUB_SIGNATURE" = some h ∧ IsSignature r.service h
  | .gitlab => ∃ t, r.META "HTTP_X_GITLAB_TOKEN" = some t ∧ t ≠ ""

/-- The assignment that takes the header apart does not raise. -/
def Splits (r : Request) : Prop :=
  match r.service with
  | .github | .bitbucketDc =>
    ∀ h ∈ r.META "HTTP_X_HUB_SIGNATURE", h ≠ "" → h.toList.count '=' = 1
  | .gitlab => True

instance (r : Request) : Decidable (Splits r) := by
  unfold Splits
  cases r.service <;> infer_instance

theorem split_of_count {l : List Char} (h : l.count '=' = 1) :
    ∃ a b, '=' ∉ a ∧ '=' ∉ b ∧ l = a ++ '=' :: b := by
  have hmem : '=' ∈ l := List.count_pos_iff.mp (by omega)
  obtain ⟨a, b, rfl⟩ := List.append_of_mem hmem
  rw [List.count_append, List.count_cons_self] at h
  exact ⟨a, b, List.count_eq_zero.mp (by omega), List.count_eq_zero.mp (by omega), rfl⟩

theorem splitSignature_of_count {h : String} (hc : h.toList.count '=' = 1) :
    ∃ a b, '=' ∉ b ∧ h.toList = a ++ '=' :: b ∧
      splitSignature h = .ok (String.ofList a, String.ofList b) := by
  obtain ⟨a, b, ha, hb, hl⟩ := split_of_count hc
  refine ⟨a, b, hb, hl, ?_⟩
  rw [splitSignature, hl, List.splitOn_append_cons_self, List.splitOn_eq_singleton ha,
    List.splitOn_eq_singleton hb]
  rfl

theorem splitSignature_ok {h a b : String} (hs : splitSignature h = .ok (a, b)) :
    h = a ++ "=" ++ b := by
  have hl : List.intercalate ['='] (h.toList.splitOn '=') = h.toList := List.intercalate_splitOn '='
  unfold splitSignature at hs
  split at hs
  · rename_i hashAlg signature heq
    cases hs
    rw [heq] at hl
    apply String.toList_inj.mp
    rw [← hl]
    simp
  · cases hs

section Check
variable {lib : Library} {r : Request} {key : String}

theorem getSignature_ok {a b : String} (h : getSignature r = .ok (a, b)) :
    r.META "HTTP_X_HUB_SIGNATURE" = some (a ++ "=" ++ b) ∧ (r.service = .github → a = "sha1") := by
  unfold getSignature at h
  split at h
  · cases h
  · cases h
  · rename_i headerSig hne hm
    cases hs : splitSignature headerSig with
    | error e => rw [hs] at h; cases h
    | ok p =>
      rw [hs] at h
      obtain ⟨hashAlg, signature⟩ := p
      change (if r.service = .github ∧ hashAlg ≠ "sha1" then Except.error Failure.permissionDenied
        else Except.ok (hashAlg, signature)) = _ at h
      split_ifs at h with hc
      cases h
      refine ⟨by rw [hm, splitSignature_ok hs], fun hg => ?_⟩
      by_contra hne
      exact hc ⟨hg, hne⟩

/-- Where a signature is due, a readable header with another algorithm is denied. -/
theorem getSignature_denied (hs : Splits r) (hw : ¬ WellFormed r) (hg : r.service ≠ .gitlab) :
    getSignature r = .error .permissionDenied ∨
      ∃ a b, getSignature r = .ok (a, b) ∧ a ∉ algorithms r.service := by
  have hsplits : ∀ h ∈ r.META "HTTP_X_HUB_SIGNATURE", h ≠ "" → h.toList.count '=' = 1 := by
    unfold Splits at hs
    cases hsv : r.service <;> simp_all
  have hread : ∀ h, r.META "HTTP_X_HUB_SIGNATURE" = some h → ¬ IsSignature r.service h := by
    intro h hm hi
    unfold WellFormed at hw
    cases hsv : r.service <;> simp_all
  unfold getSignature
  split
  · exact .inl rfl
  · exact .inl rfl
  · rename_i headerSig hne hm
    obtain ⟨a, b, hb, hl, hsplit⟩ := splitSignature_of_count (hsplits _ hm fun he => hne he)
    have hnot : String.ofList a ∉ algorithms r.service := fun ha =>
      hread _ hm ⟨_, ha, b, hb, by rw [hl, String.toList_ofList]⟩
    rw [hsplit]
    change (if r.service = .github ∧ String.ofList a ≠ "sha1" then
      Except.error Failure.permissionDenied
      else Except.ok (String.ofList a, String.ofList b)) = _ ∨ ∃ c d,
        (if r.service = .github ∧ String.ofList a ≠ "sha1" then
          Except.error Failure.permissionDenied
          else Except.ok (String.ofList a, String.ofList b)) = _ ∧ _
    split_ifs with hc
    · exact .inl rfl
    · exact .inr ⟨_, _, rfl, hnot⟩

theorem checkHubSignature_eq (hk : key ≠ "") (hm : mustCheckSignature r = true) :
    checkHubSignature r lib key = (do
      let (hashAlg, expectedDigest) ← getSignature r
      let mac ← match hashAlg with
        | "sha1" => .ok (lib.hmac .sha1 key r.body)
        | "sha256" => .ok (lib.hmac .sha256 key r.body)
        | _ => .error .permissionDenied
      if hexdigest mac ≠ expectedDigest then .error .permissionDenied else .ok ()) := by
  rw [checkHubSignature, if_neg hk, hm]
  rfl

theorem checkHubSignature_ok (hg : r.service ≠ .gitlab) (hm : mustCheckSignature r = true)
    (h : checkHubSignature r lib key = .ok ()) : Verifies lib r key := by
  have hk : key ≠ "" := fun hk => by
    rw [checkHubSignature, if_pos hk] at h
    cases h
  rw [checkHubSignature_eq hk hm] at h
  refine ⟨hk, ?_⟩
  cases hs : getSignature r with
  | error e => rw [hs] at h; cases h
  | ok p =>
    rw [hs] at h
    obtain ⟨hashAlg, expected⟩ := p
    obtain ⟨hmeta, halg⟩ := getSignature_ok hs
    dsimp only [bind, Except.bind] at h
    have hexpected : ∀ mac, (if hexdigest mac ≠ expected then Except.error Failure.permissionDenied
        else Except.ok ()) = Except.ok () → expected = hexdigest mac := fun mac hmac => by
      split_ifs at hmac with hne
      exact (not_not.mp hne).symm
    split at h
    · have he := hexpected _ h
      cases hsv : r.service with
      | github => exact he ▸ hmeta
      | bitbucketDc => exact .inl (he ▸ hmeta)
      | gitlab => exact absurd hsv hg
    · have he := hexpected _ h
      cases hsv : r.service with
      | github => exact absurd (halg hsv) (by decide)
      | bitbucketDc => exact .inr (he ▸ hmeta)
      | gitlab => exact absurd hsv hg
    · cases h

theorem checkHubSignature_denied (hg : r.service ≠ .gitlab) (hm : mustCheckSignature r = true)
    (hs : Splits r) (hw : ¬ WellFormed r) :
    checkHubSignature r lib key = .error .permissionDenied := by
  by_cases hk : key = ""
  · rw [checkHubSignature, if_pos hk]
  · rw [checkHubSignature_eq hk hm]
    rcases getSignature_denied hs hw hg with h | ⟨a, b, h, ha⟩
    · rw [h]
      rfl
    · rw [h]
      obtain ⟨-, halg⟩ := getSignature_ok h
      dsimp only [bind, Except.bind]
      split
      · exact absurd (by cases hsv : r.service <;> simp_all [algorithms]) ha
      · rename_i mac
        cases hsv : r.service with
        | github => exact absurd (halg hsv) (by decide)
        | bitbucketDc => exact absurd (by simp [hsv, algorithms]) ha
        | gitlab => exact absurd hsv hg
      · rfl

theorem checkToken_ok (hg : r.service = .gitlab) (h : checkToken r key = .ok ()) :
    Verifies lib r key := by
  unfold checkToken at h
  split_ifs at h with hk ht
  refine ⟨hk, ?_⟩
  rw [hg]
  cases hm : r.META "HTTP_X_GITLAB_TOKEN" with
  | none => exact absurd (by simpa [hm] using ht) hk
  | some t =>
    rw [hm] at ht
    exact congrArg some (not_not.mp ht).symm

theorem checkToken_denied (hg : r.service = .gitlab) (hw : ¬ WellFormed r) :
    checkToken r key = .error .permissionDenied := by
  unfold WellFormed at hw
  rw [hg] at hw
  unfold checkToken
  split_ifs with hk ht
  · rfl
  · rfl
  · refine absurd ?_ hw
    cases hm : r.META "HTTP_X_GITLAB_TOKEN" with
    | none => exact absurd (by simpa [hm] using ht) hk
    | some t =>
      rw [hm] at ht
      exact ⟨t, rfl, fun he => hk ((not_not.mp ht).trans he)⟩

/-- What passes the check verifies, or was not to be signed. -/
theorem checkSignature_ok (hm : mustCheckSignature r = true)
    (h : checkSignature r lib key = .ok ()) : Verifies lib r key := by
  unfold checkSignature at h
  cases hs : r.service with
  | github | bitbucketDc => exact checkHubSignature_ok (by simp [hs]) hm (by simpa [hs] using h)
  | gitlab => exact checkToken_ok hs (by simpa [hs] using h)

theorem checkSignature_denied (hm : mustCheckSignature r = true) (hs : Splits r)
    (hw : ¬ WellFormed r) : checkSignature r lib key = .error .permissionDenied := by
  unfold checkSignature
  cases hsv : r.service with
  | github | bitbucketDc => exact checkHubSignature_denied (by simp [hsv]) hm hs hw
  | gitlab => exact checkToken_denied hsv hw

/-- An event that is not signed is ignored. -/
theorem isIgnored_of_unsigned (h : mustCheckSignature r = false) : isIgnoredRequest r = true := by
  unfold mustCheckSignature at h
  unfold isIgnoredRequest
  cases hs : r.service with
  | github | gitlab => simp [hs] at h
  | bitbucketDc =>
    simp only [hs, ne_eq, decide_not, Bool.not_eq_eq_eq_not, Bool.not_false, decide_eq_true_eq] at h
    simp [h]

end Check

/-! ### Events -/

/-- The delivery is between the test and the creation. -/
def Delivery.isUnseen (dl : Delivery) : Bool :=
  match dl.phase with
  | .unseen _ _ => true
  | .verified _ _ | .answered _ => false

def Delivery.isAnswered (dl : Delivery) : Bool :=
  match dl.phase with
  | .answered _ => true
  | .verified _ _ | .unseen _ _ => false

/-- The delivery of this event is between the test and the creation. -/
def Delivery.pendingFor (lib : Library) (dl : Delivery) (pk : ℕ) (guid : String) : Bool :=
  dl.isUnseen && dl.request.pk = pk && getEventGuid dl.request lib = some guid

/-- What a step must meet: a header that is to be taken apart has one equals sign, and an
event is tested only while no other delivery of it waits for its creation. -/
def Clear (lib : Library) (s : State) : Event → Prop
  | .receive _ r => (∃ obj, getObject r s.templates = .ok obj) → mustCheckSignature r = true → Splits r
  | .check d => ∀ dl ∈ s.deliveries.get? d, ∀ guid ∈ getEventGuid dl.request lib, guid ≠ "" →
      ∀ e ∈ s.deliveries.entries, e.2.pendingFor lib dl.request.pk guid = false
  | .create _ | .fail _ | .setKey _ _ => True

instance (r : Request) (templates : ℕ → Option Template) :
    Decidable (∃ obj, getObject r templates = .ok obj) :=
  match h : getObject r templates with
  | .ok obj => .isTrue ⟨obj, rfl⟩
  | .error _ => .isFalse fun ⟨_, h'⟩ => by cases h'

instance (lib : Library) (s : State) (e : Event) : Decidable (Clear lib s e) := by
  cases e <;> unfold Clear <;> infer_instance

/-- Jobs come from verified requests, unreadable signatures are denied, and an event has at
most one job. -/
structure Honest (lib : Library) (s : State) : Prop where
  verified : ∀ j ∈ s.jobs, ∃ dl key, s.deliveries.get? j.delivery = some dl ∧
    dl.webhookKey = some key ∧ Verifies lib dl.request key ∧ dl.request.pk = j.unifiedJobTemplate
  denied : ∀ d dl, s.deliveries.get? d = some dl → mustCheckSignature dl.request = true →
    ¬ WellFormed dl.request → dl.phase = .answered .permissionDenied
  once : ∀ pk guid, guid ≠ "" →
    (s.jobs.filter fun j => j.unifiedJobTemplate = pk && j.webhookGuid = guid).length ≤ 1

/-! ### The invariant -/

/-- What holds of a delivery whatever the others do. -/
structure DeliveryInv (lib : Library) (templates : ℕ → Option Template) (dl : Delivery) : Prop where
  denied : mustCheckSignature dl.request = true → ¬ WellFormed dl.request →
    dl.phase = .answered .permissionDenied
  verified : dl.isAnswered = false → ∃ key, dl.webhookKey = some key ∧ Verifies lib dl.request key
  service : dl.isAnswered = false → ∃ obj, templates dl.request.pk = some obj ∧
    obj.webhookService = some dl.request.service

structure Inv (lib : Library) (s : State) : Prop where
  honest : Honest lib s
  deliveries : ∀ d dl, s.deliveries.get? d = some dl → DeliveryInv lib s.templates dl
  service : ∀ j ∈ s.jobs, ∃ obj, s.templates j.unifiedJobTemplate = some obj ∧
    obj.webhookService = some j.webhookService
  done : ∀ j ∈ s.jobs, ∃ dl, s.deliveries.get? j.delivery = some dl ∧ dl.isAnswered = true
  unseen : ∀ d dl, s.deliveries.get? d = some dl → ∀ pk guid, guid ≠ "" →
    dl.pendingFor lib pk guid = true →
    (∀ j ∈ s.jobs, j.unifiedJobTemplate = pk → j.webhookGuid ≠ guid) ∧
    ∀ d' dl', s.deliveries.get? d' = some dl' → dl'.pendingFor lib pk guid = true → d' = d

section Receive
variable {lib : Library} {templates : ℕ → Option Template} {r : Request} {obj : Template}

theorem getObject_ok (h : getObject r templates = .ok obj) :
    templates r.pk = some obj ∧ obj.webhookService = some r.service := by
  unfold getObject at h
  split at h
  · rename_i model obj' hm ho
    split_ifs at h with hc
    cases h
    exact ⟨ho, hc.2.1⟩
  · cases h

theorem getObject_error {e : Failure} (h : getObject r templates = .error e) :
    e = .permissionDenied := by
  unfold getObject at h
  split at h
  · split_ifs at h with hc
    cases h
    rfl
  · cases h
    rfl

theorem beforeCheck_denied (hm : mustCheckSignature r = true) (hs : Splits r)
    (hw : ¬ WellFormed r) : beforeCheck lib r obj = .answered .permissionDenied := by
  rw [beforeCheck, checkSignature_denied hm hs hw]
  rfl

/-- A delivery that is not answered yet was verified. -/
theorem beforeCheck_verified {obj' : Template} {vars : List (String × Value)}
    (h : beforeCheck lib r obj = .verified obj' vars) : Verifies lib r obj.webhookKey := by
  unfold beforeCheck at h
  split at h
  · cases h
  · rename_i hok
    split_ifs at h with hi
    have hm : mustCheckSignature r = true := by
      by_contra hne
      exact hi (isIgnored_of_unsigned (by simpa using hne))
    exact checkSignature_ok hm hok

theorem beforeCheck_not_unseen {obj' : Template} {vars : List (String × Value)} :
    beforeCheck lib r obj ≠ .unseen obj' vars := by
  unfold beforeCheck
  split
  · simp
  · split_ifs
    · simp
    · split <;> simp

theorem receive_inv (lib : Library)
    (hc : (∃ obj, getObject r templates = .ok obj) → mustCheckSignature r = true → Splits r) :
    DeliveryInv lib templates (receive lib templates r) ∧
      (receive lib templates r).isUnseen = false := by
  unfold receive
  cases hg : getObject r templates with
  | error e =>
    rw [getObject_error hg]
    exact ⟨⟨fun _ _ => rfl, fun h => (by cases h), fun h => (by cases h)⟩, rfl⟩
  | ok obj =>
    refine ⟨⟨fun hm hw => ?_, fun ha => ⟨_, rfl, ?_⟩, fun _ => ⟨obj, getObject_ok hg⟩⟩, ?_⟩
    · exact beforeCheck_denied hm (hc ⟨obj, hg⟩ hm) hw
    · cases hp : beforeCheck lib r obj with
      | answered response => simp [Delivery.isAnswered, hp] at ha
      | verified obj' vars => exact beforeCheck_verified hp
      | unseen obj' vars => exact absurd hp beforeCheck_not_unseen
    · cases hp : beforeCheck lib r obj with
      | answered response => simp [Delivery.isUnseen, hp]
      | verified obj' vars => simp [Delivery.isUnseen, hp]
      | unseen obj' vars => exact absurd hp beforeCheck_not_unseen

end Receive

/-! ### Steps -/

section Steps
variable {lib : Library} {s s' : State}

theorem pendingFor_iff {dl : Delivery} {pk : ℕ} {guid : String} :
    dl.pendingFor lib pk guid = true ↔
      dl.isUnseen = true ∧ dl.request.pk = pk ∧ getEventGuid dl.request lib = some guid := by
  simp [Delivery.pendingFor, and_assoc]

theorem unseen_not_answered {dl : Delivery} (h : dl.isUnseen = true) : dl.isAnswered = false := by
  unfold Delivery.isUnseen at h
  unfold Delivery.isAnswered
  cases hp : dl.phase <;> simp_all

/-- A delivery that is not answered goes on; it enters the window only with a new event. -/
theorem Inv.setPhase (h : Inv lib s) {d : ℕ} {dl : Delivery} (hd : s.deliveries.get? d = some dl)
    (ha : dl.isAnswered = false) {p : Phase}
    (hp : Delivery.isUnseen { dl with phase := p } = true → ∀ guid, guid ≠ "" →
      getEventGuid dl.request lib = some guid →
      (∀ j ∈ s.jobs, j.unifiedJobTemplate = dl.request.pk → j.webhookGuid ≠ guid) ∧
      ∀ d' dl', s.deliveries.get? d' = some dl' →
        dl'.pendingFor lib dl.request.pk guid = true → d' = d) :
    Inv lib (s.setPhase d dl p) := by
  have hinv := h.deliveries d dl hd
  have hwell : mustCheckSignature dl.request = true → WellFormed dl.request := fun hm => by
    by_contra hw
    rw [Delivery.isAnswered, hinv.denied hm hw] at ha
    cases ha
  -- the delivery of a job is another one
  have hne : ∀ j ∈ s.jobs, d ≠ j.delivery := fun j hj he => by
    obtain ⟨dl', hdl', hans⟩ := h.done j hj
    rw [← he, hd] at hdl'
    cases hdl'
    rw [ha] at hans
    cases hans
  have hget : ∀ j ∈ s.jobs, (s.setPhase d dl p).deliveries.get? j.delivery =
      s.deliveries.get? j.delivery := fun j hj => by
    rw [State.setPhase, Dict.get?_set, if_neg fun he => hne j hj he.symm]
  refine ⟨⟨fun j hj => ?_, fun d' dl' hd' hm hw => ?_, h.honest.once⟩, fun d' dl' hd' => ?_,
    h.service, fun j hj => ?_, fun d' dl' hd' pk guid hg hpend => ?_⟩
  · rw [hget j hj]
    exact h.honest.verified j hj
  · rcases Dict.of_get?_set hd' with ⟨rfl, rfl⟩ | ⟨-, hd'⟩
    · exact absurd (hwell hm) hw
    · exact h.honest.denied d' dl' hd' hm hw
  · rcases Dict.of_get?_set hd' with ⟨rfl, rfl⟩ | ⟨-, hd'⟩
    · exact ⟨fun hm hw => absurd (hwell hm) hw, fun _ => hinv.verified ha, fun _ => hinv.service ha⟩
    · exact h.deliveries d' dl' hd'
  · rw [hget j hj]
    exact h.done j hj
  · rcases Dict.of_get?_set hd' with ⟨rfl, rfl⟩ | ⟨hdne, hd₁⟩
    · obtain ⟨hu, hpk, hguid⟩ := pendingFor_iff.mp hpend
      obtain ⟨hjobs, halone⟩ := hp hu guid hg hguid
      refine ⟨hpk ▸ hjobs, fun d₂ dl₂ hd₂ hpend₂ => ?_⟩
      rcases Dict.of_get?_set hd₂ with ⟨rfl, -⟩ | ⟨-, hd₂⟩
      · rfl
      · exact halone d₂ dl₂ hd₂ (hpk ▸ hpend₂)
    · obtain ⟨hjobs, halone⟩ := h.unseen d' dl' hd₁ pk guid hg hpend
      refine ⟨hjobs, fun d₂ dl₂ hd₂ hpend₂ => ?_⟩
      rcases Dict.of_get?_set hd₂ with ⟨rfl, rfl⟩ | ⟨-, hd₂⟩
      · obtain ⟨hu, hpk, hguid⟩ := pendingFor_iff.mp hpend₂
        obtain ⟨-, halone₂⟩ := hp hu guid hg hguid
        exact absurd (halone₂ d' dl' hd₁ (hpk ▸ hpend)) hdne
      · exact halone d₂ dl₂ hd₂ hpend₂

theorem Inv.receive (h : Inv lib s) {d : ℕ} {r : Request} (hd : s.deliveries.get? d = none)
    (hc : Clear lib s (.receive d r)) :
    Inv lib { s with deliveries := s.deliveries.set d (receive lib s.templates r) } := by
  obtain ⟨hinv, hu⟩ := receive_inv lib hc
  have hget : ∀ d' dl', s.deliveries.get? d' = some dl' →
      (s.deliveries.set d (Webhooks.receive lib s.templates r)).get? d' = some dl' :=
    fun d' dl' hd' => by
      rw [Dict.get?_set, if_neg, hd']
      rintro rfl
      rw [hd] at hd'
      cases hd'
  have hpend : ∀ pk guid,
      (Webhooks.receive lib s.templates r).pendingFor lib pk guid = false := fun pk guid => by
    simp [Delivery.pendingFor, hu]
  refine ⟨⟨fun j hj => ?_, fun d' dl' hd' hm hw => ?_, h.honest.once⟩, fun d' dl' hd' => ?_,
    h.service, fun j hj => ?_, fun d' dl' hd' pk guid hg hp => ?_⟩
  · obtain ⟨dl, key, hdl, hrest⟩ := h.honest.verified j hj
    exact ⟨dl, key, hget _ _ hdl, hrest⟩
  · rcases Dict.of_get?_set hd' with ⟨-, rfl⟩ | ⟨-, hd'⟩
    · exact hinv.denied hm hw
    · exact h.honest.denied d' dl' hd' hm hw
  · rcases Dict.of_get?_set hd' with ⟨-, rfl⟩ | ⟨-, hd'⟩
    · exact hinv
    · exact h.deliveries d' dl' hd'
  · obtain ⟨dl, hdl, hans⟩ := h.done j hj
    exact ⟨dl, hget _ _ hdl, hans⟩
  · rcases Dict.of_get?_set hd' with ⟨-, rfl⟩ | ⟨-, hd'⟩
    · rw [hpend] at hp
      cases hp
    · obtain ⟨hjobs, halone⟩ := h.unseen d' dl' hd' pk guid hg hp
      refine ⟨hjobs, fun d₂ dl₂ hd₂ hp₂ => ?_⟩
      rcases Dict.of_get?_set hd₂ with ⟨-, rfl⟩ | ⟨-, hd₂⟩
      · rw [hpend] at hp₂
        cases hp₂
      · exact halone d₂ dl₂ hd₂ hp₂

/-- Without a seen job there is none of the template with this guid: the service of a
template does not change. -/
theorem Inv.not_seen (h : Inv lib s) {d : ℕ} {dl : Delivery}
    (hd : s.deliveries.get? d = some dl) (ha : dl.isAnswered = false) {guid : String}
    (hs : s.seen dl.request (some guid) = false) :
    ∀ j ∈ s.jobs, j.unifiedJobTemplate = dl.request.pk → j.webhookGuid ≠ guid := by
  intro j hj hpk hguid
  obtain ⟨obj, hobj, hsv⟩ := h.service j hj
  obtain ⟨obj', hobj', hsv'⟩ := (h.deliveries d dl hd).service ha
  rw [hpk, hobj'] at hobj
  cases hobj
  rw [hsv] at hsv'
  have hno := List.any_eq_false.mp hs j hj
  exact hno (by simp [WebhookJob.isOf, hpk, hguid, Option.some.inj hsv'])

theorem Inv.check (h : Inv lib s) {d : ℕ} (hc : Clear lib s (.check d))
    (hs : exec lib s (.check d) = some s') : Inv lib s' := by
  obtain ⟨dl, hd, hs⟩ := Option.bind_eq_some_iff.mp hs
  cases hp : dl.phase with
  | answered response => simp [hp] at hs
  | unseen obj vars => simp [hp] at hs
  | verified obj vars =>
    have ha : dl.isAnswered = false := by simp [Delivery.isAnswered, hp]
    simp only [hp] at hs
    split_ifs at hs with hseen
    · cases hs
      exact h.setPhase hd ha fun hu => by cases hu
    · cases hs
      refine h.setPhase hd ha fun _ guid hg hguid => ⟨?_, fun d' dl' hd' hpend => ?_⟩
      · exact h.not_seen hd ha (by simpa [hguid] using hseen)
      · have hno := hc dl hd guid hguid hg _ (Dict.mem_entries_of_get? hd')
        rw [hno] at hpend
        cases hpend

theorem Inv.createJob (h : Inv lib s) {d : ℕ} {dl : Delivery}
    (hd : s.deliveries.get? d = some dl) (hu : dl.isUnseen = true) (obj : Template)
    (vars : List (String × Value)) : Inv lib (s.createJob lib d dl obj vars) := by
  have ha := unseen_not_answered hu
  have hanswer : ∀ response, Inv lib (s.setPhase d dl (.answered response)) := fun response =>
    h.setPhase hd ha fun hu => by cases hu
  unfold State.createJob
  split
  · exact hanswer _
  · rename_i guid hguid
    split_ifs with hlen
    · exact hanswer _
    · have hq := hanswer .queued
      have hself : (s.setPhase d dl (.answered .queued)).deliveries.get? d =
          some { dl with phase := .answered .queued } := by
        rw [State.setPhase, Dict.get?_set, if_pos rfl]
      obtain ⟨key, hkey, hver⟩ := (h.deliveries d dl hd).verified ha
      refine ⟨⟨fun j hj => ?_, hq.honest.denied, fun pk g hg => ?_⟩, hq.deliveries,
        fun j hj => ?_, fun j hj => ?_, fun d' dl' hd' pk g hg hpend => ?_⟩
      · rcases List.mem_cons.mp hj with rfl | hj
        · exact ⟨_, key, hself, hkey, hver, rfl⟩
        · exact hq.honest.verified j hj
      · have honce := h.honest.once pk g hg
        rw [List.filter_cons]
        split_ifs with hj
        · -- the new job is the first of its event
          simp only [Bool.and_eq_true, decide_eq_true_eq] at hj
          obtain ⟨hpk, hgd⟩ := hj
          obtain ⟨hjobs, -⟩ := h.unseen d dl hd pk g hg
            (pendingFor_iff.mpr ⟨hu, hpk, hgd ▸ hguid⟩)
          have hnil : (s.jobs.filter fun j => j.unifiedJobTemplate = pk && j.webhookGuid = g) = [] :=
            List.filter_eq_nil_iff.mpr fun j hj => by simpa using hjobs j hj
          change (_ :: s.jobs.filter _).length ≤ 1
          rw [hnil]
          exact Nat.le_refl 1
        · exact honce
      · rcases List.mem_cons.mp hj with rfl | hj
        · exact (h.deliveries d dl hd).service ha
        · exact hq.service j hj
      · rcases List.mem_cons.mp hj with rfl | hj
        · exact ⟨_, hself, rfl⟩
        · exact hq.done j hj
      · obtain ⟨hjobs, halone⟩ := hq.unseen d' dl' hd' pk g hg hpend
        refine ⟨fun j hj => ?_, halone⟩
        rcases List.mem_cons.mp hj with rfl | hj
        · -- no other delivery of the event is in the window
          rintro rfl rfl
          have hd'' : s.deliveries.get? d' = some dl' := by
            rcases Dict.of_get?_set hd' with ⟨rfl, rfl⟩ | ⟨-, hd'⟩
            · obtain ⟨hu', -⟩ := pendingFor_iff.mp hpend
              cases hu'
            · exact hd'
          obtain ⟨-, halone'⟩ := h.unseen d' dl' hd'' _ _ hg hpend
          have heq := halone' d dl hd (pendingFor_iff.mpr ⟨hu, rfl, hguid⟩)
          subst heq
          rw [hself] at hd'
          cases hd'
          obtain ⟨hu', -⟩ := pendingFor_iff.mp hpend
          cases hu'
        · exact hjobs j hj

theorem Inv.setKey (h : Inv lib s) {pk : ℕ} {obj : Template} (hobj : s.templates pk = some obj)
    (key : String) : Inv lib { s with
      templates := Function.update s.templates pk (some { obj with webhookKey := key }) } := by
  have hkeep : ∀ pk' service, (∃ o, s.templates pk' = some o ∧ o.webhookService = some service) →
      ∃ o, Function.update s.templates pk (some { obj with webhookKey := key }) pk' = some o ∧
        o.webhookService = some service := fun pk' service ⟨o, ho, hs⟩ => by
    by_cases hpk : pk' = pk
    · subst hpk
      rw [hobj] at ho
      cases ho
      exact ⟨_, Function.update_self .., hs⟩
    · exact ⟨o, by rw [Function.update_of_ne hpk]; exact ho, hs⟩
  refine ⟨⟨h.honest.verified, h.honest.denied, h.honest.once⟩, fun d dl hd => ?_,
    fun j hj => hkeep _ _ (h.service j hj), h.done, h.unseen⟩
  have hinv := h.deliveries d dl hd
  exact ⟨hinv.denied, hinv.verified, fun ha => hkeep _ _ (hinv.service ha)⟩

theorem Inv.step (h : Inv lib s) {e : Event} (hc : Clear lib s e) (hs : exec lib s e = some s') :
    Inv lib s' := by
  cases e with
  | receive d r =>
    obtain ⟨hd, hs⟩ := Option.ite_none_left_eq_some.mp hs
    cases hs
    exact h.receive (by simpa using hd) hc
  | check d => exact h.check hc hs
  | create d =>
    obtain ⟨dl, hd, hs⟩ := Option.bind_eq_some_iff.mp hs
    cases hp : dl.phase with
    | answered response => simp [hp] at hs
    | verified obj vars => simp [hp] at hs
    | unseen obj vars =>
      simp only [hp] at hs
      cases hs
      exact h.createJob hd (by simp [Delivery.isUnseen, hp]) obj vars
  | fail d =>
    obtain ⟨dl, hd, hs⟩ := Option.bind_eq_some_iff.mp hs
    have ha : dl.isAnswered = false := by
      cases hp : dl.phase <;> simp_all [Delivery.isAnswered]
    have hs' : s.setPhase d dl (.answered .serverError) = s' := by
      cases hp : dl.phase <;> simp_all
    rw [← hs']
    exact h.setPhase hd ha fun hu => by cases hu
  | setKey pk key =>
    obtain ⟨obj, hobj, hs⟩ := Option.bind_eq_some_iff.mp hs
    cases hs
    exact h.setKey hobj key

end Steps

/-- In runs whose steps are clear, jobs come from verified requests, unreadable signatures
are denied, and an event has at most one job. -/
theorem honest_of_clear (lib : Library) {s : State}
    (h : ((runs lib).restrict (Clear lib)).Reachable s) : Honest lib s := by
  have hinv : Inv lib s := System.Reachable.invariant (S := (runs lib).restrict (Clear lib))
    (fun s hs => by
      obtain ⟨hjobs, hdel⟩ := hs
      have hnone : ∀ d, s.deliveries.get? d = none := fun d => by rw [hdel, Dict.get?_empty]
      refine ⟨⟨by simp [hjobs], by simp [hnone], by simp [hjobs]⟩, by simp [hnone],
        by simp [hjobs], by simp [hjobs], by simp [hnone]⟩)
    (fun s e s' _ hI hs => hI.step hs.2 hs.1) h
  exact hinv.honest

/-! ### A retried delivery, and a header without an equals sign -/

section Runs

def anyLibrary : Library := ⟨fun _ _ _ => [0], fun _ => [1], fun _ => none, id⟩

def start (service : Service) : State :=
  ⟨fun pk => if pk = 7 then some ⟨.jobTemplate, some service, "secret", none⟩ else none, [], .empty⟩

def push : Request where
  service := .gitlab
  modelKwarg := "job_templates"
  pk := 7
  META := fun name => if name = "HTTP_X_GITLAB_TOKEN" then some "secret" else none
  body := []
  data := .null

/-- GitHub's header without an equals sign. -/
def unreadable : Request where
  service := .github
  modelKwarg := "job_templates"
  pk := 7
  META := fun name => if name = "HTTP_X_HUB_SIGNATURE" then some "sha1" else none
  body := []
  data := .null

theorem start_init (service : Service) : (runs anyLibrary).init (start service) := ⟨rfl, rfl⟩

/-- The second delivery of an event, tested after the first made its job, makes none. -/
theorem honest_of_clear_retried : ∃ s, s.jobs.length = 1 ∧
    (s.deliveries.get? 1).map Delivery.isAnswered = some true ∧ Honest anyLibrary s := by
  obtain ⟨s, hs, hjobs, hans⟩ : ∃ s, System.runAll (System.guarded (exec anyLibrary)
      (Clear anyLibrary)) (start .gitlab)
      [.receive 0 push, .receive 1 push, .check 0, .create 0, .check 1] = some s ∧
      s.jobs.length = 1 ∧ (s.deliveries.get? 1).map Delivery.isAnswered = some true :=
    System.exists_of_runAll (by decide)
  refine ⟨s, hjobs, hans, honest_of_clear anyLibrary ?_⟩
  exact System.Reachable.runAll_guarded (S := runs anyLibrary) (fun _ _ _ h => h)
    (.init (start_init .gitlab)) hs

theorem unreadable_not_wellFormed : ¬ WellFormed unreadable := by
  rintro ⟨h, hh, alg, -, sig, -, hl⟩
  cases hh
  have hmem : '=' ∈ "sha1".toList := by
    rw [hl]
    simp
  exact absurd hmem (by decide)

/-- Two parallel deliveries of one event make two jobs, and a header that cannot be taken
apart ends in a server error. -/
theorem parallel_not_honest :
    (∃ s, (runs anyLibrary).Reachable s ∧ ¬ Honest anyLibrary s ∧ 1 < s.jobs.length) ∧
    ∃ s, (runs anyLibrary).Reachable s ∧ ¬ Honest anyLibrary s ∧ s.jobs = [] := by
  constructor
  · obtain ⟨s, hs, htwo⟩ : ∃ s, System.runAll (exec anyLibrary) (start .gitlab)
        [.receive 0 push, .receive 1 push, .check 0, .check 1, .create 0, .create 1] = some s ∧
        1 < (s.jobs.filter fun j =>
          j.unifiedJobTemplate = 7 && j.webhookGuid = hexdigest [1]).length :=
      System.exists_of_runAll (by decide)
    refine ⟨s, System.Reachable.runAll (fun _ _ _ _ h => h) (.init (start_init .gitlab)) hs,
      fun h => ?_, Nat.lt_of_lt_of_le htwo (List.length_filter_le _ _)⟩
    exact absurd (h.once 7 (hexdigest [1]) (by decide)) (Nat.not_le.mpr htwo)
  · refine ⟨_, .step (.init (start_init .github)) (e := .receive 0 unreadable) rfl, fun h => ?_, rfl⟩
    have hphase := h.denied 0 (receive anyLibrary (start .github).templates unreadable) rfl rfl
      unreadable_not_wellFormed
    have hraised : (receive anyLibrary (start .github).templates unreadable).phase =
        .answered .serverError := by
      have hcheck : checkSignature unreadable anyLibrary "secret" = .error .other := by decide
      have hobj : getObject unreadable (start .github).templates =
        .ok ⟨.jobTemplate, some .github, "secret", none⟩ := rfl
      simp [receive, hobj, beforeCheck, hcheck, Failure.response]
    rw [hraised] at hphase
    cases hphase

end Runs

end Forail.Webhooks
