import Forail.Commands.RotatedSecrets

/-! The answers to password questions: the defaults of surveys, and the answers in the variables of jobs.
A job is read again for every key that occurs anywhere in its text, and its text is written anew with each
answer; an answer whose key does not occur as it is stays under the old key. -/

namespace Forail.Commands.RegenerateSecretKey

open Encryption

variable {ν : Type} {cx : Context ν}

/-- An encrypted answer is re-encrypted for the same text. -/
theorem reencryptValue_spec {newKey x : Str} (hkey : newKey ≠ []) {v : Value}
    (h : Carries cx.cipher cx.settingsKey valueUse (some x) (some v)) (draw : Draw) :
    ∃ s, cx.reencryptValue draw newKey v = some (.str s) ∧
      Carries cx.cipher newKey valueUse (some x) (some (.str s)) := by
  have hnew : Carries cx.cipher newKey valueUse (some x)
      (some (cx.encrypt draw valueUse newKey false (.str (String.ofList x)))) :=
    encryptField_secret cx.quote cx.settingsKey _ hkey h.1
  have hre : cx.reencryptValue draw newKey v =
      some (cx.encrypt draw valueUse newKey false (.str (String.ofList x))) := by
    unfold Context.reencryptValue
    rw [getEncryptionKey_self, h.decryptValue]
    rfl
  obtain ⟨nonce, hs⟩ := hnew.2
  rw [Option.some.inj hs] at hre hnew
  exact ⟨_, hre, hnew⟩

/-! ### Survey defaults -/

def SurveyTemplate.secrets (template : SurveyTemplate) : List Slot :=
  (template.questions.filter isPassword).map fun question => (valueUse, question.get? "default")

/-- A question after the command: of the same type, with a default for the same text. -/
structure SameQuestion (cx : Context ν) (newKey : Str) (question question' : Dict String Value) : Prop where
  password : isPassword question' = isPassword question
  kept : isPassword question = true → Kept cx.cipher cx.settingsKey newKey
    (valueUse, question.get? "default") (valueUse, question'.get? "default")

theorem sameQuestion_refl {newKey : Str} {question : Dict String Value}
    (h : isPassword question = true →
      Carries cx.cipher cx.settingsKey valueUse none (question.get? "default")) :
    SameQuestion cx newKey question question :=
  ⟨rfl, fun hpassword => by
    have hnew : Carries cx.cipher newKey valueUse none (question.get? "default") := h hpassword
    exact (kept_iff (h hpassword) hnew).mpr rfl⟩

theorem regenerateQuestion_spec {newKey : Str} (hkey : newKey ≠ []) {question : Dict String Value}
    (h : isPassword question = true →
      ∃ x, Carries cx.cipher cx.settingsKey valueUse x (question.get? "default"))
    (pk index : ℕ) :
    ∃ question', regenerateQuestion cx newKey pk question index = some question' ∧
      SameQuestion cx newKey question question' := by
  unfold regenerateQuestion
  cases hv : question.get? "default" with
  | none =>
    refine ⟨question, rfl, sameQuestion_refl fun _ => ?_⟩
    rw [hv]
    exact carries_none
  | some v =>
    rw [hv] at h
    dsimp only
    by_cases hpassword : isPassword question = true
    · obtain ⟨x, hx⟩ := h hpassword
      cases x with
      | none =>
        rw [hx.not_truth, Bool.and_false, if_neg (by decide)]
        refine ⟨question, rfl, sameQuestion_refl fun _ => ?_⟩
        rw [hv]
        exact hx
      | some x =>
        obtain ⟨s, hre, hs⟩ := reencryptValue_spec hkey hx (.question pk index)
        rw [hx.truth, hpassword, Bool.and_self, if_pos rfl, hre]
        refine ⟨_, rfl, ?_, fun _ => ?_⟩
        · unfold isPassword
          rw [Dict.get?_set, if_neg (by decide)]
        · rw [Dict.get?_set, if_pos rfl, hv]
          exact (kept_iff hx hs).mpr rfl
    · rw [Bool.not_eq_true] at hpassword
      rw [hpassword, Bool.false_and, if_neg (by decide)]
      refine ⟨question, rfl, sameQuestion_refl fun hp => ?_⟩
      rw [hpassword] at hp
      cases hp

theorem kept_filter {newKey : Str} {questions questions' : List (Dict String Value)}
    (h : List.Forall₂ (SameQuestion cx newKey) questions questions') :
    List.Forall₂ (Kept cx.cipher cx.settingsKey newKey)
      ((questions.filter isPassword).map fun q => (valueUse, q.get? "default"))
      ((questions'.filter isPassword).map fun q => (valueUse, q.get? "default")) := by
  induction h with
  | nil => exact .nil
  | @cons question question' questions questions' hq _ ih =>
    by_cases hpassword : isPassword question = true
    · rw [List.filter_cons_of_pos hpassword, List.filter_cons_of_pos (hq.password.trans hpassword)]
      exact .cons (hq.kept hpassword) ih
    · have hpassword' : ¬ isPassword question' = true := by rwa [hq.password]
      rw [List.filter_cons_of_neg hpassword, List.filter_cons_of_neg hpassword']
      exact ih

/-- A survey always keeps its defaults. -/
theorem SurveyTemplate.exists_regenerate {newKey : Str} (hkey : newKey ≠ [])
    {template : SurveyTemplate} (h : Protected cx.cipher cx.settingsKey template.secrets) :
    ∃ template', template.regenerate cx newKey = some template' ∧
      List.Forall₂ (Kept cx.cipher cx.settingsKey newKey) template.secrets template'.secrets := by
  have hquestion : ∀ q ∈ template.questions.zipIdx, ∃ question',
      regenerateQuestion cx newKey template.id q.1 q.2 = some question' ∧
        SameQuestion cx newKey q.1 question' := by
    intro q hq
    have hmem : q.1 ∈ template.questions := List.fst_mem_of_mem_zipIdx hq
    exact regenerateQuestion_spec hkey
      (fun hpassword => h _ (List.mem_map_of_mem (List.mem_filter.mpr ⟨hmem, hpassword⟩))) _ _
  obtain ⟨questions, hquestions, hall⟩ := exists_mapM_forall₂.mpr hquestion
  have hsame : List.Forall₂ (SameQuestion cx newKey) template.questions questions := by
    rw [← List.zipIdx_map_fst 0 template.questions, List.forall₂_map_left_iff]
    exact hall
  refine ⟨{ template with questions := questions }, ?_, kept_filter hsame⟩
  unfold SurveyTemplate.regenerate
  rw [hquestions]
  rfl

/-! ### Answers in the variables of a job -/

def Context.answer (cx : Context ν) (text : Str) (key : String) : Option Value :=
  (cx.variables text).bind fun es => es.lookup key

def SurveyJob.secrets (cx : Context ν) (job : SurveyJob) : List Slot :=
  job.surveyPasswords.keys.map fun key => (valueUse, cx.answer job.extraVars key)

def isAnswered (es : List (String × Value)) (key : String) : Bool :=
  (es.lookup key).any Value.truth

/-- The answered keys will be found: the first one in the text, the others in texts that are written,
where a key that has escapes in its own text need not occur. -/
def Found (es : List (String × Value)) (keys : List String) (text : Str) : Prop :=
  match keys.filter (isAnswered es) with
  | [] => True
  | key :: keys => Occurs key text ∧ ∀ key ∈ keys, Occurs key (Json.dumpsString key)

theorem isAnswered_iff {s : Str} {x : Option Str} {es : List (String × Value)} {key : String}
    (h : Carries cx.cipher s valueUse x (es.lookup key)) : isAnswered es key = true ↔ x ≠ none := by
  unfold isAnswered
  cases hv : es.lookup key with
  | none =>
    rw [hv] at h
    rw [carries_inj h carries_none]
    exact ⟨nofun, fun hne => absurd rfl hne⟩
  | some v =>
    rw [hv] at h
    rw [Option.any_some]
    cases x with
    | none =>
      rw [h.not_truth]
      exact ⟨nofun, fun hne => absurd rfl hne⟩
    | some x =>
      rw [h.truth]
      exact ⟨fun _ => nofun, fun _ => rfl⟩

theorem readable_of_variables {text : Str} {es : List (String × Value)}
    (h : cx.variables text = some es) : Json.Readable cx.readFloat (.dict es) := by
  unfold Context.variables at h
  split at h
  · rename_i es' hloads
    cases h
    exact Json.readable_of_loads cx.readFloat cx.rereads hloads
  · cases h

theorem variables_dumps {es : List (String × Value)} (h : Json.Readable cx.readFloat (.dict es)) :
    cx.variables (Json.dumps (.dict es)) = some es := by
  unfold Context.variables
  rw [Json.loads_dumps cx.readFloat h]

/-- A key that is answered occurs in a text that is written, if it occurs in its own. -/
theorem occurs_dumps {es : List (String × Value)} {key : String} (hanswered : isAnswered es key = true)
    (h : Occurs key (Json.dumpsString key)) : Occurs key (Json.dumps (.dict es)) := by
  obtain ⟨v, hv, -⟩ := (Option.any_eq_true _ _).mp hanswered
  obtain ⟨l₁, l₂, hl, -⟩ := List.lookup_eq_some_iff.mp hv
  have hmem : (key, v) ∈ es := by
    rw [hl]
    exact List.mem_append_right l₁ List.mem_cons_self
  exact (h.trans (Json.dumpsString_within hmem)).trans (Json.dumpsEntries_within es)

section Steps

variable {newKey : Str} {job : SurveyJob} {text : Str} {es : List (String × Value)} {key : String}

/-- A key without an answer changes nothing. -/
theorem regenerateAnswer_unanswered (hvars : cx.variables text = some es)
    (h : isAnswered es key = false) : job.regenerateAnswer cx newKey text key = some text := by
  by_cases hoccurs : Occurs key text
  · rw [job.regenerateAnswer_of_occurs cx hoccurs hvars]
    unfold isAnswered at h
    cases hv : es.lookup key with
    | none => rfl
    | some v =>
      rw [hv, Option.any_some] at h
      exact if_neg (by rw [h]; decide)
  · exact if_neg hoccurs

/-- A key that does not occur in the text changes nothing. -/
theorem regenerateAnswer_missing (h : ¬ Occurs key text) :
    job.regenerateAnswer cx newKey text key = some text := if_neg h

/-- An answer whose key occurs is re-encrypted, and the text written. -/
theorem regenerateAnswer_found (hkey : newKey ≠ []) (hvars : cx.variables text = some es) {x : Str}
    (hx : Carries cx.cipher cx.settingsKey valueUse (some x) (es.lookup key)) (h : Occurs key text) :
    ∃ s, job.regenerateAnswer cx newKey text key =
        some (Json.dumps (.dict (Dict.setEntries key (.str s) es))) ∧
      Carries cx.cipher newKey valueUse (some x) (some (.str s)) := by
  cases hv : es.lookup key with
  | none =>
    rw [hv] at hx
    cases carries_inj hx carries_none
  | some v =>
    rw [hv] at hx
    obtain ⟨s, hre, hs⟩ := reencryptValue_spec hkey hx (.answer job.id key)
    refine ⟨s, ?_, hs⟩
    rw [SurveyJob.regenerateAnswer_of_occurs cx h hvars, hv]
    change (if v.truth = true then _ else _) = _
    rw [if_pos hx.truth, hre]
    rfl

end Steps

section Runs

variable {newKey : Str} {job : SurveyJob}

/-- What a run makes of the answers: those of its keys are re-encrypted or left as they are, the others
are left. -/
structure Answers (cx : Context ν) (newKey : Str) (keys : List String)
    (es es' : List (String × Value)) : Prop where
  own : ∀ key ∈ keys, es'.lookup key = es.lookup key ∨ ∃ x,
    Carries cx.cipher cx.settingsKey valueUse x (es.lookup key) ∧
      Carries cx.cipher newKey valueUse x (es'.lookup key)
  other : ∀ key ∉ keys, es'.lookup key = es.lookup key

/-- All answers of the keys are for the same texts under the new key. -/
def Rotated (cx : Context ν) (newKey : Str) (keys : List String) (es es' : List (String × Value)) :
    Prop :=
  ∀ key ∈ keys, Kept cx.cipher cx.settingsKey newKey (valueUse, es.lookup key) (valueUse, es'.lookup key)

theorem protected_set {keys : List String} {es : List (String × Value)} {key : String} {v : Value}
    (hkeys : key ∉ keys)
    (h : ∀ key ∈ keys, ∃ x, Carries cx.cipher cx.settingsKey valueUse x (es.lookup key)) :
    ∀ key' ∈ keys, ∃ x, Carries cx.cipher cx.settingsKey valueUse x
      ((Dict.setEntries key v es).lookup key') := by
  intro key' hkey'
  have hne : key' ≠ key := fun heq => hkeys (heq ▸ hkey')
  rw [Dict.lookup_setEntries, if_neg hne]
  exact h key' hkey'

/-- A run over keys with protected answers always goes through. -/
theorem answers_run (hkey : newKey ≠ []) {keys : List String} (hnodup : keys.Nodup) {text : Str}
    {es : List (String × Value)} (hvars : cx.variables text = some es)
    (h : ∀ key ∈ keys, ∃ x, Carries cx.cipher cx.settingsKey valueUse x (es.lookup key)) :
    ∃ text' es', keys.foldlM (job.regenerateAnswer cx newKey) text = some text' ∧
      cx.variables text' = some es' ∧ Answers cx newKey keys es es' := by
  induction keys generalizing text es with
  | nil => exact ⟨text, es, rfl, hvars, nofun, fun _ _ => rfl⟩
  | cons key keys ih =>
    obtain ⟨hfresh, hnodup⟩ := List.nodup_cons.mp hnodup
    have hrest := fun key' hkey' => h key' (List.mem_cons_of_mem key hkey')
    obtain ⟨x, hx⟩ := h key List.mem_cons_self
    -- a key that changes nothing
    have hskip : job.regenerateAnswer cx newKey text key = some text →
        ∃ text' es', (key :: keys).foldlM (job.regenerateAnswer cx newKey) text = some text' ∧
          cx.variables text' = some es' ∧ Answers cx newKey (key :: keys) es es' := by
      intro hstep
      obtain ⟨text', es', hfold, hvars', hown, hother⟩ := ih hnodup hvars hrest
      refine ⟨text', es', ?_, hvars', fun key' hkey' => ?_, fun key' hkey' => ?_⟩
      · rw [List.foldlM_cons, hstep]
        exact hfold
      · rcases List.mem_cons.mp hkey' with rfl | hkey'
        · exact .inl (hother key' hfresh)
        · exact hown key' hkey'
      · rw [List.mem_cons, not_or] at hkey'
        exact hother key' hkey'.2
    by_cases hanswered : isAnswered es key = true
    · by_cases hoccurs : Occurs key text
      · obtain ⟨x, rfl⟩ := Option.ne_none_iff_exists'.mp ((isAnswered_iff hx).mp hanswered)
        obtain ⟨s, hstep, hs⟩ := @regenerateAnswer_found ν cx newKey job text es key hkey hvars x hx hoccurs
        have hread := (readable_of_variables hvars).set cx.readFloat key (v := .str s) trivial
        obtain ⟨text', es', hfold, hvars', hown, hother⟩ :=
          ih hnodup (variables_dumps hread) (protected_set hfresh hrest)
        refine ⟨text', es', ?_, hvars', fun key' hkey' => ?_, fun key' hkey' => ?_⟩
        · rw [List.foldlM_cons, hstep]
          exact hfold
        · rcases List.mem_cons.mp hkey' with rfl | hmem
          · refine .inr ⟨some x, hx, ?_⟩
            rw [hother key' hfresh, Dict.lookup_setEntries, if_pos rfl]
            exact hs
          · have hne : key' ≠ key := fun heq => hfresh (heq ▸ hmem)
            have hkeep := hown key' hmem
            rw [Dict.lookup_setEntries, if_neg hne] at hkeep
            exact hkeep
        · rw [List.mem_cons, not_or] at hkey'
          rw [hother key' hkey'.2, Dict.lookup_setEntries, if_neg hkey'.1]
      · exact hskip (regenerateAnswer_missing hoccurs)
    · rw [Bool.not_eq_true] at hanswered
      exact hskip (regenerateAnswer_unanswered hvars hanswered)

/-- The entries after a run over keys that it does not contain. -/
theorem lookup_of_run (hkey : newKey ≠ []) {keys : List String} (hnodup : keys.Nodup)
    {text text' : Str} {es es' : List (String × Value)} (hvars : cx.variables text = some es)
    (h : ∀ key ∈ keys, ∃ x, Carries cx.cipher cx.settingsKey valueUse x (es.lookup key))
    (hfold : keys.foldlM (job.regenerateAnswer cx newKey) text = some text')
    (hvars' : cx.variables text' = some es') {key : String} (hmem : key ∉ keys) :
    es'.lookup key = es.lookup key := by
  obtain ⟨text₁, es₁, hfold₁, hvars₁, hanswers⟩ := @answers_run ν cx newKey job hkey _ hnodup _ _ hvars h
  rw [hfold] at hfold₁
  cases hfold₁
  rw [hvars'] at hvars₁
  cases hvars₁
  exact hanswers.other key hmem

theorem isAnswered_set {es : List (String × Value)} {key key' : String} {v : Value} (hne : key' ≠ key) :
    isAnswered (Dict.setEntries key v es) key' = isAnswered es key' := by
  unfold isAnswered
  rw [Dict.lookup_setEntries, if_neg hne]

/-- A run rotates the answers whose keys it will find. -/
theorem rotated_of_found (hkey : newKey ≠ []) {keys : List String} (hnodup : keys.Nodup)
    {text text' : Str} {es es' : List (String × Value)} (hvars : cx.variables text = some es)
    (h : ∀ key ∈ keys, ∃ x, Carries cx.cipher cx.settingsKey valueUse x (es.lookup key))
    (hfold : keys.foldlM (job.regenerateAnswer cx newKey) text = some text')
    (hvars' : cx.variables text' = some es') (hfound : Found es keys text) :
    Rotated cx newKey keys es es' := by
  induction keys generalizing text es with
  | nil => nofun
  | cons key keys ih =>
    obtain ⟨hfresh, hnodup⟩ := List.nodup_cons.mp hnodup
    have hrest := fun key' hkey' => h key' (List.mem_cons_of_mem key hkey')
    obtain ⟨x, hx⟩ := h key List.mem_cons_self
    rw [List.foldlM_cons] at hfold
    by_cases hanswered : isAnswered es key = true
    · unfold Found at hfound
      rw [List.filter_cons_of_pos hanswered] at hfound
      obtain ⟨hoccurs, hshown⟩ := hfound
      obtain ⟨x, rfl⟩ := Option.ne_none_iff_exists'.mp ((isAnswered_iff hx).mp hanswered)
      obtain ⟨s, hstep, hs⟩ := @regenerateAnswer_found ν cx newKey job text es key hkey hvars x hx hoccurs
      rw [hstep] at hfold
      have hread := (readable_of_variables hvars).set cx.readFloat key (v := .str s) trivial
      have hne : ∀ key' ∈ keys, key' ≠ key := fun key' hmem heq => hfresh (heq ▸ hmem)
      have hprotected := protected_set (v := .str s) hfresh hrest
      have hfound' : Found (Dict.setEntries key (.str s) es) keys
          (Json.dumps (.dict (Dict.setEntries key (.str s) es))) := by
        have hfilter : keys.filter (isAnswered (Dict.setEntries key (.str s) es)) =
            keys.filter (isAnswered es) :=
          List.filter_congr fun key' hmem => isAnswered_set (hne key' hmem)
        unfold Found
        rw [hfilter]
        split
        · trivial
        · rename_i k ks hks
          rw [hks] at hshown
          have hk : k ∈ keys.filter (isAnswered es) := by
            rw [hks]
            exact List.mem_cons_self
          obtain ⟨hmem, hk⟩ := List.mem_filter.mp hk
          rw [← isAnswered_set (hne k hmem)] at hk
          exact ⟨occurs_dumps hk (hshown k List.mem_cons_self),
            fun k' hk' => hshown k' (List.mem_cons_of_mem _ hk')⟩
      have hrotated := ih hnodup (variables_dumps hread) hprotected hfold hfound'
      have hlookup := lookup_of_run hkey hnodup (variables_dumps hread) hprotected hfold hvars' hfresh
      intro key' hkey'
      rcases List.mem_cons.mp hkey' with rfl | hmem
      · rw [Dict.lookup_setEntries, if_pos rfl] at hlookup
        rw [hlookup]
        exact (kept_iff hx hs).mpr rfl
      · have hkept := hrotated key' hmem
        rw [Dict.lookup_setEntries, if_neg (hne key' hmem)] at hkept
        exact hkept
    · rw [Bool.not_eq_true] at hanswered
      rw [regenerateAnswer_unanswered hvars hanswered] at hfold
      have hfound' : Found es keys text := by
        unfold Found at hfound ⊢
        rwa [List.filter_cons_of_neg (by rw [hanswered]; decide)] at hfound
      have hnone : x = none := by
        by_contra hne
        rw [(isAnswered_iff hx).mpr hne] at hanswered
        cases hanswered
      subst hnone
      have hnew : Carries cx.cipher newKey valueUse none (es.lookup key) := hx
      have hlookup := lookup_of_run hkey hnodup hvars hrest hfold hvars' hfresh
      intro key' hkey'
      rcases List.mem_cons.mp hkey' with rfl | hmem
      · rw [hlookup]
        exact (kept_iff hx hnew).mpr rfl
      · exact ih hnodup hvars hrest hfold hfound' key' hmem

/-- The first answered key stays as it is where it does not occur in the text. -/
theorem lookup_of_missing (hkey : newKey ≠ []) {keys : List String} (hnodup : keys.Nodup)
    {text text' : Str} {es es' : List (String × Value)} (hvars : cx.variables text = some es)
    (h : ∀ key ∈ keys, ∃ x, Carries cx.cipher cx.settingsKey valueUse x (es.lookup key))
    (hfold : keys.foldlM (job.regenerateAnswer cx newKey) text = some text')
    (hvars' : cx.variables text' = some es') {key : String}
    (hfirst : key ∈ (keys.filter (isAnswered es)).head?) (hmissing : ¬ Occurs key text) :
    es'.lookup key = es.lookup key := by
  induction keys with
  | nil => cases hfirst
  | cons key' keys ih =>
    obtain ⟨hfresh, hkeys⟩ := List.nodup_cons.mp hnodup
    have hrest := fun k hk => h k (List.mem_cons_of_mem key' hk)
    rw [List.foldlM_cons] at hfold
    by_cases hanswered : isAnswered es key' = true
    · rw [List.filter_cons_of_pos hanswered] at hfirst
      cases hfirst
      rw [regenerateAnswer_missing hmissing] at hfold
      exact lookup_of_run hkey hkeys hvars hrest hfold hvars' hfresh
    · rw [List.filter_cons_of_neg hanswered] at hfirst
      rw [Bool.not_eq_true] at hanswered
      rw [regenerateAnswer_unanswered hvars hanswered] at hfold
      exact ih hkeys hrest hfold hfirst

/-- A text that cannot be read makes the run raise at the first key that occurs in it. -/
theorem foldlM_unreadable {keys : List String} {text text' : Str} (hvars : cx.variables text = none) :
    keys.foldlM (job.regenerateAnswer cx newKey) text = some text' ↔
      (∀ key ∈ keys, ¬ Occurs key text) ∧ text' = text := by
  induction keys with
  | nil => exact ⟨fun h => ⟨nofun, (Option.some.inj h).symm⟩, fun h => congrArg some h.2.symm⟩
  | cons key keys ih =>
    rw [List.foldlM_cons, List.forall_mem_cons]
    by_cases hoccurs : Occurs key text
    · have hraise : job.regenerateAnswer cx newKey text key = none := by
        unfold SurveyJob.regenerateAnswer
        rw [if_pos hoccurs, hvars]
        rfl
      rw [hraise]
      exact ⟨nofun, fun h => absurd hoccurs h.1.1⟩
    · rw [regenerateAnswer_missing hoccurs, and_iff_right hoccurs]
      exact ih

end Runs

/-! ### Jobs -/

/-- When a job keeps its answers: a text that cannot be read contains no key, and the keys of the answers
are found in one that can. -/
def SurveyJob.Clear (cx : Context ν) (newKey : Str) (job : SurveyJob) : Prop :=
  match cx.variables job.extraVars with
  | none => ∀ key ∈ job.surveyPasswords.keys, ¬ Occurs key job.extraVars
  | some es => newKey = cx.settingsKey ∨ Found es job.surveyPasswords.keys job.extraVars

/-- The answered keys after the first one have no characters that are escaped in their texts. -/
def SurveyJob.Named (cx : Context ν) (job : SurveyJob) : Prop :=
  ∀ es, cx.variables job.extraVars = some es →
    ∀ key ∈ (job.surveyPasswords.keys.filter (isAnswered es)).tail, Occurs key (Json.dumpsString key)

theorem SurveyJob.regenerate_eq_some {newKey : Str} {job job' : SurveyJob} :
    job.regenerate cx newKey = some job' ↔ ∃ text,
      job.surveyPasswords.keys.foldlM (job.regenerateAnswer cx newKey) job.extraVars = some text ∧
        { job with extraVars := text } = job' := by
  unfold SurveyJob.regenerate
  rw [Option.bind_eq_bind, Option.bind_eq_some_iff]
  simp only [Option.some_inj]

theorem SurveyJob.secrets_of_variables {job : SurveyJob} {es : List (String × Value)}
    (h : cx.variables job.extraVars = some es) :
    job.secrets cx = job.surveyPasswords.keys.map fun key => (valueUse, es.lookup key) := by
  unfold SurveyJob.secrets Context.answer
  rw [h]
  rfl

/-- The answers of a run are all kept if they are rotated. -/
theorem SurveyJob.kept_iff_rotated {newKey : Str} {job : SurveyJob} {text : Str}
    {es es' : List (String × Value)} (hvars : cx.variables job.extraVars = some es)
    (hvars' : cx.variables text = some es') :
    List.Forall₂ (Kept cx.cipher cx.settingsKey newKey) (job.secrets cx)
        (SurveyJob.secrets cx { job with extraVars := text }) ↔
      Rotated cx newKey job.surveyPasswords.keys es es' := by
  rw [SurveyJob.secrets_of_variables hvars, SurveyJob.secrets_of_variables hvars',
    List.forall₂_map_left_iff, List.forall₂_map_right_iff, List.forall₂_same]
  rfl

theorem SurveyJob.regenerate_of_clear {newKey : Str} (hkey : newKey ≠ []) {job : SurveyJob}
    (h : Protected cx.cipher cx.settingsKey (job.secrets cx)) (hclear : job.Clear cx newKey) :
    ∃ job', job.regenerate cx newKey = some job' ∧
      List.Forall₂ (Kept cx.cipher cx.settingsKey newKey) (job.secrets cx) (job'.secrets cx) := by
  have hnodup : job.surveyPasswords.keys.Nodup := job.surveyPasswords.nodup
  unfold SurveyJob.Clear at hclear
  split at hclear
  · rename_i hvars
    have hfold := (@foldlM_unreadable ν cx newKey job _ _ _ hvars).mpr ⟨hclear, rfl⟩
    refine ⟨job, SurveyJob.regenerate_eq_some.mpr ⟨_, hfold, rfl⟩, ?_⟩
    unfold SurveyJob.secrets Context.answer
    rw [hvars, List.forall₂_map_left_iff, List.forall₂_map_right_iff, List.forall₂_same]
    exact fun key _ => (kept_iff carries_none carries_none).mpr rfl
  · rename_i es hvars
    rw [SurveyJob.secrets_of_variables hvars] at h
    have hprotected : ∀ key ∈ job.surveyPasswords.keys, ∃ x,
        Carries cx.cipher cx.settingsKey valueUse x (es.lookup key) :=
      fun key hmem => h _ (List.mem_map_of_mem hmem)
    obtain ⟨text', es', hfold, hvars', hanswers⟩ := @answers_run ν cx newKey job hkey _ hnodup _ _ hvars hprotected
    refine ⟨_, SurveyJob.regenerate_eq_some.mpr ⟨text', hfold, rfl⟩,
      (SurveyJob.kept_iff_rotated hvars hvars').mpr ?_⟩
    rcases hclear with hsame | hfound
    · intro key hmem
      obtain ⟨x, hx⟩ := hprotected key hmem
      rcases hanswers.own key hmem with hlookup | ⟨y, hy, hnew⟩
      · rw [hlookup]
        refine (kept_iff hx ?_).mpr rfl
        rw [hsame]
        exact hx
      · exact (kept_iff hy hnew).mpr rfl
    · exact rotated_of_found hkey hnodup hvars hprotected hfold hvars' hfound

theorem SurveyJob.clear_of_regenerate {newKey : Str} (hkey : newKey ≠ []) {job job' : SurveyJob}
    (h : Protected cx.cipher cx.settingsKey (job.secrets cx)) (hnamed : job.Named cx)
    (hreg : job.regenerate cx newKey = some job')
    (hkept : List.Forall₂ (Kept cx.cipher cx.settingsKey newKey) (job.secrets cx) (job'.secrets cx)) :
    job.Clear cx newKey := by
  have hnodup : job.surveyPasswords.keys.Nodup := job.surveyPasswords.nodup
  obtain ⟨text', hfold, rfl⟩ := SurveyJob.regenerate_eq_some.mp hreg
  unfold SurveyJob.Clear
  split
  · rename_i hvars
    exact ((foldlM_unreadable hvars).mp hfold).1
  · rename_i es hvars
    rw [SurveyJob.secrets_of_variables hvars] at h
    have hprotected : ∀ key ∈ job.surveyPasswords.keys, ∃ x,
        Carries cx.cipher cx.settingsKey valueUse x (es.lookup key) :=
      fun key hmem => h _ (List.mem_map_of_mem hmem)
    obtain ⟨text₁, es', hfold₁, hvars', -⟩ := @answers_run ν cx newKey job hkey _ hnodup _ _ hvars hprotected
    rw [hfold] at hfold₁
    cases hfold₁
    have hrotated := (SurveyJob.kept_iff_rotated hvars hvars').mp hkept
    by_cases hsame : newKey = cx.settingsKey
    · exact .inl hsame
    · refine .inr ?_
      have htail := hnamed es hvars
      unfold Found
      split
      · trivial
      · rename_i key keys hkeys
        rw [hkeys] at htail
        refine ⟨by_contra fun hmissing => hsame ?_, htail⟩
        have hfirst : key ∈ (job.surveyPasswords.keys.filter (isAnswered es)).head? := by
          rw [hkeys]
          rfl
        have hmem := List.mem_filter.mp (List.mem_of_mem_head? hfirst)
        have hlookup := lookup_of_missing hkey hnodup hvars hprotected hfold hvars' hfirst hmissing
        obtain ⟨x, hx⟩ := hprotected key hmem.1
        obtain ⟨x, rfl⟩ := Option.ne_none_iff_exists'.mp ((isAnswered_iff hx).mp hmem.2)
        have hnew := (hrotated key hmem.1).2 (some x) hx
        rw [hlookup] at hnew
        exact (hx.unique hnew).1.symm

end Forail.Commands.RegenerateSecretKey
