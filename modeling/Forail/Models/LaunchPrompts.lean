import Forail.Base.Dict
import Forail.Base.Walk
import Mathlib.Data.Finset.Lattice.Basic

/-! The prompts of a job. A launch takes what it is given over the template and keeps it in a launch config, of the
credentials and labels only what the template does not have; a relaunch launches the template, as it is then, with
the prompts of the config. -/

namespace Forail.Launch

open Walk

/-! ### Credentials -/

structure Credential where
  pk : ℕ
  credentialType : ℕ
  isVault : Bool
  vaultId : Option String
  deriving DecidableEq

/-- The text that is hashed is the type with the vault id behind it. -/
def Credential.uniqueHash (c : Credential) : ℕ × Option String :=
  (c.credentialType, if c.isVault then c.vaultId else none)

def uniqueDict (creds : List Credential) : Dict (ℕ × Option String) Credential :=
  creds.foldl (fun d c => d.set c.uniqueHash c) .empty

/-! ### Launching -/

/-- The fields of `char_prompts`, but for `job_slice_count`. -/
inductive CharPrompt
  | limit | scmBranch | jobTags | skipTags | diffMode | jobType | verbosity | forks | timeout
  deriving DecidableEq

variable {V : Type}

structure JobTemplate (V : Type) where
  char : CharPrompt → V
  jobSliceCount : ℕ
  inventory : Option ℕ
  executionEnvironment : Option ℕ
  credentials : Finset Credential
  labels : Finset ℕ
  askInventoryOnLaunch : Bool
  askJobSliceCountOnLaunch : Bool
  /-- `preferred_instance_groups` of its jobs with an inventory. -/
  preferredInstanceGroups : Option ℕ → List ℕ

/-- The arguments of `create_unified_job`; a foreign key may be given as `None`. -/
structure Prompts (V : Type) where
  char : CharPrompt → Option V
  jobSliceCount : Option ℕ
  inventory : Option (Option ℕ)
  executionEnvironment : Option (Option ℕ)
  credentials : Option (List Credential)
  labels : Option (List ℕ)
  instanceGroups : List ℕ

structure LaunchConfig (V : Type) where
  charPrompts : CharPrompt → Option V
  jobSliceCount : Option ℕ
  inventory : Option ℕ
  executionEnvironment : Option ℕ
  credentials : Finset Credential
  labels : Finset ℕ
  instanceGroups : List ℕ

@[ext] structure Job (V : Type) where
  char : CharPrompt → V
  jobSliceNumber : ℕ
  jobSliceCount : ℕ
  inventory : Option ℕ
  executionEnvironment : Option ℕ
  credentials : Finset Credential
  labels : Finset ℕ
  preferredInstanceGroupsCache : Option (List ℕ)

/-- What is set on a job whatever was prompted. -/
structure EagerFields where
  jobSliceNumber : Option ℕ
  jobSliceCount : Option ℕ

/-- A job with its launch config, if it has one. -/
structure Launched (V : Type) where
  job : Job V
  config : Option (LaunchConfig V)

section Launching
variable (isNone : V → Bool) (order : ∀ α : Type, SetOrder α) (hosts : ℕ → ℕ)

/-- The credentials of the template with the prompted ones over them. -/
def combineCredentials (t : JobTemplate V) : Option (List Credential) → Option (List Credential)
  | none => none
  | some [] => some []
  | some prompted =>
    some (((uniqueDict ((order Credential).list t.credentials)).update (uniqueDict prompted).entries).entries.map Prod.snd)

/-- The instance groups that are there after each was added. -/
def addAll (instanceGroups : List ℕ) : List ℕ :=
  instanceGroups.foldl (fun igs ig => if ig ∈ igs then igs else igs ++ [ig]) []

/-- `create_config_from_prompts`: a value that is `None` or empty is not stored. -/
def createConfigFromPrompts (t : JobTemplate V) (p : Prompts V) : LaunchConfig V where
  charPrompts f := (p.char f).filter fun v => !isNone v
  jobSliceCount := p.jobSliceCount
  inventory := p.inventory.join
  executionEnvironment := p.executionEnvironment.join
  credentials := (p.credentials.getD []).toFinset \ t.credentials
  labels := (p.labels.getD []).toFinset \ t.labels
  instanceGroups := addAll p.instanceGroups

/-- `create_unified_job` of the class of all templates. -/
def createUnifiedJob (t : JobTemplate V) (p : Prompts V) (eager : EagerFields) : Launched V :=
  let p := { p with credentials := combineCredentials order t p.credentials }
  let inventory := p.inventory.getD t.inventory
  { job :=
      { char := fun f => (p.char f).getD (t.char f)
        jobSliceNumber := eager.jobSliceNumber.getD 0
        jobSliceCount := eager.jobSliceCount.getD (p.jobSliceCount.getD t.jobSliceCount)
        inventory := inventory
        executionEnvironment := p.executionEnvironment.getD t.executionEnvironment
        credentials := (p.credentials.map List.toFinset).getD t.credentials
        labels := t.labels ∪ (p.labels.getD []).toFinset
        preferredInstanceGroupsCache :=
          some (if p.instanceGroups = [] then t.preferredInstanceGroups inventory else p.instanceGroups) }
    config := some (createConfigFromPrompts isNone t p) }

/-- The slices that the hosts of the inventory are enough for, with `hosts` their number. -/
def JobTemplate.getEffectiveSliceCt (t : JobTemplate V) (p : Prompts V) : ℕ :=
  let actualInventory := if t.askInventoryOnLaunch then p.inventory.getD t.inventory else t.inventory
  let actualSliceCount := if t.askJobSliceCountOnLaunch then p.jobSliceCount.getD t.jobSliceCount else t.jobSliceCount
  (actualInventory.map fun i => min actualSliceCount (hosts i)).getD actualSliceCount

def JobTemplate.eagerFields (t : JobTemplate V) (preventSlicing : Bool) (eager : EagerFields) : EagerFields :=
  if preventSlicing then { eager with jobSliceCount := eager.jobSliceCount.or (some 1) }
  else if 1 < t.jobSliceCount then { eager with jobSliceCount := some 1 }
  else eager

/-- `create_unified_job` of a job template. No job is made where the launch is sliced: in its place there is a workflow
job with a node for each slice. -/
def JobTemplate.createUnifiedJob (t : JobTemplate V) (p : Prompts V) (preventSlicing : Bool) (eager : EagerFields) :
    Option (Launched V) :=
  if 1 < t.getEffectiveSliceCt hosts p ∧ !preventSlicing then none
  else some (Launch.createUnifiedJob isNone order t p (t.eagerFields preventSlicing eager))

/-! ### Launching again -/

/-- `prompts_dict`; an empty relation counts as no prompt. -/
def LaunchConfig.promptsDict (config : LaunchConfig V) : Prompts V where
  char := config.charPrompts
  jobSliceCount := config.jobSliceCount
  inventory := config.inventory.map some
  executionEnvironment := config.executionEnvironment.map some
  credentials := if config.credentials = ∅ then none else some ((order Credential).list config.credentials)
  labels := if config.labels = ∅ then none else some ((order ℕ).list config.labels)
  instanceGroups := config.instanceGroups

/-- `copy_unified_job` with new values for some fields, for the slice that the job is. Without a template or a config the
job itself is copied, the new values are ignored, and nothing is cached. -/
def copyUnifiedJob (template : Option (JobTemplate V)) (newPrompts : CharPrompt → Option V) (l : Launched V) :
    Option (Launched V) :=
  match template, l.config with
  | some t, some config =>
    let prompts := config.promptsDict order
    t.createUnifiedJob isNone order hosts { prompts with char := fun f => (newPrompts f).or (prompts.char f) } true
      ⟨some l.job.jobSliceNumber, some l.job.jobSliceCount⟩
  | _, _ => some ⟨{ l.job with preferredInstanceGroupsCache := none }, none⟩

/-- One relaunch after the other, each with the template as it is then. -/
def relaunches (l : Launched V) (rounds : List (JobTemplate V × (CharPrompt → Option V))) : Option (Launched V) :=
  rounds.foldlM (fun l round => copyUnifiedJob isNone order hosts (some round.1) round.2 l) l

end Launching

/-! ### What credentials are taken -/

/-- One credential over the other: those of the template stay where no other one takes their place. -/
def layered (template prompted : Finset Credential) : Finset Credential :=
  prompted ∪ template.filter fun c => ∀ d ∈ prompted, d.uniqueHash ≠ c.uniqueHash

/-- No two credentials are in each other's place. -/
def Exclusive (creds : Finset Credential) : Prop :=
  ∀ c ∈ creds, ∀ d ∈ creds, c.uniqueHash = d.uniqueHash → c = d

/-- The credentials that a list comes to, the last one of each kind. -/
def chosen (creds : List Credential) : Finset Credential := ((uniqueDict creds).entries.map Prod.snd).toFinset

/-- A dictionary of credentials by what they hash to. -/
def Hashed (d : Dict (ℕ × Option String) Credential) : Prop := ∀ h c, d.get? h = some c → c.uniqueHash = h

def values (d : Dict (ℕ × Option String) Credential) : Finset Credential := (d.entries.map Prod.snd).toFinset

section Hashed
variable {d e : Dict (ℕ × Option String) Credential} {creds : List Credential} {c : Credential}

theorem mem_values (hd : Hashed d) : c ∈ values d ↔ d.get? c.uniqueHash = some c := by
  rw [values, List.mem_toFinset, List.mem_map]
  constructor
  · rintro ⟨⟨h, c'⟩, hmem, rfl⟩
    have hget := Dict.get?_of_mem_entries hmem
    rwa [hd h c' hget]
  · exact fun hget => ⟨_, Dict.mem_entries_of_get? hget, rfl⟩

theorem exclusive_values (hd : Hashed d) : Exclusive (values d) := by
  intro c hc c' hc' heq
  rw [mem_values hd] at hc hc'
  rw [heq] at hc
  exact Option.some.inj (hc.symm.trans hc')

/-- Hashing a list over a dictionary. -/
theorem hashed_foldl (hd : Hashed d) : Hashed (creds.foldl (fun d c => d.set c.uniqueHash c) d) ∧
    (∀ c, (creds.foldl (fun d c => d.set c.uniqueHash c) d).get? c.uniqueHash = some c → c ∈ creds ∨ d.get? c.uniqueHash = some c) ∧
    ∀ h, ((∃ c ∈ creds, c.uniqueHash = h) ∨ (d.get? h).isSome = true) →
      ((creds.foldl (fun d c => d.set c.uniqueHash c) d).get? h).isSome = true := by
  induction creds generalizing d with
  | nil => exact ⟨hd, fun c hc => .inr hc, fun h hh => hh.resolve_left (by simp)⟩
  | cons c creds ih =>
    have hset : Hashed (d.set c.uniqueHash c) := by
      intro h c' hget
      rw [Dict.get?_set] at hget
      split_ifs at hget with heq
      · cases hget
        exact heq.symm
      · exact hd h c' hget
    obtain ⟨hhashed, hfrom, hsome⟩ := ih hset
    refine ⟨hhashed, fun c' hc' => ?_, fun h hh => hsome h ?_⟩
    · rcases hfrom c' hc' with hmem | hget
      · exact .inl (List.mem_cons_of_mem _ hmem)
      · rw [Dict.get?_set] at hget
        split_ifs at hget
        · cases hget
          exact .inl List.mem_cons_self
        · exact .inr hget
    · rcases hh with ⟨c', hc', rfl⟩ | hh
      · rcases List.mem_cons.mp hc' with rfl | hc'
        · exact .inr (by rw [Dict.get?_set, if_pos rfl]; rfl)
        · exact .inl ⟨c', hc', rfl⟩
      · right
        rw [Dict.get?_set]
        split_ifs
        · rfl
        · exact hh

theorem hashed_uniqueDict : Hashed (uniqueDict creds) := (hashed_foldl fun _ _ h => by cases h).1

theorem chosen_eq_values : chosen creds = values (uniqueDict creds) := rfl

theorem mem_of_mem_chosen (h : c ∈ chosen creds) : c ∈ creds := by
  rw [chosen_eq_values, mem_values hashed_uniqueDict] at h
  exact ((hashed_foldl fun _ _ h => by cases h).2.1 c h).resolve_right fun h => by cases h

theorem exclusive_chosen : Exclusive (chosen creds) := exclusive_values hashed_uniqueDict

/-- One credential of each kind is taken. -/
theorem exists_chosen (h : c ∈ creds) : ∃ d ∈ chosen creds, d.uniqueHash = c.uniqueHash := by
  obtain ⟨d, hd⟩ := Option.isSome_iff_exists.mp
    ((hashed_foldl (d := .empty) (fun _ _ h => by cases h)).2.2 c.uniqueHash (.inl ⟨c, h, rfl⟩))
  have hhash := hashed_uniqueDict _ d hd
  refine ⟨d, ?_, hhash⟩
  rw [chosen_eq_values, mem_values hashed_uniqueDict, hhash]
  exact hd

theorem chosen_of_exclusive {s : Finset Credential} (hs : Exclusive s) (hcreds : ∀ c, c ∈ creds ↔ c ∈ s) :
    chosen creds = s := by
  ext c
  constructor
  · exact fun h => (hcreds c).mp (mem_of_mem_chosen h)
  · intro h
    obtain ⟨d, hd, hhash⟩ := exists_chosen ((hcreds c).mpr h)
    rwa [← hs d ((hcreds d).mp (mem_of_mem_chosen hd)) c h hhash]

theorem hashed_update (hd : Hashed d) (he : Hashed e) : Hashed (d.update e.entries) := by
  intro h c hget
  rw [Dict.get?_update] at hget
  rcases Option.or_eq_some_iff.mp hget with hget | ⟨-, hget⟩
  · exact he h c hget
  · exact hd h c hget

theorem values_update (hd : Hashed d) (he : Hashed e) : values (d.update e.entries) = layered (values d) (values e) := by
  ext c
  rw [mem_values (hashed_update hd he), Dict.get?_update, Option.or_eq_some_iff, layered, Finset.mem_union,
    Finset.mem_filter, mem_values hd, mem_values he]
  apply or_congr_right
  constructor
  · rintro ⟨hnone, hget⟩
    refine ⟨hget, fun x hx heq => ?_⟩
    rw [mem_values he, heq, hnone] at hx
    cases hx
  · rintro ⟨hget, hother⟩
    refine ⟨?_, hget⟩
    cases hx : e.get? c.uniqueHash with
    | none => rfl
    | some x =>
      have hhash := he _ x hx
      exact absurd hhash (hother x ((mem_values he).mpr (hhash ▸ hx)))

end Hashed

/-! ### What a relaunch launches -/

theorem foldl_add_of_nodup {acc l : List ℕ} (h : (acc ++ l).Nodup) :
    l.foldl (fun igs ig => if ig ∈ igs then igs else igs ++ [ig]) acc = acc ++ l := by
  induction l generalizing acc with
  | nil => exact (List.append_nil acc).symm
  | cons ig l ih =>
    have hnot : ig ∉ acc := fun hmem => (List.nodup_append.mp h).2.2 ig hmem ig List.mem_cons_self rfl
    rw [List.append_cons] at h
    rw [List.foldl_cons, if_neg hnot, ih h, List.append_assoc]
    rfl

theorem addAll_of_nodup {l : List ℕ} (h : l.Nodup) : addAll l = l := foldl_add_of_nodup h

theorem nodup_addAll (l : List ℕ) : (addAll l).Nodup := by
  have hall : ∀ acc : List ℕ, acc.Nodup → (l.foldl (fun igs ig => if ig ∈ igs then igs else igs ++ [ig]) acc).Nodup := by
    induction l with
    | nil => exact fun _ h => h
    | cons ig l ih =>
      intro acc hacc
      rw [List.foldl_cons]
      apply ih
      split_ifs with hmem
      · exact hacc
      · rw [← List.concat_eq_append]
        exact hacc.concat hmem
  exact hall [] List.nodup_nil

theorem addAll_eq_nil {l : List ℕ} : addAll l = [] ↔ l = [] := by
  refine ⟨fun h => ?_, fun h => by rw [h]; rfl⟩
  have hall : ∀ (l acc : List ℕ), acc.length ≤ (l.foldl (fun igs ig => if ig ∈ igs then igs else igs ++ [ig]) acc).length := by
    intro l
    induction l with
    | nil => exact fun _ => le_refl _
    | cons ig l ih =>
      intro acc
      rw [List.foldl_cons]
      refine le_trans ?_ (ih _)
      split_ifs <;> simp
  cases l with
  | nil => rfl
  | cons ig l =>
    have hle := hall l [ig]
    rw [addAll, List.foldl_cons, if_neg List.not_mem_nil, List.nil_append] at h
    rw [h] at hle
    simp at hle

section Relaunch
variable {isNone : V → Bool} (order : ∀ α : Type, SetOrder α) (hosts : ℕ → ℕ) {t : JobTemplate V} {p : Prompts V}

/-- A relaunch is not sliced, whatever the template says by now. -/
theorem copyUnifiedJob_some (new : CharPrompt → Option V) (job : Job V) (config : LaunchConfig V) :
    copyUnifiedJob isNone order hosts (some t) new ⟨job, some config⟩ = some (createUnifiedJob isNone order t
      { config.promptsDict order with char := fun f => (new f).or (config.charPrompts f) }
      ⟨some job.jobSliceNumber, some job.jobSliceCount⟩) := by
  change JobTemplate.createUnifiedJob isNone order hosts t _ true _ = _
  rw [JobTemplate.createUnifiedJob, if_neg (by simp)]
  rfl

/-- What the template has is not among what is kept, so that only the prompted credentials count. -/
theorem combineCredentials_sdiff (creds : Option (List Credential)) :
    ((combineCredentials order t creds).getD []).toFinset \ t.credentials = chosen (creds.getD []) \ t.credentials := by
  have hempty : ([] : List Credential).toFinset = chosen [] := rfl
  rcases creds with _ | _ | ⟨c, creds⟩
  · exact congrArg (· \ t.credentials) hempty
  · exact congrArg (· \ t.credentials) hempty
  · change values ((uniqueDict _).update (uniqueDict (c :: creds)).entries) \ t.credentials = _
    rw [values_update hashed_uniqueDict hashed_uniqueDict]
    ext x
    rw [Finset.mem_sdiff, Finset.mem_sdiff, layered, Finset.mem_union, Finset.mem_filter]
    refine and_congr_left fun hout => or_iff_left ?_
    rintro ⟨hin, -⟩
    exact hout (((order Credential).mem_list _ x).mp (mem_of_mem_chosen hin))

theorem combineCredentials_eq {creds : List Credential} (h : creds ≠ []) (ht : Exclusive t.credentials) :
    ((combineCredentials order t (some creds)).map List.toFinset).getD t.credentials =
      layered t.credentials (chosen creds) := by
  cases creds with
  | nil => exact absurd rfl h
  | cons c creds =>
    change values ((uniqueDict _).update (uniqueDict (c :: creds)).entries) = _
    rw [values_update hashed_uniqueDict hashed_uniqueDict, ← chosen_eq_values, ← chosen_eq_values,
      chosen_of_exclusive ht fun x => (order Credential).mem_list _ x]

/-- What a config keeps of the prompts of the first launch, when they have been launched with some templates and some
values have been given anew. -/
structure Keeps (isNone : V → Bool) (p : Prompts V) (templates : List (JobTemplate V))
    (newPrompts : List (CharPrompt → Option V)) (config : LaunchConfig V) : Prop where
  char : ∀ f, config.charPrompts f = newPrompts.foldl (fun v new => (new f).or v) (p.char f)
  given : ∀ f v, config.charPrompts f = some v → isNone v = false
  inventory : config.inventory = p.inventory.join
  executionEnvironment : config.executionEnvironment = p.executionEnvironment.join
  credentials : config.credentials = (chosen (p.credentials.getD [])).filter fun c => ∀ t ∈ templates, c ∉ t.credentials
  labels : config.labels = (p.labels.getD []).toFinset.filter fun l => ∀ t ∈ templates, l ∉ t.labels
  instanceGroups : config.instanceGroups = addAll p.instanceGroups

theorem Keeps.create (hp : ∀ f v, p.char f = some v → isNone v = false) : Keeps isNone p [t] []
    (createConfigFromPrompts isNone t { p with credentials := combineCredentials order t p.credentials }) := by
  have hchar : ∀ f, (p.char f).filter (fun v => !isNone v) = p.char f := by
    intro f
    cases hf : p.char f with
    | none => rfl
    | some v => rw [Option.filter_some, hp f v hf]; rfl
  refine ⟨hchar, fun f v hv => hp f v ((hchar f).symm.trans hv), rfl, rfl, ?_, ?_, rfl⟩
  · refine (combineCredentials_sdiff order p.credentials).trans ?_
    ext c
    simp
  · change (p.labels.getD []).toFinset \ t.labels = _
    ext l
    simp

/-- The prompts that a config stands for. -/
theorem Keeps.prompts {templates : List (JobTemplate V)} {newPrompts : List (CharPrompt → Option V)} {config : LaunchConfig V}
    (h : Keeps isNone p templates newPrompts config) :
    chosen ((config.promptsDict order).credentials.getD []) = config.credentials ∧
      ((config.promptsDict order).labels.getD []).toFinset = config.labels := by
  have hexclusive : Exclusive config.credentials := by
    rw [h.credentials]
    exact fun c hc d hd => exclusive_chosen c (Finset.mem_filter.mp hc).1 d (Finset.mem_filter.mp hd).1
  constructor
  · rw [LaunchConfig.promptsDict]
    dsimp only
    split_ifs with hnone
    · rw [hnone]
      rfl
    · exact chosen_of_exclusive hexclusive fun c => (order Credential).mem_list _ c
  · rw [LaunchConfig.promptsDict]
    dsimp only
    split_ifs with hnone
    · rw [hnone]
      rfl
    · ext l
      rw [Option.getD_some, List.mem_toFinset, (order ℕ).mem_list]

theorem join_map_some (o : Option ℕ) : (o.map some).join = o := by
  cases o <;> rfl

/-- A relaunch keeps the prompts of the first launch, less the credentials and labels that its template has. -/
theorem Keeps.relaunch {templates : List (JobTemplate V)} {newPrompts : List (CharPrompt → Option V)} {config : LaunchConfig V}
    (h : Keeps isNone p templates newPrompts config) {new : CharPrompt → Option V}
    (hnew : ∀ f v, new f = some v → isNone v = false) (job : Job V) :
    ∃ job' config', copyUnifiedJob isNone order hosts (some t) new ⟨job, some config⟩ = some ⟨job', some config'⟩ ∧
      job'.jobSliceNumber = job.jobSliceNumber ∧ job'.jobSliceCount = job.jobSliceCount ∧
      Keeps isNone p (templates ++ [t]) (newPrompts ++ [new]) config' := by
  obtain ⟨hcredentials, hlabels⟩ := h.prompts order
  have hgiven : ∀ f v, (new f).or (config.charPrompts f) = some v → isNone v = false := by
    intro f v hv
    rcases Option.or_eq_some_iff.mp hv with hv | ⟨-, hv⟩
    · exact hnew f v hv
    · exact h.given f v hv
  have hkeeps := Keeps.create order (t := t)
    (p := { config.promptsDict order with char := fun f => (new f).or (config.charPrompts f) }) hgiven
  refine ⟨_, _, copyUnifiedJob_some order hosts new job config, rfl, rfl,
    ⟨fun f => ?_, hkeeps.given, hkeeps.inventory.trans ?_, hkeeps.executionEnvironment.trans ?_, ?_, ?_, ?_⟩⟩
  · rw [List.foldl_append, ← h.char f]
    exact hkeeps.char f
  · rw [← h.inventory]
    exact join_map_some _
  · rw [← h.executionEnvironment]
    exact join_map_some _
  · refine hkeeps.credentials.trans ?_
    change (chosen ((config.promptsDict order).credentials.getD [])).filter _ = _
    rw [hcredentials, h.credentials]
    ext c
    simp [or_imp, forall_and, and_assoc]
  · refine hkeeps.labels.trans ?_
    change ((config.promptsDict order).labels.getD []).toFinset.filter _ = _
    rw [hlabels, h.labels]
    ext l
    simp [or_imp, forall_and, and_assoc]
  · refine hkeeps.instanceGroups.trans ?_
    change addAll config.instanceGroups = _
    rw [h.instanceGroups]
    exact addAll_of_nodup (nodup_addAll _)

/-- The job that comes of the prompts of the first launch, when other templates and values were there in between, for one
of the slices. -/
def Prompts.outcome (p : Prompts V) (jobSliceNumber jobSliceCount : ℕ) (earlier : List (JobTemplate V))
    (newPrompts : List (CharPrompt → Option V)) (t : JobTemplate V) : Job V :=
  let inventory := p.inventory.join.or t.inventory
  { char := fun f => (newPrompts.foldl (fun v new => (new f).or v) (p.char f)).getD (t.char f)
    jobSliceNumber := jobSliceNumber
    jobSliceCount := jobSliceCount
    inventory := inventory
    executionEnvironment := p.executionEnvironment.join.or t.executionEnvironment
    credentials := layered t.credentials
      ((chosen (p.credentials.getD [])).filter fun c => ∀ t ∈ earlier, c ∉ t.credentials)
    labels := t.labels ∪ (p.labels.getD []).toFinset.filter fun l => ∀ t ∈ earlier, l ∉ t.labels
    preferredInstanceGroupsCache :=
      some (if p.instanceGroups = [] then t.preferredInstanceGroups inventory else addAll p.instanceGroups) }

theorem layered_empty (creds : Finset Credential) : layered creds ∅ = creds := by
  ext c
  simp [layered]

/-- The prompted credentials of a config are put over those of the template. -/
theorem Keeps.combined {templates : List (JobTemplate V)} {newPrompts : List (CharPrompt → Option V)} {config : LaunchConfig V}
    (h : Keeps isNone p templates newPrompts config) (ht : Exclusive t.credentials) :
    ((combineCredentials order t (config.promptsDict order).credentials).map List.toFinset).getD t.credentials =
      layered t.credentials config.credentials := by
  rw [← (h.prompts order).1]
  cases hcreds : (config.promptsDict order).credentials with
  | none => exact (layered_empty _).symm
  | some creds =>
    refine combineCredentials_eq order (fun hnil => ?_) ht
    rw [LaunchConfig.promptsDict] at hcreds
    dsimp only at hcreds
    split_ifs at hcreds with hempty
    refine hempty (Finset.eq_empty_of_forall_notMem fun c hc => ?_)
    rw [← (order Credential).mem_list, Option.some.inj hcreds, hnil] at hc
    cases hc

/-- The job of a relaunch. -/
theorem Keeps.outcome {templates : List (JobTemplate V)} {newPrompts : List (CharPrompt → Option V)} {config : LaunchConfig V}
    (h : Keeps isNone p templates newPrompts config) (new : CharPrompt → Option V) (ht : Exclusive t.credentials) (job : Job V) :
    ∃ config', copyUnifiedJob isNone order hosts (some t) new ⟨job, some config⟩ =
      some ⟨p.outcome job.jobSliceNumber job.jobSliceCount templates (newPrompts ++ [new]) t, config'⟩ := by
  have hgetD : ∀ o o' : Option ℕ, (o.map some).getD o' = o.or o' := by
    intro o o'
    cases o <;> rfl
  have hchar : ∀ f, (newPrompts ++ [new]).foldl (fun v new => (new f).or v) (p.char f) = (new f).or (config.charPrompts f) := by
    intro f
    rw [List.foldl_append, ← h.char]
    rfl
  have hjob : (createUnifiedJob isNone order t
      { config.promptsDict order with char := fun f => (new f).or (config.charPrompts f) }
      ⟨some job.jobSliceNumber, some job.jobSliceCount⟩).job =
      p.outcome job.jobSliceNumber job.jobSliceCount templates (newPrompts ++ [new]) t := by
    rw [createUnifiedJob, Prompts.outcome]
    dsimp only
    rw [h.combined order ht, (h.prompts order).2]
    simp only [hchar, LaunchConfig.promptsDict, hgetD, h.inventory, h.executionEnvironment, h.instanceGroups, h.credentials,
      h.labels, addAll_eq_nil, Option.getD_some]
  rw [copyUnifiedJob_some order hosts, ← hjob]
  exact ⟨_, rfl⟩

theorem Keeps.relaunches (rounds : List (JobTemplate V × (CharPrompt → Option V)))
    (hrounds : ∀ round ∈ rounds, ∀ f v, round.2 f = some v → isNone v = false) {templates : List (JobTemplate V)}
    {newPrompts : List (CharPrompt → Option V)} (job : Job V) {config : LaunchConfig V}
    (h : Keeps isNone p templates newPrompts config) :
    ∃ job' config', relaunches isNone order hosts ⟨job, some config⟩ rounds = some ⟨job', some config'⟩ ∧
      job'.jobSliceNumber = job.jobSliceNumber ∧ job'.jobSliceCount = job.jobSliceCount ∧
      Keeps isNone p (templates ++ rounds.map Prod.fst) (newPrompts ++ rounds.map Prod.snd) config' := by
  induction rounds generalizing templates newPrompts job config with
  | nil => exact ⟨job, config, rfl, rfl, rfl, by simpa using h⟩
  | cons round rounds ih =>
    obtain ⟨job₁, config₁, hcopy, hnumber₁, hcount₁, h₁⟩ :=
      h.relaunch order hosts (t := round.1) (hrounds round List.mem_cons_self) job
    obtain ⟨job₂, config₂, hlaunches, hnumber₂, hcount₂, h₂⟩ := ih (fun r hr => hrounds r (List.mem_cons_of_mem _ hr)) job₁ h₁
    refine ⟨job₂, config₂, ?_, hnumber₂.trans hnumber₁, hcount₂.trans hcount₁, by simpa using h₂⟩
    rw [Launch.relaunches, List.foldlM_cons, hcopy]
    exact hlaunches

/-- Whatever the template is at each relaunch, it is never sliced, and the job of the last one has the values that were
given last, at the first launch or at a relaunch, over those of the template as it is now; the slice, the foreign keys and
the instance groups of the first launch; and its credentials and labels, less those that a template had in between. -/
theorem relaunches_spec (t : JobTemplate V) {preventSlicing : Bool}
    {eager : EagerFields} {launched : Launched V} (hp : ∀ f v, p.char f = some v → isNone v = false)
    (hlaunched : t.createUnifiedJob isNone order hosts p preventSlicing eager = some launched)
    (rounds : List (JobTemplate V × (CharPrompt → Option V))) (last : JobTemplate V × (CharPrompt → Option V))
    (hrounds : ∀ round ∈ rounds, ∀ f v, round.2 f = some v → isNone v = false) (hlast : Exclusive last.1.credentials) :
    ∃ config, relaunches isNone order hosts launched (rounds ++ [last]) =
      some ⟨p.outcome launched.job.jobSliceNumber launched.job.jobSliceCount (t :: rounds.map Prod.fst)
        (rounds.map Prod.snd ++ [last.2]) last.1, config⟩ := by
  rw [JobTemplate.createUnifiedJob] at hlaunched
  split_ifs at hlaunched
  cases hlaunched
  obtain ⟨job, config, hrelaunches, hnumber, hcount, h⟩ := Keeps.relaunches order hosts rounds hrounds
    (createUnifiedJob isNone order t p (t.eagerFields preventSlicing eager)).job (Keeps.create order (t := t) hp)
  obtain ⟨config', hcopy⟩ := h.outcome order hosts last.2 hlast job
  refine ⟨config', ?_⟩
  rw [hnumber, hcount] at hcopy
  rw [Launch.relaunches, List.foldlM_append]
  refine (congrArg (· >>= _) hrelaunches).trans ?_
  exact (bind_pure _).trans hcopy

noncomputable def someOrder (α : Type) : SetOrder α := ⟨Finset.toList, Finset.nodup_toList, fun _ _ => Finset.mem_toList⟩

def machine (pk : ℕ) : Credential := ⟨pk, 1, false, none⟩

def web : JobTemplate String where
  char _ := ""
  jobSliceCount := 1
  inventory := some 1
  executionEnvironment := none
  credentials := {machine 1}
  labels := {1}
  askInventoryOnLaunch := false
  askJobSliceCountOnLaunch := false
  preferredInstanceGroups _ := []

def webPrompts : Prompts String where
  char f := if f = .limit then some "web" else none
  jobSliceCount := none
  inventory := none
  executionEnvironment := none
  credentials := some [machine 2]
  labels := some [2, 3]
  instanceGroups := [5]

/-- A template that has had the prompted credential in between takes its own one again. -/
theorem relaunches_web :
    (webPrompts.outcome 0 1 [web, { web with credentials := {machine 2}, labels := {2} }] [fun _ => none, fun _ => none]
      web).credentials = {machine 1} ∧
    ∃ config, relaunches (fun _ => false) someOrder (fun _ => 4)
      (createUnifiedJob (fun _ => false) someOrder web webPrompts ⟨none, none⟩)
      ([({ web with credentials := {machine 2}, labels := {2} }, fun _ => none)] ++ [(web, fun _ => none)]) =
      some ⟨webPrompts.outcome 0 1 [web, { web with credentials := {machine 2}, labels := {2} }]
        [fun _ => none, fun _ => none] web, config⟩ := by
  refine ⟨by decide, ?_⟩
  have hlaunched : web.createUnifiedJob (fun _ => false) someOrder (fun _ => 4) webPrompts false ⟨none, none⟩ =
      some (createUnifiedJob (fun _ => false) someOrder web webPrompts ⟨none, none⟩) := if_neg (by decide)
  exact relaunches_spec someOrder (fun _ => 4) web (fun _ _ _ => rfl) hlaunched _ _ (fun _ _ _ _ _ => rfl) (by unfold Exclusive; decide)

theorem foldl_none {newPrompts : List (CharPrompt → Option V)} {f : CharPrompt} {v : Option V}
    (h : ∀ new ∈ newPrompts, new f = none) : newPrompts.foldl (fun v new => (new f).or v) v = v := by
  induction newPrompts with
  | nil => rfl
  | cons new newPrompts ih =>
    rw [List.foldl_cons, h new List.mem_cons_self, Option.none_or]
    exact ih fun new' hnew' => h new' (List.mem_cons_of_mem _ hnew')

/-- Credentials that the template has itself change nothing. -/
theorem layered_sdiff {template prompted : Finset Credential} (ht : Exclusive template) (hp : Exclusive prompted) :
    layered template (prompted.filter fun c => c ∉ template) = layered template prompted := by
  ext c
  simp only [layered, Finset.mem_union, Finset.mem_filter]
  constructor
  · rintro (⟨hc, -⟩ | ⟨hc, hother⟩)
    · exact .inl hc
    · by_cases hin : c ∈ prompted
      · exact .inl hin
      · refine .inr ⟨hc, fun d hd heq => ?_⟩
        by_cases hdt : d ∈ template
        · exact hin (ht d hdt c hc heq ▸ hd)
        · exact hother d ⟨hd, hdt⟩ heq
  · rintro (hc | ⟨hc, hother⟩)
    · by_cases hin : c ∈ template
      · refine .inr ⟨hin, fun d hd heq => ?_⟩
        exact hd.2 (hp d hd.1 c hc heq ▸ hin)
      · exact .inl ⟨hc, hin⟩
    · exact .inr ⟨hc, fun d hd => hother d hd.1⟩

/-- With one template all along, the prompts come to the job that they came to at first. -/
theorem outcome_unchanged (ht : Exclusive t.credentials) (hinventory : p.inventory ≠ some none)
    (henvironment : p.executionEnvironment ≠ some none) (hcredentials : p.credentials ≠ some [])
    (hgroups : p.instanceGroups.Nodup) {earlier : List (JobTemplate V)} (hearlier : ∀ t', t' ∈ earlier ↔ t' = t)
    {newPrompts : List (CharPrompt → Option V)} (hnew : ∀ new ∈ newPrompts, ∀ f, new f = none) (eager : EagerFields) :
    p.outcome (createUnifiedJob isNone order t p eager).job.jobSliceNumber
      (createUnifiedJob isNone order t p eager).job.jobSliceCount earlier newPrompts t =
      (createUnifiedJob isNone order t p eager).job := by
  have hfk : ∀ (o : Option (Option ℕ)) (o' : Option ℕ), o ≠ some none → o.join.or o' = o.getD o' := by
    intro o o' ho
    rcases o with _ | _ | i
    · rfl
    · exact absurd rfl ho
    · rfl
  have hkept : ∀ {P : JobTemplate V → Prop}, (∀ t' ∈ earlier, P t') ↔ P t :=
    fun {P} => ⟨fun h => h t ((hearlier t).mpr rfl), fun h t' ht' => (hearlier t').mp ht' ▸ h⟩
  apply Job.ext
  · funext f
    change (newPrompts.foldl _ (p.char f)).getD (t.char f) = _
    rw [foldl_none fun new hin => hnew new hin f]
    rfl
  · rfl
  · rfl
  · exact hfk _ _ hinventory
  · exact hfk _ _ henvironment
  · change layered t.credentials ((chosen (p.credentials.getD [])).filter fun c => ∀ t' ∈ earlier, c ∉ t'.credentials) =
      ((combineCredentials order t p.credentials).map List.toFinset).getD t.credentials
    simp only [hkept]
    rw [layered_sdiff ht exclusive_chosen]
    cases hcreds : p.credentials with
    | none => exact layered_empty _
    | some creds => exact (combineCredentials_eq order (fun hnil => hcredentials (hcreds.trans (congrArg some hnil))) ht).symm
  · change t.labels ∪ (p.labels.getD []).toFinset.filter (fun l => ∀ t' ∈ earlier, l ∉ t'.labels) =
      t.labels ∪ (p.labels.getD []).toFinset
    simp only [hkept]
    ext l
    simp only [Finset.mem_union, Finset.mem_filter]
    tauto
  · change some (if p.instanceGroups = [] then t.preferredInstanceGroups (p.inventory.join.or t.inventory)
      else addAll p.instanceGroups) = _
    rw [hfk _ _ hinventory, addAll_of_nodup hgroups]
    rfl

end Relaunch

end Forail.Launch
