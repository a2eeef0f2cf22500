import Forail.Base.MapM
import Forail.Utils.MemInventory
import Mathlib.Logic.Relation

/-! What a loaded inventory holds: the hosts of the data under their names without ports, with the
variables of their own names, and groups with hosts, children and variables of the data only. -/

namespace Forail.InventoryData

open ExceptFold

variable {u : UnicodeData} {filters : Filters} {inv inv' : MemInventory} {group name host : Str}

/-! ### Groups of the inventory -/

@[simp] theorem MemInventory.group_empty : MemInventory.empty.group name = .empty := ite_self _

@[simp] theorem MemInventory.group_setGroup (g : MemGroup) :
    (inv.setGroup group g).group name = if name = group then g else inv.group name := by
  unfold setGroup MemInventory.group
  by_cases hall : group = allName
  · rw [if_pos hall]
    by_cases hname : name = allName
    · rw [if_pos hname, if_pos (hname.trans hall.symm)]
    · rw [if_neg hname, if_neg hname, if_neg fun h => hname (h.trans hall)]
  · rw [if_neg hall]
    by_cases hname : name = allName
    · rw [if_pos hname, if_pos hname, if_neg fun h => hall (h.symm.trans hname)]
    · rw [if_neg hname, if_neg hname, Dict.getD_set]

@[simp] theorem MemInventory.allHosts_setGroup (g : MemGroup) :
    (inv.setGroup group g).allHosts = inv.allHosts := by
  unfold setGroup
  split_ifs <;> rfl

/-! ### What the steps do -/

/-- The host is filtered, or known, or created with its port. -/
theorem getHost_cases {found : Option Str} (h : getHost u filters inv name = .ok (found, inv')) :
    filters.keepsHost (hostName u name) = false ∧ found = none ∧ inv' = inv ∨
      filters.keepsHost (hostName u name) = true ∧ found = some (hostName u name) ∧
        (hostName u name ∈ inv.allHosts.keys ∧ inv' = inv ∨ ∃ port, hostPort u name = .ok port ∧
          hostName u name ∉ inv.allHosts.keys ∧ hostName u name ≠ [] ∧
          inv' = { inv with allHosts := inv.allHosts.set (hostName u name) (portVars port) }) := by
  unfold getHost at h
  obtain ⟨port, hport, h⟩ := bind_eq_ok.mp h
  dsimp only at h
  split_ifs at h with hfilter hknown hempty
  · cases h
    exact .inr ⟨hfilter, rfl, .inl ⟨hknown, rfl⟩⟩
  · cases h
    exact .inr ⟨hfilter, rfl, .inr ⟨port, hport, hknown, hempty, rfl⟩⟩
  · cases h
    exact .inl ⟨Bool.eq_false_iff.mpr hfilter, rfl, rfl⟩

/-- The group is `all`, or filtered, or known, or created and put below `all` if it is no child. -/
theorem getGroup_cases {child : Bool} {found : Option Str}
    (h : getGroup filters child inv name = .ok (found, inv')) :
    (name = allName ∨ name = ungrouped) ∧ found = some allName ∧ inv' = inv ∨
      (name ≠ allName ∧ name ≠ ungrouped) ∧
        (filters.keepsGroup name = false ∧ found = none ∧ inv' = inv ∨
          filters.keepsGroup name = true ∧ found = some name ∧
            (name ∈ inv.allGroups.keys ∧ inv' = inv ∨ name ∉ inv.allGroups.keys ∧ name ≠ [] ∧
              inv' = if child then inv.setGroup name .empty
                else (inv.setGroup name .empty).linkChild allName name)) := by
  unfold getGroup at h
  split_ifs at h with hall hfilter hknown hempty hchild
  · cases h
    exact .inl ⟨hall, rfl, rfl⟩
  · cases h
    exact .inr ⟨not_or.mp hall, .inr ⟨hfilter, rfl, .inl ⟨hknown, rfl⟩⟩⟩
  · cases h
    rw [if_pos hchild]
    exact .inr ⟨not_or.mp hall, .inr ⟨hfilter, rfl, .inr ⟨hknown, hempty, rfl⟩⟩⟩
  · obtain ⟨inv₁, hadd, h⟩ := bind_eq_ok.mp h
    cases h
    rw [MemInventory.addChildGroup, if_neg (not_or.mp hall).1] at hadd
    cases hadd
    rw [if_neg hchild]
    exact .inr ⟨not_or.mp hall, .inr ⟨hfilter, rfl, .inr ⟨hknown, hempty, rfl⟩⟩⟩
  · cases h
    exact .inr ⟨not_or.mp hall, .inl ⟨Bool.eq_false_iff.mpr hfilter, rfl, rfl⟩⟩

/-! ### Loading in steps -/

/-- The group that hosts and variables under a name go to. -/
def target (name : Str) : Str := if name = ungrouped then allName else name

def MemInventory.Knows (inv : MemInventory) (name : Str) : Prop :=
  name = allName ∨ name ∈ inv.allGroups.keys

/-- The groups of the data go below `all`, and their children below them. -/
def Data.Below (data : Data) (parent child : Str) : Prop :=
  parent = allName ∧ (∃ v, data.get? child = some v) ∨
    ∃ k v, target k = parent ∧ data.get? k = some v ∧ child ∈ v.children

inductive LoadStep (u : UnicodeData) (data : Data) : MemInventory → MemInventory → Prop
  | newHost {inv : MemInventory} {k : Str} {v : Entry} {e : Str × Option Vars} {port : Option ℤ} :
      data.get? k = some v → e ∈ v.hosts → hostName u e.1 ∉ inv.allHosts.keys →
      hostName u e.1 ≠ [] → hostPort u e.1 = .ok port →
      LoadStep u data inv
        { inv with allHosts := inv.allHosts.set (hostName u e.1) (portVars port) }
  | addHost {inv : MemInventory} {k : Str} {v : Entry} {e : Str × Option Vars} :
      data.get? k = some v → e ∈ v.hosts → inv.Knows (target k) →
      hostName u e.1 ∈ inv.allHosts.keys →
      LoadStep u data inv
        ((inv.updateHost (hostName u e.1) (e.2.getD .empty)).addHost (target k) (hostName u e.1))
  | addVars {inv : MemInventory} {k : Str} {v : Entry} :
      data.get? k = some v → inv.Knows (target k) →
      LoadStep u data inv (inv.updateGroup (target k) v.vars)
  | newGroup {inv : MemInventory} {parent name : Str} :
      data.Below parent name → inv.Knows parent → name ∉ inv.allGroups.keys → name ≠ [] →
      name ≠ allName → name ≠ ungrouped →
      LoadStep u data inv ((inv.setGroup name .empty).linkChild parent name)
  | link {inv : MemInventory} {parent name : Str} :
      data.Below parent name → inv.Knows parent → name ∈ inv.allGroups.keys → name ≠ allName →
      LoadStep u data inv (inv.linkChild parent name)

theorem MemInventory.knows_setGroup (g : MemGroup) :
    (inv.setGroup group g).Knows name ↔ name = group ∨ inv.Knows name := by
  unfold setGroup Knows
  by_cases hall : group = allName
  · rw [if_pos hall, hall]
    exact or_self_left.symm
  · rw [if_neg hall, Dict.keys_set]
    split_ifs with hknown
    · constructor
      · exact .inr
      · rintro (rfl | h)
        · exact .inr hknown
        · exact h
    · rw [List.mem_append, List.mem_singleton]
      tauto

section Steps
variable {data : Data}

theorem LoadStep.knows (h : LoadStep u data inv inv') (hknows : inv.Knows name) :
    inv'.Knows name := by
  cases h with
  | newHost => exact hknows
  | addHost => exact (MemInventory.knows_setGroup _).mpr (.inr hknows)
  | addVars => exact (MemInventory.knows_setGroup _).mpr (.inr hknows)
  | newGroup =>
    exact (MemInventory.knows_setGroup _).mpr (.inr ((MemInventory.knows_setGroup _).mpr (.inr hknows)))
  | link => exact (MemInventory.knows_setGroup _).mpr (.inr hknows)

theorem LoadStep.hosts (h : LoadStep u data inv inv') (hhost : host ∈ inv.allHosts.keys) :
    host ∈ inv'.allHosts.keys := by
  have hset : ∀ (name : Str) (vars : Vars), host ∈ (inv.allHosts.set name vars).keys := by
    intro name vars
    rw [Dict.keys_set]
    split_ifs
    · exact hhost
    · exact List.mem_append_left _ hhost
  cases h with
  | newHost => exact hset _ _
  | addHost =>
    rw [MemInventory.addHost, MemInventory.allHosts_setGroup]
    exact hset _ _
  | addVars =>
    rw [MemInventory.updateGroup, MemInventory.allHosts_setGroup]
    exact hhost
  | newGroup =>
    rw [MemInventory.linkChild, MemInventory.allHosts_setGroup, MemInventory.allHosts_setGroup]
    exact hhost
  | link =>
    rw [MemInventory.linkChild, MemInventory.allHosts_setGroup]
    exact hhost

open Relation

abbrev LoadSteps (u : UnicodeData) (data : Data) : MemInventory → MemInventory → Prop :=
  ReflTransGen (LoadStep u data)

theorem LoadSteps.knows (h : LoadSteps u data inv inv') (hknows : inv.Knows name) :
    inv'.Knows name := by
  induction h with
  | refl => exact hknows
  | tail _ hstep ih => exact hstep.knows ih

theorem LoadSteps.hosts (h : LoadSteps u data inv inv') (hhost : host ∈ inv.allHosts.keys) :
    host ∈ inv'.allHosts.keys := by
  induction h with
  | refl => exact hhost
  | tail _ hstep ih => exact hstep.hosts ih

variable {k : Str} {v : Entry}

/-- The host is there afterwards, unless it is filtered. -/
theorem loadHost_steps {e : Str × Option Vars} (hv : data.get? k = some v) (he : e ∈ v.hosts)
    (hknows : inv.Knows (target k)) (h : loadHost u filters (target k) inv e = .ok inv') :
    LoadSteps u data inv inv' ∧
      (filters.keepsHost (hostName u e.1) = true → hostName u e.1 ∈ inv'.allHosts.keys) := by
  obtain ⟨⟨found, inv₁⟩, hget, hend⟩ := bind_eq_ok.mp h
  rcases getHost_cases hget with ⟨hfilter, rfl, rfl⟩ | ⟨-, rfl, hcases⟩
  · cases hend
    exact ⟨.refl, fun hkeeps => absurd (hfilter.symm.trans hkeeps) (by decide)⟩
  · cases hend
    have hsteps : LoadSteps u data inv inv₁ ∧ hostName u e.1 ∈ inv₁.allHosts.keys := by
      rcases hcases with ⟨hknown, rfl⟩ | ⟨port, hport, hnew, hname, rfl⟩
      · exact ⟨.refl, hknown⟩
      · refine ⟨.single (.newHost hv he hnew hname hport), ?_⟩
        rw [Dict.keys_set, if_neg hnew]
        exact List.mem_append_right _ (List.mem_singleton.mpr rfl)
    have hadd := LoadStep.addHost hv he (hsteps.1.knows hknows) hsteps.2
    exact ⟨hsteps.1.tail hadd, fun _ => hadd.hosts hsteps.2⟩

theorem loadChild_steps {name : Str} (hbelow : data.Below group name) (hknows : inv.Knows group)
    (h : loadChild filters group inv name = .ok inv') : LoadSteps u data inv inv' ∧
      (filters.keepsGroup name = true → name ≠ ungrouped → inv'.Knows name) := by
  obtain ⟨⟨found, inv₁⟩, hget, hend⟩ := bind_eq_ok.mp h
  rcases getGroup_cases hget with ⟨hall, rfl, rfl⟩ | ⟨⟨hall, hungrouped⟩, hcases⟩
  · dsimp only at hend
    split_ifs at hend with hungrouped
    · cases hend
      exact ⟨.refl, fun _ hne => absurd hungrouped hne⟩
    · cases hend
  · rcases hcases with ⟨hfilter, rfl, rfl⟩ | ⟨-, rfl, hcases⟩
    · cases hend
      exact ⟨.refl, fun hkeeps => absurd (hfilter.symm.trans hkeeps) (by decide)⟩
    · dsimp only at hend
      rw [if_neg hungrouped, MemInventory.addChildGroup, if_neg hall] at hend
      cases hend
      rcases hcases with ⟨hknown, rfl⟩ | ⟨hnew, hname, rfl⟩
      · have hlink := LoadStep.link (u := u) hbelow hknows hknown hall
        exact ⟨.single hlink, fun _ _ => hlink.knows (.inr hknown)⟩
      · refine ⟨.single (.newGroup hbelow hknows hnew hname hall hungrouped), fun _ _ => ?_⟩
        exact (MemInventory.knows_setGroup _).mpr (.inr ((MemInventory.knows_setGroup _).mpr (.inl rfl)))

/-- Of an entry, everything that is not filtered is known. -/
structure Complete (u : UnicodeData) (filters : Filters) (k : Str) (v : Entry)
    (inv : MemInventory) : Prop where
  group : inv.Knows (target k)
  hosts : ∀ e ∈ v.hosts, filters.keepsHost (hostName u e.1) = true →
    hostName u e.1 ∈ inv.allHosts.keys
  children : ∀ c ∈ v.children, filters.keepsGroup c = true → c ≠ ungrouped → inv.Knows c

theorem Complete.mono (h : Complete u filters k v inv) (hsteps : LoadSteps u data inv inv') :
    Complete u filters k v inv' where
  group := hsteps.knows h.group
  hosts e he hkeeps := hsteps.hosts (h.hosts e he hkeeps)
  children c hc hkeeps hne := hsteps.knows (h.children c hc hkeeps hne)

/-- An entry is complete afterwards, unless its group is filtered. -/
theorem loadGroup_steps (hv : data.get? k = some v)
    (h : loadGroup u filters inv (k, v) = .ok inv') : LoadSteps u data inv inv' ∧
      (filters.keepsGroup k = true ∨ k = allName ∨ k = ungrouped → Complete u filters k v inv') := by
  obtain ⟨⟨found, inv₁⟩, hget, hend⟩ := bind_eq_ok.mp h
  have hfound : found = none ∧ inv₁ = inv ∧ ¬ (filters.keepsGroup k = true ∨ k = allName ∨ k = ungrouped) ∨
      found = some (target k) ∧ LoadSteps u data inv inv₁ ∧ inv₁.Knows (target k) := by
    rcases getGroup_cases hget with ⟨hall, rfl, rfl⟩ | ⟨⟨hall, hungrouped⟩, hcases⟩
    · have htarget : target k = allName := by
        unfold target
        rcases hall with rfl | rfl
        · exact ite_self _
        · exact if_pos rfl
      exact .inr ⟨by rw [htarget], .refl, .inl htarget⟩
    · have htarget : target k = k := if_neg hungrouped
      rcases hcases with ⟨hfilter, rfl, rfl⟩ | ⟨-, rfl, hcases⟩
      · refine .inl ⟨rfl, rfl, ?_⟩
        rintro (hkeeps | heq | heq)
        · exact absurd (hfilter.symm.trans hkeeps) (by decide)
        · exact hall heq
        · exact hungrouped heq
      · refine .inr ⟨by rw [htarget], ?_⟩
        rw [htarget]
        rcases hcases with ⟨hknown, rfl⟩ | ⟨hnew, hname, rfl⟩
        · exact ⟨.refl, .inr hknown⟩
        · rw [if_neg Bool.false_ne_true]
          refine ⟨.single (.newGroup (.inl ⟨rfl, v, hv⟩) (.inl rfl) hnew hname hall hungrouped), ?_⟩
          exact (MemInventory.knows_setGroup _).mpr (.inr ((MemInventory.knows_setGroup _).mpr (.inl rfl)))
  rcases hfound with ⟨rfl, rfl, hnot⟩ | ⟨rfl, hsteps, hknows⟩
  · cases hend
    exact ⟨.refl, fun hkeeps => absurd hkeeps hnot⟩
  · obtain ⟨inv₂, hhosts, hend⟩ := bind_eq_ok.mp hend
    obtain ⟨inv₃, hchildren, hlast⟩ := bind_eq_ok.mp hend
    have hsteps₂ : LoadSteps u data inv₁ inv₂ := by
      refine foldlM_keeps (P := LoadSteps u data inv₁) (fun s e he s' hs hstep => ?_) .refl hhosts
      exact hs.trans (loadHost_steps hv he (hs.knows hknows) hstep).1
    have hvars : LoadStep u data inv₂ (inv₂.updateGroup (target k) v.vars) :=
      .addVars hv (hsteps₂.knows hknows)
    have hknows₂ : (inv₂.updateGroup (target k) v.vars).Knows (target k) :=
      hvars.knows (hsteps₂.knows hknows)
    have hbelow : ∀ c ∈ v.children, data.Below (target k) c := fun c hc =>
      .inr ⟨k, v, rfl, hv, hc⟩
    have hsteps₃ : LoadSteps u data (inv₂.updateGroup (target k) v.vars) inv₃ := by
      refine foldlM_keeps (P := LoadSteps u data (inv₂.updateGroup (target k) v.vars))
        (fun s c hc s' hs hstep => ?_) .refl hchildren
      exact hs.trans (loadChild_steps (hbelow c hc) (hs.knows hknows₂) hstep).1
    have hsteps₄ : LoadSteps u data inv₃ inv' := by
      dsimp only at hlast
      split_ifs at hlast with hall
      · cases hlast
        exact .refl
      · have htarget : target k = k := if_neg (not_or.mp hall).2
        rw [MemInventory.addChildGroup, htarget, if_neg (not_or.mp hall).1] at hlast
        cases hlast
        refine .single (.link (.inl ⟨rfl, v, hv⟩) (.inl rfl) ?_ (not_or.mp hall).1)
        have hknown := hsteps₃.knows hknows₂
        rw [htarget] at hknown
        exact hknown.resolve_left (not_or.mp hall).1
    have hrest := (ReflTransGen.single hvars).trans (hsteps₃.trans hsteps₄)
    refine ⟨hsteps.trans (hsteps₂.trans hrest), fun _ => ⟨?_, fun e he hkeeps => ?_, ?_⟩⟩
    · exact LoadSteps.knows hrest (hsteps₂.knows hknows)
    · refine LoadSteps.hosts hrest ?_
      refine foldlM_reaches (P := fun s : MemInventory => s.Knows (target k))
        (Q := fun s : MemInventory => hostName u e.1 ∈ s.allHosts.keys)
        (fun s e' he' s' hs hstep => ?_) he
        (fun s s' hs hstep => (loadHost_steps hv he hs hstep).2 hkeeps) hknows hhosts
      have hstep' := (loadHost_steps hv he' hs hstep).1
      exact ⟨hstep'.knows hs, hstep'.hosts⟩
    · intro c hc hkeeps hne
      refine hsteps₄.knows (foldlM_reaches (P := fun s : MemInventory => s.Knows (target k))
        (Q := fun s : MemInventory => s.Knows c) (fun s c' hc' s' hs hstep => ?_) hc
        (fun s s' hs hstep => (loadChild_steps (u := u) (hbelow c hc) hs hstep).2 hkeeps hne)
        hknows₂ hchildren)
      have hstep' := (loadChild_steps (u := u) (hbelow c' hc') hs hstep).1
      exact ⟨hstep'.knows hs, hstep'.knows⟩

/-- Loading, before the variables of `_meta` are added. -/
theorem foldlM_loadGroup_steps (h : data.entries.foldlM (loadGroup u filters) .empty = .ok inv) :
    LoadSteps u data .empty inv :=
  foldlM_keeps (fun _ _ he _ hs hstep =>
    hs.trans (loadGroup_steps (Dict.get?_of_mem_entries he) hstep).1) .refl h

theorem complete_of_foldlM (h : data.entries.foldlM (loadGroup u filters) .empty = .ok inv)
    (hv : data.get? k = some v)
    (hkeeps : filters.keepsGroup k = true ∨ k = allName ∨ k = ungrouped) :
    Complete u filters k v inv := by
  refine foldlM_reaches (P := fun _ => True) (Q := Complete u filters k v)
    (fun s e' he' s' _ hstep => ⟨trivial, fun hs => ?_⟩)
    (Dict.mem_entries_of_get? hv) (fun s s' _ hstep => (loadGroup_steps hv hstep).2 hkeeps) trivial h
  exact hs.mono (loadGroup_steps (Dict.get?_of_mem_entries he') hstep).1

/-! ### Sources -/

theorem mem_appendNew {names : List Str} {x : Str} :
    x ∈ appendNew names name ↔ x ∈ names ∨ x = name := by
  unfold appendNew
  split_ifs with hmem
  · constructor
    · exact .inl
    · rintro (h | rfl)
      · exact h
      · exact hmem
  · rw [List.mem_append, List.mem_singleton]

/-- All that the groups hold is in the data. -/
structure Sourced (u : UnicodeData) (data : Data) (inv : MemInventory) : Prop where
  hosts : ∀ name, ∀ host ∈ (inv.group name).hosts, ∃ k v e, target k = name ∧
    data.get? k = some v ∧ e ∈ v.hosts ∧ hostName u e.1 = host
  vars : ∀ name key value, (inv.group name).vars.get? key = some value → ∃ k v, target k = name ∧
    data.get? k = some v ∧ v.vars.get? key = some value
  children : ∀ name, ∀ child ∈ (inv.group name).children, child ≠ allName ∧ data.Below name child

theorem sourced_empty : Sourced u data .empty := by
  refine ⟨fun name host h => ?_, fun name key value h => ?_, fun name child h => ?_⟩
  · rw [MemInventory.group_empty] at h
    cases h
  · rw [MemInventory.group_empty] at h
    cases h
  · rw [MemInventory.group_empty] at h
    cases h

theorem Sourced.setGroup (h : Sourced u data inv) {g : MemGroup}
    (hhosts : ∀ host ∈ g.hosts, ∃ k v e, target k = group ∧ data.get? k = some v ∧ e ∈ v.hosts ∧
      hostName u e.1 = host)
    (hvars : ∀ key value, g.vars.get? key = some value → ∃ k v, target k = group ∧
      data.get? k = some v ∧ v.vars.get? key = some value)
    (hchildren : ∀ child ∈ g.children, child ≠ allName ∧ data.Below group child) :
    Sourced u data (inv.setGroup group g) := by
  refine ⟨fun name => ?_, fun name => ?_, fun name => ?_⟩
  · rw [MemInventory.group_setGroup]
    split_ifs with hname
    · rw [hname]
      exact hhosts
    · exact h.hosts name
  · rw [MemInventory.group_setGroup]
    split_ifs with hname
    · rw [hname]
      exact hvars
    · exact h.vars name
  · rw [MemInventory.group_setGroup]
    split_ifs with hname
    · rw [hname]
      exact hchildren
    · exact h.children name

theorem Sourced.linkChild (h : Sourced u data inv) (hname : name ≠ allName)
    (hbelow : data.Below group name) : Sourced u data (inv.linkChild group name) := by
  refine h.setGroup (h.hosts group) (h.vars group) fun child hchild => ?_
  rcases mem_appendNew.mp hchild with hchild | rfl
  · exact h.children group child hchild
  · exact ⟨hname, hbelow⟩

theorem LoadStep.sourced (hstep : LoadStep u data inv inv') (h : Sourced u data inv) :
    Sourced u data inv' := by
  cases hstep with
  | newHost => exact ⟨h.hosts, h.vars, h.children⟩
  | @addHost k v e hv he =>
    have hupdate : Sourced u data (inv.updateHost (hostName u e.1) (e.2.getD .empty)) :=
      ⟨h.hosts, h.vars, h.children⟩
    refine hupdate.setGroup (fun host hhost => ?_) (h.vars _) (h.children _)
    rcases mem_appendNew.mp hhost with hhost | rfl
    · exact h.hosts _ host hhost
    · exact ⟨k, v, e, rfl, hv, he, rfl⟩
  | @addVars k v hv =>
    refine h.setGroup (h.hosts _) (fun key value hvalue => ?_) (h.children _)
    rw [Dict.get?_update] at hvalue
    rcases Option.or_eq_some_iff.mp hvalue with hnew | ⟨-, hold⟩
    · exact ⟨k, v, rfl, hv, hnew⟩
    · exact h.vars _ key value hold
  | newGroup hbelow _ _ _ hname =>
    exact (h.setGroup (fun _ h => by cases h) (fun _ _ h => by cases h) fun _ h => by cases h).linkChild
      hname hbelow
  | link hbelow _ _ hname => exact h.linkChild hname hbelow

theorem LoadSteps.sourced (h : LoadSteps u data .empty inv) : Sourced u data inv := by
  induction h with
  | refl => exact sourced_empty
  | tail _ hstep ih => exact hstep.sourced ih

/-! ### Members -/

/-- The hosts of a group of the data and of its children. -/
inductive Data.Member (data : Data) : Str → Str → Prop
  | host {k : Str} {v : Entry} {e : Str × Option Vars} :
      data.get? k = some v → e ∈ v.hosts → Member data k e.1
  | child {k c n : Str} {v : Entry} :
      data.get? k = some v → c ∈ v.children → Member data c n → Member data k n

inductive MemInventory.Member (inv : MemInventory) : Str → Str → Prop
  | host {group host : Str} : host ∈ (inv.group group).hosts → Member inv group host
  | child {group child host : Str} :
      child ∈ (inv.group group).children → Member inv child host → Member inv group host

/-- The variable is one of the host by `all` or another group that it is in. -/
def MemInventory.Applies (inv : MemInventory) (key : Str) (value : Value) (host : Str) : Prop :=
  inv.allGroup.vars.get? key = some value ∨
    ∃ group, group ≠ allName ∧ (inv.group group).vars.get? key = some value ∧ inv.Member group host

theorem target_ne (h : target k ≠ allName) : target k = k := by
  unfold target at h ⊢
  split_ifs at h ⊢
  · exact absurd rfl h
  · rfl

theorem Sourced.member (h : Sourced u data inv) (hmember : inv.Member group host)
    (hgroup : group ≠ allName) : ∃ n, data.Member group n ∧ hostName u n = host := by
  induction hmember with
  | @host group host hhost =>
    obtain ⟨k, v, e, rfl, hv, he, rfl⟩ := h.hosts group host hhost
    rw [target_ne hgroup]
    exact ⟨e.1, .host hv he, rfl⟩
  | @child group child host hchild _ ih =>
    obtain ⟨hne, hbelow⟩ := h.children group child hchild
    obtain ⟨k, v, rfl, hv, hc⟩ := hbelow.resolve_left fun hbelow => hgroup hbelow.1
    obtain ⟨n, hn, hname⟩ := ih hne
    rw [target_ne hgroup]
    exact ⟨n, .child hv hc hn, hname⟩

/-! ### The loaded inventory -/

theorem truth_of_hostvars {hostMeta : Entry} {hostvars : Dict Str (Option Vars)}
    (h : hostMeta.hostvars = some hostvars) : hostMeta.truth = true := by
  cases hostMeta with
  | dict fields =>
    have hsome : fields.hostvars.isSome = true := by
      cases hvars : fields.hostvars with
      | none =>
        rw [Entry.hostvars, hvars] at h
        cases h
      | some vars => rfl
    simp only [Entry.truth, hsome, Bool.or_true, Bool.true_or]
  | list names => cases h
  | other truth => cases h

/-- `_meta` only adds variables to the hosts. -/
theorem loadMeta_groups {hostMeta : Entry} (h : loadMeta hostMeta inv = .ok inv') :
    inv'.allGroup = inv.allGroup ∧ inv'.allGroups = inv.allGroups ∧
      inv'.allHosts.keys = inv.allHosts.keys := by
  unfold loadMeta at h
  by_cases htruth : hostMeta.truth = true
  · rw [if_pos htruth] at h
    cases hvars : hostMeta.hostvars with
    | none =>
      rw [hvars] at h
      dsimp only at h
      split_ifs at h
      cases h
      exact ⟨rfl, rfl, rfl⟩
    | some hostvars =>
      rw [hvars] at h
      cases h
      exact ⟨rfl, rfl, Dict.keys_mapValues _ _⟩
  · rw [if_neg htruth] at h
    cases h
    exact ⟨rfl, rfl, rfl⟩

theorem loadMeta_hosts {hostMeta : Entry} {hostvars : Dict Str (Option Vars)}
    (hvars : hostMeta.hostvars = some hostvars) (h : loadMeta hostMeta inv = .ok inv') :
    inv'.allHosts.get? host = (inv.allHosts.get? host).map fun vars =>
      vars.update (((hostvars.get? host).getD none).getD .empty).entries := by
  unfold loadMeta at h
  rw [if_pos (truth_of_hostvars hvars), hvars] at h
  cases h
  exact Dict.get?_mapValues _ _ _

theorem dictToMemData_eq_ok (h : dictToMemData u filters data = .ok inv) : ∃ inv₁,
    data.groups.entries.foldlM (loadGroup u filters) .empty = .ok inv₁ ∧
      loadMeta data.hostMeta inv₁ = .ok inv := bind_eq_ok.mp h

theorem group_of_loadMeta {hostMeta : Entry} (h : loadMeta hostMeta inv = .ok inv') (name : Str) :
    inv'.group name = inv.group name := by
  obtain ⟨hall, hgroups, -⟩ := loadMeta_groups h
  rw [MemInventory.group, MemInventory.group, hall, hgroups]

theorem Sourced.of_group (h : Sourced u data inv) (hgroup : ∀ name, inv'.group name = inv.group name) :
    Sourced u data inv' := by
  refine ⟨fun name => ?_, fun name => ?_, fun name => ?_⟩
  · rw [hgroup]
    exact h.hosts name
  · rw [hgroup]
    exact h.vars name
  · rw [hgroup]
    exact h.children name

theorem hostName_of_not_hasPort (h : ¬ HasPort u name) : hostName u name = name := by
  obtain ⟨haddress, hcolon⟩ := not_or.mp h
  have hnone : ipv6PortRe u name = none := Option.not_isSome_iff_eq_none.mp haddress
  rw [hostName, hnone]
  exact if_neg hcolon

/-- Hosts are those of the data without their ports, with the variables of their names; a variable
of a group is one of its hosts only, but those of `ungrouped` are, like those of `all`, of all. -/
theorem loaded_hosts_and_vars (u : UnicodeData) (filters : Filters) (data : Data)
    (inv : MemInventory) (h : dictToMemData u filters data = .ok inv) :
    (∀ k v e, data.groups.get? k = some v →
      (filters.keepsGroup k = true ∨ k = allName ∨ k = ungrouped) → e ∈ v.hosts →
      filters.keepsHost (hostName u e.1) = true → hostName u e.1 ∈ inv.allHosts.keys) ∧
    (∀ n n', n ≠ n' → ¬ HasPort u n → ¬ HasPort u n' → hostName u n ≠ hostName u n') ∧
    (∀ host vars hostvars own key value, inv.allHosts.get? host = some vars →
      data.hostMeta.hostvars = some hostvars → hostvars.get? host = some (some own) →
      own.get? key = some value → vars.get? key = some value) ∧
    (∀ key value host, inv.Applies key value host → ∃ k v, data.groups.get? k = some v ∧
      v.vars.get? key = some value ∧
      (k = allName ∨ k = ungrouped ∨ ∃ n, data.groups.Member k n ∧ hostName u n = host)) := by
  obtain ⟨inv₁, hgroups, hmeta⟩ := dictToMemData_eq_ok h
  refine ⟨fun k v e hv hkeeps he hkeepsHost => ?_, fun n n' hne hn hn' => ?_, ?_, ?_⟩
  · rw [(loadMeta_groups hmeta).2.2]
    exact (complete_of_foldlM hgroups hv hkeeps).hosts e he hkeepsHost
  · rw [hostName_of_not_hasPort hn, hostName_of_not_hasPort hn']
    exact hne
  · intro host vars hostvars own key value hvars hhostvars hown hvalue
    rw [loadMeta_hosts hhostvars hmeta, hown] at hvars
    obtain ⟨before, -, rfl⟩ := Option.map_eq_some_iff.mp hvars
    rw [Option.getD_some, Option.getD_some, Dict.get?_update, hvalue, Option.some_or]
  · have hsourced : Sourced u data.groups inv :=
      ((foldlM_loadGroup_steps hgroups).sourced).of_group (group_of_loadMeta hmeta)
    rintro key value host (hall | ⟨group, hgroup, hvalue, hmember⟩)
    · obtain ⟨k, v, htarget, hv, hvalue⟩ := hsourced.vars allName key value hall
      refine ⟨k, v, hv, hvalue, ?_⟩
      by_cases hungrouped : k = ungrouped
      · exact .inr (.inl hungrouped)
      · exact .inl ((if_neg hungrouped).symm.trans htarget)
    · obtain ⟨k, v, rfl, hv, hvalue⟩ := hsourced.vars group key value hvalue
      obtain ⟨n, hn, hname⟩ := hsourced.member hmember hgroup
      rw [target_ne hgroup] at hn
      exact ⟨k, v, hv, hvalue, .inr (.inr ⟨n, hn, hname⟩)⟩

end Steps

/-- A group with two hosts that differ in the port, and a variable of `ungrouped`. -/
def portsData : Data where
  entries :=
    [(['g'], .dict { Fields.empty with hosts := some (.list [['h', ':', '1'], ['h', ':', '2']]) }),
      (ungrouped, .dict { Fields.empty with vars := some (some ⟨[(['x'], .null)], by decide⟩) })]
  nodup := by decide

theorem portsData_loaded : ∃ inv, dictToMemData asciiData .none portsData = .ok inv ∧
    ['h'] ∈ inv.allHosts.keys :=
  ⟨_, rfl, (loaded_hosts_and_vars asciiData .none portsData _ rfl).1 ['g'] _ (['h', ':', '1'], none)
    rfl (.inl rfl) List.mem_cons_self rfl⟩

theorem mem_portsData {k : Str} {v : Entry} (hv : portsData.groups.get? k = some v) :
    k = ['g'] ∧ v = .dict { Fields.empty with
        hosts := some (.list [['h', ':', '1'], ['h', ':', '2']]) } ∨
      k = ungrouped ∧ v = .dict { Fields.empty with
        vars := some (some ⟨[(['x'], .null)], by decide⟩) } := by
  rcases List.mem_cons.mp (Dict.mem_entries_of_get? hv) with heq | hmem
  · exact .inl (Prod.mk.inj heq)
  · exact .inr (Prod.mk.inj (List.mem_singleton.mp hmem))

theorem not_member_ungrouped {n : Str} : ¬ portsData.groups.Member ungrouped n := by
  intro hmember
  cases hmember with
  | host hv he =>
    rcases mem_portsData hv with ⟨heq, -⟩ | ⟨-, rfl⟩
    · exact absurd heq (by decide)
    · cases he
  | child hv hc =>
    rcases mem_portsData hv with ⟨heq, -⟩ | ⟨-, rfl⟩
    · exact absurd heq (by decide)
    · cases hc

/-- Each host of the inventory is one name of the data. -/
def Apart (data : Data) (inv : MemInventory) : Prop :=
  ∀ k v e k' v' e' host, data.groups.get? k = some v → e ∈ v.hosts → data.groups.get? k' = some v' →
    e' ∈ v'.hosts → getHost asciiData .none inv e.1 = .ok (some host, inv) →
    getHost asciiData .none inv e'.1 = .ok (some host, inv) → e.1 = e'.1

/-- Each variable is one of a group that the host is in. -/
def Within (data : Data) (inv : MemInventory) : Prop :=
  ∀ key value host, host ∈ inv.allHosts.keys → inv.Applies key value host → ∃ k v,
    data.groups.get? k = some v ∧ v.vars.get? key = some value ∧
      (k = allName ∨ data.groups.Member k host)

theorem ports_merged_and_ungrouped_spread :
    (¬ ∀ data inv, dictToMemData asciiData .none data = .ok inv → Apart data inv) ∧
      ¬ ∀ data inv, dictToMemData asciiData .none data = .ok inv → Within data inv := by
  constructor
  · intro hall
    have hsame := hall portsData _ rfl ['g'] _ (['h', ':', '1'], none) ['g'] _
      (['h', ':', '2'], none) ['h'] rfl List.mem_cons_self rfl
      (List.mem_cons_of_mem _ List.mem_cons_self) rfl rfl
    exact absurd hsame (by decide)
  · intro hall
    obtain ⟨k, v, hv, hvalue, hk⟩ := hall portsData _ rfl ['x'] .null ['h'] (by decide) (.inl rfl)
    rcases mem_portsData hv with ⟨rfl, rfl⟩ | ⟨rfl, rfl⟩
    · cases hvalue
    · rcases hk with hk | hmember
      · exact absurd hk (by decide)
      · exact not_member_ungrouped hmember

end Forail.InventoryData
