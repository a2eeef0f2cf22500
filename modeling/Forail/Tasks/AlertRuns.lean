import Forail.Tasks.DriftAlerts

/-! When the alerts are in the scope of their rules, have enough rows, and are apart by the cooldown: hosts
without an organization meet rules without one only, and a run passes the cooldown of a rule only where
its copy knows of the last alert and no other run has passed it and not recorded its alert. -/

namespace Forail.DriftAlerts

/-- The host is in the scope of the rule. -/
structure InScope (site : Site) (rule : Rule) (host : Host) : Prop where
  organization : rule.organization = none ∨
    ∃ organization, rule.organization = some organization ∧ host.organization = some organization
  inventory : rule.inventory = none ∨ rule.inventory = some host.inventory
  filter : rule.hostFilter = "" ∨ site.fnmatch host.name rule.hostFilter = true

/-- Each alert is one of its rule, and those of one rule are apart. -/
structure AlertsRight (site : Site) (s : State) : Prop where
  scope : ∀ a ∈ s.alerts, ∃ rule host, site.rules.get? a.rule = some rule ∧
    site.hosts.get? a.host = some host ∧ InScope site rule host
  rows : ∀ a ∈ s.alerts, ∃ rule, site.rules.get? a.rule = some rule ∧
    a.countedAt ≤ a.createdAt ∧ rule.thresholdCount ≤ (s.drifts.filter fun drift =>
      rule.counts a.host a.countedAt drift ∧ drift.detectedAt ≤ a.countedAt).length
  apart : s.alerts.Pairwise fun a b => a.rule = b.rule → ∀ rule, site.rules.get? a.rule = some rule →
    a.createdAt + minutes rule.cooldown ≤ b.createdAt

/-- The rule that a run has passed the cooldown of. -/
def Run.busy (r : Run) : Option ℕ := if r.phase = .next then none else r.rules.head?.map Copy.pk

/-- A check is of a rule without an organization, or for a host with one; and where it passes the cooldown
of a rule, the row of the rule is not in cooldown either, and no other run is busy with the rule. -/
def CheckKnows (s : State) : Event → Prop
  | .check run now => ∀ r, s.runs.get? run = some r → ∀ copy ∈ r.rules.head?,
    (r.host.organization = none → copy.rule.organization = none) ∧
    (0 < copy.rule.cooldown → inCooldown copy.rule.cooldown copy.lastTriggeredAt now = false →
      inCooldown copy.rule.cooldown (s.triggers copy.pk).lastTriggeredAt now = false ∧
        ∀ other r', s.runs.get? other = some r' → r'.busy ≠ some copy.pk)
  | _ => True

variable {site : Site} {s s' : State}

/-! ### Runs and the rows that they count -/

/-- What a run knows of its rules. -/
structure RunRight (site : Site) (s : State) (r : Run) : Prop where
  host : site.hosts.get? r.hostId = some r.host
  copies : ∀ copy ∈ r.rules, site.rules.get? copy.pk = some copy.rule ∧
    (r.host.organization = none ∨ copy.rule.organization = r.host.organization ∨
      copy.rule.organization = none)
  scope : r.phase ≠ .next → ∀ copy ∈ r.rules.head?, InScope site copy.rule r.host
  rows : ∀ count t, r.phase = .counted count t → t ≤ s.clock ∧ ∀ copy ∈ r.rules.head?,
    copy.rule.thresholdCount ≤ (s.drifts.filter fun drift =>
      copy.rule.counts r.hostId t drift ∧ drift.detectedAt ≤ t).length

/-- The runs and the alerts agree with the rows. -/
structure Grounded (site : Site) (s : State) : Prop where
  past : ∀ drift ∈ s.drifts, drift.detectedAt ≤ s.clock
  runs : ∀ i r, s.runs.get? i = some r → RunRight site s r
  scope : ∀ a ∈ s.alerts, ∃ rule host, site.rules.get? a.rule = some rule ∧
    site.hosts.get? a.host = some host ∧ InScope site rule host
  rows : ∀ a ∈ s.alerts, ∃ rule, site.rules.get? a.rule = some rule ∧
    a.countedAt ≤ a.createdAt ∧ rule.thresholdCount ≤ (s.drifts.filter fun drift =>
      rule.counts a.host a.countedAt drift ∧ drift.detectedAt ≤ a.countedAt).length

theorem of_mem_loadRules {triggers : ℕ → Trigger} {host : Host} {copy : Copy}
    (h : copy ∈ loadRules site triggers host) : site.rules.get? copy.pk = some copy.rule ∧
      (host.organization = none ∨ copy.rule.organization = host.organization ∨
        copy.rule.organization = none) := by
  obtain ⟨e, he, rfl⟩ := List.mem_map.mp h
  obtain ⟨hmem, hkept⟩ := List.mem_filter.mp he
  exact ⟨Dict.get?_of_mem_entries hmem, (of_decide_eq_true hkept).2⟩

/-- A run that leaves its first rule. -/
theorem RunRight.rest {r : Run} (h : RunRight site s r) {copy : Copy} {rest : List Copy}
    (hrules : r.rules = copy :: rest) (s' : State) :
    RunRight site s' { r with rules := rest, phase := .next } := by
  refine ⟨h.host, fun other hother => h.copies other ?_, fun hphase => absurd rfl hphase, nofun⟩
  rw [hrules]
  exact List.mem_cons_of_mem copy hother

theorem inScope_of_check {r : Run} (h : RunRight site s r) {copy : Copy} {rest : List Copy}
    (hrules : r.rules = copy :: rest) (hout : outOfScope site copy.rule r.host = false)
    (horg : r.host.organization = none → copy.rule.organization = none) :
    InScope site copy.rule r.host := by
  have hcopy := (h.copies copy (by rw [hrules]; exact List.mem_cons_self)).2
  rw [outOfScope, decide_eq_false_iff_not, not_or, not_and_not_right, not_and, Bool.not_eq_false] at hout
  refine ⟨?_, or_iff_not_imp_left.mpr hout.1, or_iff_not_imp_left.mpr hout.2⟩
  cases hhost : r.host.organization with
  | none => exact .inl (horg hhost)
  | some organization =>
    rw [hhost] at hcopy
    rcases hcopy with hnone | hsame | hnone
    · exact absurd hnone (Option.some_ne_none _)
    · exact .inr ⟨organization, hsame, rfl⟩
    · exact .inl hnone

theorem RunRight.later {r : Run} (h : RunRight site s r) (hclock : s.clock ≤ s'.clock)
    (hdrifts : s.drifts <+: s'.drifts) : RunRight site s' r := by
  refine ⟨h.host, h.copies, h.scope, fun count t hphase => ?_⟩
  obtain ⟨ht, hrows⟩ := h.rows count t hphase
  refine ⟨ht.trans hclock, fun copy hcopy => (hrows copy hcopy).trans ?_⟩
  exact (hdrifts.sublist.filter _).length_le

/-- A step that changes one run, and adds no alert. -/
theorem Grounded.set (h : Grounded site s) {i : ℕ} {r : Run} {now : ℤ}
    (triggers : ℕ → Trigger) (hclock : s.clock ≤ now) (hr : RunRight site { s with clock := now } r) :
    Grounded site { s with clock := now, runs := s.runs.set i r, triggers := triggers } := by
  refine ⟨fun drift hdrift => (h.past drift hdrift).trans hclock, fun j r' hr' => ?_, h.scope, h.rows⟩
  rcases Dict.of_get?_set hr' with ⟨-, rfl⟩ | ⟨-, hr'⟩
  · exact ⟨hr.host, hr.copies, hr.scope, hr.rows⟩
  · exact (h.runs j r' hr').later hclock List.prefix_rfl

theorem Grounded.step {e : Event} (h : Grounded site s) (hok : CheckKnows s e)
    (hstep : exec site s e = some s') : Grounded site s' := by
  cases e with
  | detect drift =>
    obtain ⟨hclock, rfl⟩ := step_detect hstep
    have hmore : s.drifts <+: s.drifts ++ [drift] := List.prefix_append _ _
    refine ⟨fun d hd => ?_, fun i r hr => (h.runs i r hr).later hclock hmore, h.scope, fun a ha => ?_⟩
    · rcases List.mem_append.mp hd with hd | hd
      · exact (h.past d hd).trans hclock
      · rw [List.mem_singleton.mp hd]
    · obtain ⟨rule, hrule, htimes, hrows⟩ := h.rows a ha
      exact ⟨rule, hrule, htimes, hrows.trans (hmore.sublist.filter _).length_le⟩
  | start run hostId =>
    obtain ⟨host, hhost, -, rfl⟩ := step_start hstep
    refine h.set s.triggers (le_refl s.clock) ⟨hhost, fun copy hcopy => ?_, ?_, nofun⟩
    · exact of_mem_loadRules hcopy
    · exact fun hphase => absurd rfl hphase
  | check run now =>
    obtain ⟨r, copy, rest, hr, hphase, hrules, hclock, hs⟩ := step_check hstep
    have hright := h.runs run r hr
    rcases hs with rfl | ⟨hout, -, rfl⟩
    · have hrest := hright.rest hrules { s with clock := now }
      rw [← hphase] at hrest
      exact h.set _ hclock hrest
    · refine h.set _ hclock ⟨hright.host, hright.copies, fun _ other hother => ?_, nofun⟩
      have hhead : copy ∈ r.rules.head? := by rw [hrules]; rfl
      obtain rfl := Option.some.inj (hhead.symm.trans hother)
      exact inScope_of_check hright hrules hout (hok r hr copy hhead).1
  | count run now =>
    obtain ⟨r, copy, rest, hr, hphase, hrules, hclock, hs⟩ := step_count hstep
    have hright := h.runs run r hr
    rcases hs with rfl | ⟨henough, rfl⟩
    · exact h.set _ hclock (hright.rest hrules _)
    · refine h.set _ hclock ⟨hright.host, hright.copies, fun _ => hright.scope (by rw [hphase]; nofun),
        fun count t hcounted => ?_⟩
      obtain ⟨rfl, rfl⟩ := Phase.counted.inj hcounted
      refine ⟨le_rfl, fun other hother => ?_⟩
      have hhead : copy ∈ r.rules.head? := by rw [hrules]; rfl
      obtain rfl := Option.some.inj (hhead.symm.trans hother)
      refine henough.trans (le_of_eq (congrArg List.length (List.filter_congr fun drift hdrift => ?_)))
      have hpast : drift.detectedAt ≤ now := (h.past drift hdrift).trans hclock
      simp [hpast]
  | create run now =>
    obtain ⟨r, copy, rest, count, countedAt, hr, hphase, hrules, hclock, rfl⟩ := step_create hstep
    have hright := h.runs run r hr
    have hhead : copy ∈ r.rules.head? := by rw [hrules]; rfl
    have hrule := (hright.copies copy (by rw [hrules]; exact List.mem_cons_self)).1
    obtain ⟨htime, hrows⟩ := hright.rows count countedAt hphase
    have hset := h.set (i := run) (r := { r with phase := .alerted }) s.triggers hclock
      ⟨hright.host, hright.copies, fun _ => hright.scope (by rw [hphase]; nofun), nofun⟩
    refine ⟨hset.past, fun i r' hr' => ?_, fun a ha => ?_, fun a ha => ?_⟩
    · exact (hset.runs i r' hr').later le_rfl List.prefix_rfl
    · rcases List.mem_append.mp ha with ha | ha
      · exact h.scope a ha
      · obtain rfl := List.mem_singleton.mp ha
        exact ⟨copy.rule, r.host, hrule, hright.host, hright.scope (by rw [hphase]; nofun) copy hhead⟩
    · rcases List.mem_append.mp ha with ha | ha
      · exact h.rows a ha
      · obtain rfl := List.mem_singleton.mp ha
        exact ⟨copy.rule, hrule, htime.trans hclock, hrows copy hhead⟩
  | record run now =>
    obtain ⟨r, copy, rest, hr, hphase, hrules, hclock, rfl⟩ := step_record hstep
    exact h.set _ hclock ((h.runs run r hr).rest hrules _)

/-! ### Cooldowns -/

/-- Alerts of a rule are recorded, or come from the one run that is busy with the rule. -/
structure Spaced (site : Site) (s : State) : Prop where
  past : ∀ a ∈ s.alerts, a.createdAt ≤ s.clock
  alone : ∀ pk rule, site.rules.get? pk = some rule → 0 < rule.cooldown → ∀ i j r r',
    s.runs.get? i = some r → s.runs.get? j = some r' → r.busy = some pk → r'.busy = some pk → i = j
  known : ∀ a ∈ s.alerts, ∀ rule, site.rules.get? a.rule = some rule → 0 < rule.cooldown →
    (∃ t, (s.triggers a.rule).lastTriggeredAt = some t ∧ a.createdAt ≤ t) ∨
      ∃ i r, s.runs.get? i = some r ∧ r.busy = some a.rule ∧ r.phase = .alerted
  ready : ∀ i r, s.runs.get? i = some r → r.phase ≠ .alerted → ∀ a ∈ s.alerts, r.busy = some a.rule →
    ∀ rule, site.rules.get? a.rule = some rule → 0 < rule.cooldown →
      a.createdAt + minutes rule.cooldown ≤ s.clock
  apart : s.alerts.Pairwise fun a b => a.rule = b.rule → ∀ rule, site.rules.get? a.rule = some rule →
    a.createdAt + minutes rule.cooldown ≤ b.createdAt

theorem busy_of_next {r : Run} (h : r.phase = .next) : r.busy = none := if_pos h

theorem busy_of_ne_next {r : Run} (h : r.phase ≠ .next) {copy : Copy} {rest : List Copy}
    (hrules : r.rules = copy :: rest) : r.busy = some copy.pk := by
  rw [Run.busy, if_neg h, hrules]
  rfl

theorem add_minutes_le {cooldown : ℕ} {last now : ℤ} (hpos : 0 < cooldown)
    (h : inCooldown cooldown (some last) now = false) : last + minutes cooldown ≤ now := by
  rw [inCooldown, decide_eq_false_iff_not, not_and, not_lt] at h
  have hle := h hpos
  omega

/-- A step of a run that has no alert to record, and is then busy with the same rule or with none. -/
theorem Spaced.set (h : Spaced site s) {i : ℕ} {r' : Run} {now : ℤ} (hclock : s.clock ≤ now)
    (hold : ∀ r, s.runs.get? i = some r → r.phase ≠ .alerted) (hphase : r'.phase ≠ .alerted)
    (hbusy : ∀ pk, r'.busy = some pk → ∃ r, s.runs.get? i = some r ∧ r.busy = some pk) :
    Spaced site { s with clock := now, runs := s.runs.set i r' } := by
  have hback : ∀ j r₁ pk, (s.runs.set i r').get? j = some r₁ → r₁.busy = some pk →
      ∃ r, s.runs.get? j = some r ∧ r.busy = some pk ∧ (r₁.phase ≠ .alerted → r.phase ≠ .alerted) := by
    intro j r₁ pk hr₁ hpk
    rcases Dict.of_get?_set hr₁ with ⟨rfl, rfl⟩ | ⟨-, hr₁⟩
    · obtain ⟨r, hr, hrbusy⟩ := hbusy pk hpk
      exact ⟨r, hr, hrbusy, fun _ => hold r hr⟩
    · exact ⟨r₁, hr₁, hpk, id⟩
  refine ⟨fun a ha => (h.past a ha).trans hclock, fun pk rule hrule hpos j k r₁ r₂ h₁ h₂ hb₁ hb₂ => ?_,
    fun a ha rule hrule hpos => ?_, fun j r₁ h₁ hne a ha hb rule hrule hpos => ?_, h.apart⟩
  · obtain ⟨q₁, hq₁, hqb₁, -⟩ := hback j r₁ pk h₁ hb₁
    obtain ⟨q₂, hq₂, hqb₂, -⟩ := hback k r₂ pk h₂ hb₂
    exact h.alone pk rule hrule hpos j k q₁ q₂ hq₁ hq₂ hqb₁ hqb₂
  · refine (h.known a ha rule hrule hpos).imp_right fun ⟨j, r₁, hr₁, hb, halerted⟩ => ?_
    have hne : j ≠ i := by
      rintro rfl
      exact hold r₁ hr₁ halerted
    exact ⟨j, r₁, by rw [Dict.get?_set, if_neg hne, hr₁], hb, halerted⟩
  · obtain ⟨q, hq, hqb, hphase'⟩ := hback j r₁ a.rule h₁ hb
    exact (h.ready j q hq (hphase' hne) a ha hqb rule hrule hpos).trans hclock

/-- A run passes the cooldown of a rule that it knows enough of. -/
theorem Spaced.check (h : Spaced site s) (hg : Grounded site s) {i : ℕ} {now : ℤ} {r : Run} {copy : Copy}
    {rest : List Copy} (hclock : s.clock ≤ now) (hr : s.runs.get? i = some r) (hphase : r.phase = .next)
    (hrules : r.rules = copy :: rest)
    (hok : 0 < copy.rule.cooldown → inCooldown copy.rule.cooldown (s.triggers copy.pk).lastTriggeredAt now =
      false ∧ ∀ other r', s.runs.get? other = some r' → r'.busy ≠ some copy.pk) :
    Spaced site { s with clock := now, runs := s.runs.set i { r with phase := .checked } } := by
  have hbusy : ({ r with phase := .checked } : Run).busy = some copy.pk := busy_of_ne_next (by nofun) hrules
  have hcopy := ((hg.runs i r hr).copies copy (by rw [hrules]; exact List.mem_cons_self)).1
  have hrunOf : ∀ {j r₁}, (s.runs.set i { r with phase := .checked }).get? j = some r₁ →
      j = i ∧ r₁ = { r with phase := .checked } ∨ s.runs.get? j = some r₁ := fun hr₁ =>
    (Dict.of_get?_set hr₁).imp_right And.right
  have hsame : ∀ {rule}, site.rules.get? copy.pk = some rule → rule = copy.rule := fun hrule =>
    Option.some.inj (hrule.symm.trans hcopy)
  refine ⟨fun a ha => (h.past a ha).trans hclock, fun pk rule hrule hpos j k r₁ r₂ h₁ h₂ hb₁ hb₂ => ?_,
    fun a ha rule hrule hpos => ?_, fun j r₁ h₁ hne a ha hb rule hrule hpos => ?_, h.apart⟩
  · rcases hrunOf h₁ with ⟨hj, rfl⟩ | hq₁ <;> rcases hrunOf h₂ with ⟨hk, rfl⟩ | hq₂
    · exact hj.trans hk.symm
    · obtain rfl := Option.some.inj (hbusy.symm.trans hb₁)
      obtain rfl := hsame hrule
      exact absurd hb₂ ((hok hpos).2 k r₂ hq₂)
    · obtain rfl := Option.some.inj (hbusy.symm.trans hb₂)
      obtain rfl := hsame hrule
      exact absurd hb₁ ((hok hpos).2 j r₁ hq₁)
    · exact h.alone pk rule hrule hpos j k r₁ r₂ hq₁ hq₂ hb₁ hb₂
  · refine (h.known a ha rule hrule hpos).imp_right fun ⟨j, r₁, hr₁, hb, halerted⟩ => ?_
    have hne : j ≠ i := by
      rintro rfl
      obtain rfl := Option.some.inj (hr.symm.trans hr₁)
      rw [hphase] at halerted
      cases halerted
    exact ⟨j, r₁, by rw [Dict.get?_set, if_neg hne, hr₁], hb, halerted⟩
  · rcases hrunOf h₁ with ⟨rfl, rfl⟩ | h₁
    · obtain hpk := Option.some.inj (hbusy.symm.trans hb)
      rw [← hpk] at hrule
      obtain rfl := hsame hrule
      obtain ⟨hcool, hnone⟩ := hok hpos
      rcases h.known a ha copy.rule (hpk ▸ hrule) hpos with ⟨t, ht, hle⟩ | ⟨k, r₂, hr₂, hb₂, -⟩
      · rw [hpk, ht] at hcool
        exact (Int.add_le_add_right hle _).trans (add_minutes_le hpos hcool)
      · exact absurd (hpk.symm ▸ hb₂) (hnone k r₂ hr₂)
    · exact (h.ready j r₁ h₁ hne a ha hb rule hrule hpos).trans hclock

/-- A run that has passed the cooldown creates an alert. -/
theorem Spaced.create (h : Spaced site s) (hg : Grounded site s) {i : ℕ} {now : ℤ} {r : Run} {copy : Copy}
    {rest : List Copy} {count : ℕ} {countedAt : ℤ} (hclock : s.clock ≤ now) (hr : s.runs.get? i = some r)
    (hphase : r.phase = .counted count countedAt) (hrules : r.rules = copy :: rest) :
    Spaced site { s with
      clock := now
      runs := s.runs.set i { r with phase := .alerted }
      alerts := s.alerts ++ [⟨copy.pk, r.hostId, r.host.organization, count, countedAt, now⟩] } := by
  have hbusy : r.busy = some copy.pk := busy_of_ne_next (by rw [hphase]; nofun) hrules
  have hbusy' : ({ r with phase := .alerted } : Run).busy = some copy.pk :=
    busy_of_ne_next (by nofun) hrules
  have hcopy := ((hg.runs i r hr).copies copy (by rw [hrules]; exact List.mem_cons_self)).1
  have hrunOf : ∀ {j r₁ pk}, (s.runs.set i { r with phase := .alerted }).get? j = some r₁ →
      r₁.busy = some pk → ∃ q, s.runs.get? j = some q ∧ q.busy = some pk ∧
        (r₁.phase ≠ .alerted → j ≠ i ∧ q = r₁) := by
    intro j r₁ pk hr₁ hb
    rcases Dict.of_get?_set hr₁ with ⟨rfl, rfl⟩ | ⟨hne, hr₁⟩
    · exact ⟨r, hr, hbusy.trans (hbusy'.symm.trans hb), fun hnot => absurd rfl hnot⟩
    · exact ⟨r₁, hr₁, hb, fun _ => ⟨hne, rfl⟩⟩
  refine ⟨fun a ha => ?_, fun pk rule hrule hpos j k r₁ r₂ h₁ h₂ hb₁ hb₂ => ?_,
    fun a ha rule hrule hpos => ?_, fun j r₁ h₁ hne a ha hb rule hrule hpos => ?_, ?_⟩
  · rcases List.mem_append.mp ha with ha | ha
    · exact (h.past a ha).trans hclock
    · rw [List.mem_singleton.mp ha]
  · obtain ⟨q₁, hq₁, hqb₁, -⟩ := hrunOf h₁ hb₁
    obtain ⟨q₂, hq₂, hqb₂, -⟩ := hrunOf h₂ hb₂
    exact h.alone pk rule hrule hpos j k q₁ q₂ hq₁ hq₂ hqb₁ hqb₂
  · rcases List.mem_append.mp ha with ha | ha
    · refine (h.known a ha rule hrule hpos).imp_right fun ⟨j, r₁, hr₁, hb, halerted⟩ => ?_
      have hne : j ≠ i := by
        rintro rfl
        obtain rfl := Option.some.inj (hr.symm.trans hr₁)
        rw [hphase] at halerted
        cases halerted
      exact ⟨j, r₁, by rw [Dict.get?_set, if_neg hne, hr₁], hb, halerted⟩
    · obtain rfl := List.mem_singleton.mp ha
      exact .inr ⟨i, _, by rw [Dict.get?_set, if_pos rfl], hbusy', rfl⟩
  · obtain ⟨q, hq, hqb, hother⟩ := hrunOf h₁ hb
    obtain ⟨hji, rfl⟩ := hother hne
    rcases List.mem_append.mp ha with ha | ha
    · exact (h.ready j q hq hne a ha hb rule hrule hpos).trans hclock
    · obtain rfl := List.mem_singleton.mp ha
      exact absurd (h.alone copy.pk rule hrule hpos j i q r hq hr hqb hbusy) hji
  · refine List.pairwise_append.mpr ⟨h.apart, List.pairwise_singleton _ _, fun a ha b hb heq rule hrule => ?_⟩
    obtain rfl := List.mem_singleton.mp hb
    rcases Nat.eq_zero_or_pos rule.cooldown with hzero | hpos
    · have hpast := (h.past a ha).trans hclock
      simpa [hzero, minutes] using hpast
    · refine (h.ready i r hr (by rw [hphase]; nofun) a ha ?_ rule hrule hpos).trans hclock
      exact hbusy.trans (congrArg some heq.symm)

/-- A run records its alert. -/
theorem Spaced.record (h : Spaced site s) {i : ℕ} {now : ℤ} {r : Run} {copy : Copy}
    {rest : List Copy} (hclock : s.clock ≤ now) (hr : s.runs.get? i = some r) (hphase : r.phase = .alerted)
    (hrules : r.rules = copy :: rest) :
    Spaced site { s with
      clock := now
      runs := s.runs.set i { r with rules := rest, phase := .next }
      triggers := Function.update s.triggers copy.pk ⟨some now, (s.triggers copy.pk).triggerCount + 1⟩ } := by
  have hbusy : r.busy = some copy.pk := busy_of_ne_next (by rw [hphase]; nofun) hrules
  have hrunOf : ∀ {j r₁ pk}, (s.runs.set i { r with rules := rest, phase := .next }).get? j = some r₁ →
      r₁.busy = some pk → j ≠ i ∧ s.runs.get? j = some r₁ := by
    intro j r₁ pk hr₁ hb
    rcases Dict.of_get?_set hr₁ with ⟨rfl, rfl⟩ | ⟨hne, hr₁⟩
    · rw [busy_of_next rfl] at hb
      exact absurd hb.symm (Option.some_ne_none _)
    · exact ⟨hne, hr₁⟩
  refine ⟨fun a ha => (h.past a ha).trans hclock, fun pk rule hrule hpos j k r₁ r₂ h₁ h₂ hb₁ hb₂ => ?_,
    fun a ha rule hrule hpos => ?_, fun j r₁ h₁ hne a ha hb rule hrule hpos => ?_, h.apart⟩
  · exact h.alone pk rule hrule hpos j k r₁ r₂ (hrunOf h₁ hb₁).2 (hrunOf h₂ hb₂).2 hb₁ hb₂
  · by_cases hpk : a.rule = copy.pk
    · refine .inl ⟨now, ?_, (h.past a ha).trans hclock⟩
      show (Function.update s.triggers copy.pk _ a.rule).lastTriggeredAt = some now
      rw [hpk, Function.update_self]
    · rcases h.known a ha rule hrule hpos with ⟨t, ht, hle⟩ | ⟨j, r₁, hr₁, hb, halerted⟩
      · refine .inl ⟨t, ?_, hle⟩
        show (Function.update s.triggers copy.pk _ a.rule).lastTriggeredAt = some t
        rw [Function.update_of_ne hpk, ht]
      · have hne : j ≠ i := by
          rintro rfl
          obtain rfl := Option.some.inj (hr.symm.trans hr₁)
          exact hpk (Option.some.inj (hb.symm.trans hbusy))
        exact .inr ⟨j, r₁, by rw [Dict.get?_set, if_neg hne, hr₁], hb, halerted⟩
  · exact (h.ready j r₁ (hrunOf h₁ hb).2 hne a ha hb rule hrule hpos).trans hclock

theorem Spaced.step {e : Event} (h : Spaced site s) (hg : Grounded site s) (hok : CheckKnows s e)
    (hstep : exec site s e = some s') : Spaced site s' := by
  cases e with
  | detect drift =>
    obtain ⟨hclock, rfl⟩ := step_detect hstep
    refine ⟨fun a ha => (h.past a ha).trans hclock, h.alone, h.known, fun j r hr hne a ha hb rule hrule
      hpos => (h.ready j r hr hne a ha hb rule hrule hpos).trans hclock, h.apart⟩
  | start run hostId =>
    obtain ⟨host, -, hnone, rfl⟩ := step_start hstep
    refine h.set (le_refl s.clock) (fun r hr => ?_) (by nofun) fun pk hpk => ?_
    · rw [hnone] at hr
      cases hr
    · rw [busy_of_next rfl] at hpk
      cases hpk
  | check run now =>
    obtain ⟨r, copy, rest, hr, hphase, hrules, hclock, hs⟩ := step_check hstep
    rcases hs with rfl | ⟨-, hcool, rfl⟩
    · refine h.set hclock (fun r' hr' => ?_) (by rw [hphase]; nofun) fun pk hpk => ?_
      · obtain rfl := Option.some.inj (hr.symm.trans hr')
        rw [hphase]
        nofun
      · have hnone : ({ r with rules := rest } : Run).busy = none := busy_of_next hphase
        rw [hnone] at hpk
        cases hpk
    · exact h.check hg hclock hr hphase hrules fun hpos => (hok r hr copy (by rw [hrules]; rfl)).2 hpos hcool
  | count run now =>
    obtain ⟨r, copy, rest, hr, hphase, hrules, hclock, hs⟩ := step_count hstep
    have hold : ∀ r', s.runs.get? run = some r' → r'.phase ≠ .alerted := fun r' hr' => by
      obtain rfl := Option.some.inj (hr.symm.trans hr')
      rw [hphase]
      nofun
    rcases hs with rfl | ⟨-, rfl⟩
    · refine h.set hclock hold (by nofun) fun pk hpk => ?_
      rw [busy_of_next rfl] at hpk
      cases hpk
    · refine h.set hclock hold (by nofun) fun pk hpk => ⟨r, hr, ?_⟩
      have hcounted : ({ r with
          phase := .counted (s.drifts.filter (copy.rule.counts r.hostId now)).length now } : Run).busy =
            some copy.pk := busy_of_ne_next (by nofun) hrules
      rw [busy_of_ne_next (by rw [hphase]; nofun) hrules, ← hcounted, hpk]
  | create run now =>
    obtain ⟨r, copy, rest, count, countedAt, hr, hphase, hrules, hclock, rfl⟩ := step_create hstep
    exact h.create hg hclock hr hphase hrules
  | record run now =>
    obtain ⟨r, copy, rest, hr, hphase, hrules, hclock, rfl⟩ := step_record hstep
    exact h.record hclock hr hphase hrules

/-- In every run whose checks know enough, each alert is one of its rule, and those of one rule are apart. -/
theorem alerts_right (h : ((system site).restrict CheckKnows).Reachable s) : AlertsRight site s := by
  have hinv : Grounded site s ∧ Spaced site s := by
    refine System.Reachable.invariant (I := fun s => Grounded site s ∧ Spaced site s) (fun s hs => ?_)
      (fun s e s' _ hi hstep => ?_) h
    case refine_2 =>
      obtain ⟨hstep, hok⟩ := hstep
      exact ⟨hi.1.step hok hstep, hi.2.step hi.1 hok hstep⟩
    obtain ⟨hruns, halerts, hpast⟩ := hs
    have hnone : ∀ i r, s.runs.get? i ≠ some r := fun i r hr => by
      rw [hruns] at hr
      cases hr
    have hempty : ∀ a, a ∉ s.alerts := fun a ha => by
      rw [halerts] at ha
      cases ha
    refine ⟨⟨hpast, fun i r hr => absurd hr (hnone i r), fun a ha => absurd ha (hempty a),
      fun a ha => absurd ha (hempty a)⟩, fun a ha => absurd ha (hempty a),
      fun pk rule _ _ i _ r _ hr => absurd hr (hnone i r), fun a ha => absurd ha (hempty a),
      fun i r hr => absurd hr (hnone i r), ?_⟩
    rw [halerts]
    exact List.Pairwise.nil
  exact ⟨hinv.1.scope, hinv.1.rows, hinv.2.apart⟩

/-! A rule of no organization and one of an organization, two hosts of it and one without. -/

def lab : Site where
  fnmatch _ _ := true
  rules := ⟨[(1, ⟨none, true, none, "", [], "medium", 1, 60, 30⟩),
    (2, ⟨some 5, true, none, "", [], "critical", 1, 60, 30⟩)], by decide⟩
  hosts := ⟨[(1, ⟨"a", 1, some 5⟩), (2, ⟨"b", 1, some 5⟩), (3, ⟨"c", 2, none⟩)], by decide⟩

def labStart : State := ⟨fun _ => ⟨none, 0⟩, [], Dict.empty, [], 0⟩

/-- Two runs for two hosts, which check the cooldown before they record their alerts. -/
def twoRuns : List Event := [.detect ⟨1, 0, "kernel", "high"⟩, .detect ⟨2, 0, "kernel", "high"⟩, .start 1 1,
  .start 2 2, .check 1 1, .check 2 1, .count 1 2, .count 2 2, .create 1 3, .create 2 3]

/-- A run for the host without an organization. -/
def strangerRun : List Event := [.detect ⟨3, 0, "kernel", "critical"⟩, .start 1 3, .check 1 1, .count 1 1,
  .create 1 1, .record 1 1, .check 1 2, .count 1 2, .create 1 2]

theorem lab_reachable {es : List Event} {s : State} (h : System.runAll (exec lab) labStart es = some s) :
    (system lab).Reachable s :=
  System.Reachable.runAll (fun _ _ _ _ h => h) (.init ⟨rfl, rfl, by simp [labStart]⟩) h

theorem lab_step {s s' : State} {e : Event} (hs : ((system lab).restrict CheckKnows).Reachable s)
    (h : exec lab s e = some s') (hok : CheckKnows s e) : ((system lab).restrict CheckKnows).Reachable s' :=
  .step hs ⟨h, hok⟩

theorem oneRun_right : ∃ s, ((system lab).restrict CheckKnows).Reachable s ∧
    s.alerts = [⟨1, 1, some 5, 1, 2, 3⟩] ∧ AlertsRight lab s := by
  have hstart : ((system lab).restrict CheckKnows).Reachable labStart :=
    .init ⟨rfl, rfl, by simp [labStart]⟩
  have hloaded := lab_step (e := .start 1 1)
    (lab_step (e := .detect ⟨1, 0, "kernel", "high"⟩) hstart rfl trivial) rfl trivial
  have hchecked := lab_step (e := .check 1 1) hloaded rfl fun r hr copy hcopy => by
    cases hr
    cases hcopy
    refine ⟨nofun, fun _ _ => ⟨rfl, fun other r' hr' => ?_⟩⟩
    rcases Dict.of_get?_set hr' with ⟨-, rfl⟩ | ⟨-, hr'⟩
    · nofun
    · cases hr'
  have hreach := lab_step (e := .create 1 3) (lab_step (e := .count 1 2) hchecked rfl trivial) rfl trivial
  exact ⟨_, hreach, rfl, alerts_right hreach⟩

/-- Two alerts of one rule at the same time, and an alert of another organization's rule. -/
theorem alerts_wrong :
    (∃ s, (system lab).Reachable s ∧ s.alerts = [⟨1, 1, some 5, 1, 2, 3⟩, ⟨1, 2, some 5, 1, 2, 3⟩] ∧
      ¬ AlertsRight lab s) ∧
    ∃ s, (system lab).Reachable s ∧ s.alerts = [⟨1, 3, none, 1, 1, 1⟩, ⟨2, 3, none, 1, 2, 2⟩] ∧
      ¬ AlertsRight lab s := by
  refine ⟨?_, ?_⟩
  · obtain ⟨s, hs, halerts⟩ := System.exists_of_runAll (f := exec lab) (s := labStart) (l := twoRuns)
      (P := fun s => s.alerts = [⟨1, 1, some 5, 1, 2, 3⟩, ⟨1, 2, some 5, 1, 2, 3⟩]) (by decide)
    refine ⟨s, lab_reachable hs, halerts, fun h => ?_⟩
    have hapart := h.apart
    rw [halerts, List.pairwise_pair] at hapart
    exact absurd (hapart rfl _ rfl) (by decide)
  · obtain ⟨s, hs, halerts⟩ := System.exists_of_runAll (f := exec lab) (s := labStart) (l := strangerRun)
      (P := fun s => s.alerts = [⟨1, 3, none, 1, 1, 1⟩, ⟨2, 3, none, 1, 2, 2⟩]) (by decide)
    refine ⟨s, lab_reachable hs, halerts, fun h => ?_⟩
    obtain ⟨rule, host, hrule, hhost, hscope⟩ := h.scope ⟨2, 3, none, 1, 2, 2⟩ (by rw [halerts]; simp)
    cases hrule
    cases hhost
    rcases hscope.organization with hnone | ⟨organization, -, hsome⟩
    · exact absurd hnone (by decide)
    · exact absurd hsome (by simp)

end Forail.DriftAlerts
