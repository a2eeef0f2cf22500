import Forail.Base.Dict
import Forail.Base.Runs
import Mathlib.Data.List.Basic
import Mathlib.Tactic.SplitIfs

/-! One relay connection: its reader, which handles a message of subscriptions at a time, and a
producer for each group, which suspends at every await. The entry of a producer in the map is
made by the reader and removed by the producer itself, after it has left its group. -/

namespace Forail.RelayConnection

/-- Where a producer is suspended: before it has a channel, in `group_add`, in `receive`, in
`send_json`, in `group_discard`, and after that, about to remove its entry. -/
inductive Phase
  | starting
  | adding (channel : ℕ)
  | receiving (channel : ℕ)
  | sending (channel : ℕ)
  | discarding (channel : ℕ)
  | discarded

namespace Phase

def channel : Phase → Option ℕ
  | starting | discarded => none
  | adding c | receiving c | sending c | discarding c => some c

/-- In the loop, after the start. -/
def listening : Phase → Bool
  | receiving _ | sending _ => true
  | starting | adding _ | discarding _ | discarded => false

/-- After the decision to stop. -/
def stopping : Phase → Bool
  | discarding _ | discarded => true
  | starting | adding _ | receiving _ | sending _ => false

end Phase

/-- An entry of the map of producers, with the group and the state of its task. -/
structure Producer where
  group : String
  subscriptions : List String
  phase : Phase

/-- The producers by name, the members of the groups in the channel layer, its next unused
channel, and who is subscribed to what by the messages so far. -/
structure State where
  producers : Dict String Producer
  channelLayer : List (String × ℕ)
  nextChannel : ℕ
  subscribed : List (String × String)

/-- What a producer awaited has come about. -/
inductive Action
  | newChannel
  | groupAdd
  | message (needsRelay : Bool)
  | timeout
  | sent
  | groupDiscard
  | remove

inductive Event
  | subscribe (groups : List String) (originChannel : String)
  | unsubscribe (groups : List String) (originChannel : String)
  | producer (name : String) (a : Action)

/-- The name of the producer of a group, on the connection to a host. -/
def producerName (remoteHost group : String) : String := remoteHost ++ "-" ++ group

/-! ### `run_connection` -/

def subscribe (remoteHost originChannel : String) (s : State) (group : String) : State :=
  let name := producerName remoteHost group
  { s with
    producers := match s.producers.get? name with
      | none => s.producers.set name ⟨group, [originChannel], .starting⟩
      | some p =>
        s.producers.set name { p with subscriptions := p.subscriptions.insert originChannel }
    subscribed := s.subscribed.insert (group, originChannel) }

/-- An unknown name and an unknown channel are both a `KeyError`, which is only logged. -/
def unsubscribe (remoteHost originChannel : String) (s : State) (group : String) : State :=
  { s with
    producers := s.producers.modify (producerName remoteHost group) fun p =>
      { p with subscriptions := p.subscriptions.erase originChannel }
    subscribed := s.subscribed.filter fun e => e ≠ (group, originChannel) }

/-! ### `run_producer` -/

def State.setPhase (s : State) (name : String) (p : Producer) (phase : Phase) : State :=
  { s with producers := s.producers.set name { p with phase := phase } }

def runProducer (s : State) (name : String) (p : Producer) (a : Action) : Option State :=
  match a, p.phase with
  | .newChannel, .starting =>
    some { s.setPhase name p (.adding s.nextChannel) with nextChannel := s.nextChannel + 1 }
  | .groupAdd, .adding c =>
    some { s.setPhase name p (.receiving c) with channelLayer := (p.group, c) :: s.channelLayer }
  | .message needsRelay, .receiving c =>
    some (s.setPhase name p (if needsRelay then .sending c else .receiving c))
  | .sent, .sending c => some (s.setPhase name p (.receiving c))
  | .timeout, .receiving c =>
    some (s.setPhase name p (if p.subscriptions.length = 0 then .discarding c else .receiving c))
  | .groupDiscard, .discarding c =>
    some { s.setPhase name p .discarded with
      channelLayer := s.channelLayer.filter fun e => e ≠ (p.group, c) }
  | .remove, .discarded => some { s with producers := s.producers.erase name }
  | _, _ => none

def exec (remoteHost : String) (s : State) (e : Event) : Option State :=
  match e with
  | .subscribe groups o => some (groups.foldl (subscribe remoteHost o) s)
  | .unsubscribe groups o => some (groups.foldl (unsubscribe remoteHost o) s)
  | .producer name a => (s.producers.get? name).bind fun p => runProducer s name p a

/-- The producer of the metrics is made explicitly, with itself for a subscriber. -/
def initial : State where
  producers := Dict.empty.set "metrics" ⟨"metrics", ["metrics"], .starting⟩
  channelLayer := []
  nextChannel := 0
  subscribed := []

def connection (remoteHost : String) : System State Event where
  init s := s = initial
  step s e s' := exec remoteHost s e = some s'

end Forail.RelayConnection

/-! What holds of the producers over any run. A subscriber that the reader adds to an entry
keeps the producer from stopping; added after the producer has decided to stop, it goes with
the entry. -/

namespace Forail.RelayConnection

variable {remoteHost : String} {s s' : State}

theorem producerName_inj {g g' : String} (h : producerName remoteHost g = producerName remoteHost g') :
    g = g' :=
  (String.append_right_inj _).mp h

/-- The name of a group's producer is never the one made for the metrics. -/
theorem producerName_ne_metrics (remoteHost g : String) : producerName remoteHost g ≠ "metrics" := by
  intro h
  have hmem : '-' ∈ "metrics".toList := by
    rw [← h, producerName, String.toList_append, String.toList_append]
    exact List.mem_append_left _ (List.mem_append_right _ (by decide))
  exact absurd hmem (by decide)

/-! ### What is kept -/

/-- The producer runs, and it is a member of its group after its two first awaits. -/
def Producer.Running (channelLayer : List (String × ℕ)) (p : Producer) : Prop :=
  match p.phase with
  | .starting | .adding _ => True
  | .receiving c | .sending c => (p.group, c) ∈ channelLayer
  | .discarding _ | .discarded => False

/-- The entry for a group belongs to a running producer of that group. -/
def State.Served (remoteHost : String) (s : State) (group : String) : Prop :=
  ∃ p, s.producers.get? (producerName remoteHost group) = some p ∧ p.group = group ∧
    p.Running s.channelLayer

/-- With no shutdown pending, each group that someone is subscribed to is served. -/
def State.NoneLost (remoteHost : String) (s : State) : Prop :=
  (∀ name p, s.producers.get? name = some p → p.phase.stopping = false) →
    ∀ g o, (g, o) ∈ s.subscribed → s.Served remoteHost g

/-- A subscription to these groups would find no producer that is stopping. -/
def State.Open (remoteHost : String) (s : State) (groups : List String) : Prop :=
  ∀ g ∈ groups, (s.producers.get? (producerName remoteHost g)).all (fun p => !p.phase.stopping)

instance (s : State) (groups : List String) : Decidable (s.Open remoteHost groups) :=
  inferInstanceAs (Decidable (∀ g ∈ groups, _))

/-- No subscription comes to a group whose producer is stopping. -/
def Clear (remoteHost : String) (s : State) : Event → Prop
  | .subscribe groups _ => s.Open remoteHost groups
  | .unsubscribe _ _ | .producer _ _ => True

instance : ∀ (s : State) (e : Event), Decidable (Clear remoteHost s e)
  | s, .subscribe groups _ => inferInstanceAs (Decidable (s.Open remoteHost groups))
  | _, .unsubscribe _ _ | _, .producer _ _ => .isTrue trivial

/-! ### The invariant -/

structure Inv (remoteHost : String) (s : State) : Prop where
  named : ∀ name p, s.producers.get? name = some p →
    name = "metrics" ∨ name = producerName remoteHost p.group
  listed : ∀ g o, (g, o) ∈ s.subscribed →
    ∃ p, s.producers.get? (producerName remoteHost g) = some p ∧ o ∈ p.subscriptions
  idle : ∀ name p, s.producers.get? name = some p → p.phase.stopping = true → p.subscriptions = []
  registered : ∀ name p c, s.producers.get? name = some p → p.phase.listening = true →
    p.phase.channel = some c → (p.group, c) ∈ s.channelLayer
  issued : ∀ name p c, s.producers.get? name = some p → p.phase.channel = some c → c < s.nextChannel
  distinct : ∀ name name' p p' c, s.producers.get? name = some p → s.producers.get? name' = some p' →
    p.phase.channel = some c → p'.phase.channel = some c → name = name'

/-- The entry found under the name of a group is one of that group. -/
theorem Inv.group_eq (h : Inv remoteHost s) {g : String} {p : Producer}
    (hp : s.producers.get? (producerName remoteHost g) = some p) : p.group = g := by
  rcases h.named _ p hp with hm | hn
  · exact absurd hm (producerName_ne_metrics remoteHost g)
  · exact (producerName_inj hn).symm

/-- In a state of the invariant a subscribed group is served, shutdown or not. -/
theorem Inv.served (h : Inv remoteHost s) {g o : String} (ho : (g, o) ∈ s.subscribed) :
    s.Served remoteHost g := by
  obtain ⟨p, hp, hop⟩ := h.listed g o ho
  have hstop : p.phase.stopping ≠ true := fun hst => by
    rw [h.idle _ p hp hst] at hop
    exact absurd hop List.not_mem_nil
  have hreg := fun c => h.registered _ p c hp
  refine ⟨p, hp, h.group_eq hp, ?_⟩
  unfold Producer.Running
  cases hph : p.phase with
  | starting => trivial
  | adding c => trivial
  | receiving c =>
    rw [hph] at hreg
    exact hreg c rfl rfl
  | sending c =>
    rw [hph] at hreg
    exact hreg c rfl rfl
  | discarding c =>
    rw [hph] at hstop
    exact hstop rfl
  | discarded =>
    rw [hph] at hstop
    exact hstop rfl

theorem Inv.initial : Inv remoteHost initial := by
  have hentry : ∀ name p, RelayConnection.initial.producers.get? name = some p →
      name = "metrics" ∧ p = ⟨"metrics", ["metrics"], .starting⟩ := by
    intro name p hp
    rcases Dict.of_get?_set hp with ⟨rfl, rfl⟩ | ⟨-, hp⟩
    · exact ⟨rfl, rfl⟩
    · cases hp
  constructor
  · exact fun name p hp => .inl (hentry name p hp).1
  · exact fun g o ho => absurd ho List.not_mem_nil
  · intro name p hp hst
    rw [(hentry name p hp).2] at hst
    cases hst
  · intro name p c hp hl
    rw [(hentry name p hp).2] at hl
    cases hl
  · intro name p c hp hc
    rw [(hentry name p hp).2] at hc
    cases hc
  · intro name name' p p' c hp hp' _ _
    rw [(hentry name p hp).1, (hentry name' p' hp').1]

/-! ### A step of a producer -/

/-- The producer moves on, with its channel or the next one; the members of the groups change at
most by its own channel. -/
theorem Inv.move (h : Inv remoteHost s) {name : String} {p : Producer}
    (hp : s.producers.get? name = some p) (phase : Phase) (channelLayer : List (String × ℕ))
    (nextChannel : ℕ) (hidle : phase.stopping = true → p.subscriptions = [])
    (hreg : ∀ c, phase.listening = true → phase.channel = some c → (p.group, c) ∈ channelLayer)
    (hchannel : ∀ c, phase.channel = some c →
      p.phase.channel = some c ∨ c = s.nextChannel ∧ c < nextChannel)
    (hnext : s.nextChannel ≤ nextChannel)
    (hlayer : ∀ e ∈ s.channelLayer, e ∈ channelLayer ∨ p.phase.channel = some e.2) :
    Inv remoteHost ⟨s.producers.set name { p with phase := phase }, channelLayer, nextChannel,
      s.subscribed⟩ where
  named n q hq := by
    rcases Dict.of_get?_set hq with ⟨rfl, rfl⟩ | ⟨-, hq⟩
    · exact h.named n p hp
    · exact h.named n q hq
  listed g o ho := by
    obtain ⟨q, hq, hoq⟩ := h.listed g o ho
    by_cases hn : producerName remoteHost g = name
    · subst hn
      rw [hp] at hq
      cases hq
      exact ⟨{ p with phase := phase }, by rw [Dict.get?_set, if_pos rfl], hoq⟩
    · exact ⟨q, by rw [Dict.get?_set, if_neg hn, hq], hoq⟩
  idle n q hq hst := by
    rcases Dict.of_get?_set hq with ⟨rfl, rfl⟩ | ⟨-, hq⟩
    · exact hidle hst
    · exact h.idle n q hq hst
  registered n q c hq hl hc := by
    rcases Dict.of_get?_set hq with ⟨rfl, rfl⟩ | ⟨hne, hq⟩
    · exact hreg c hl hc
    · rcases hlayer _ (h.registered n q c hq hl hc) with hmem | hown
      · exact hmem
      · exact absurd (h.distinct n name q p c hq hp hc hown) hne
  issued n q c hq hc := by
    rcases Dict.of_get?_set hq with ⟨rfl, rfl⟩ | ⟨-, hq⟩
    · rcases hchannel c hc with hold | hnew
      · exact Nat.lt_of_lt_of_le (h.issued n p c hp hold) hnext
      · exact hnew.2
    · exact Nat.lt_of_lt_of_le (h.issued n q c hq hc) hnext
  distinct n n' q q' c hq hq' hc hc' := by
    -- a channel that was not the producer's own is one that nobody has
    have hother : ∀ n' q', s.producers.get? n' = some q' → phase.channel = some c →
        q'.phase.channel = some c → name = n' := by
      intro n' q' hq' hc hc'
      rcases hchannel c hc with hold | hnew
      · exact h.distinct name n' p q' c hp hq' hold hc'
      · exact absurd (h.issued n' q' c hq' hc') (by omega)
    rcases Dict.of_get?_set hq with ⟨rfl, rfl⟩ | ⟨hne, hq₁⟩
    · rcases Dict.of_get?_set hq' with ⟨rfl, -⟩ | ⟨-, hq₁'⟩
      · rfl
      · exact hother n' q' hq₁' hc hc'
    · rcases Dict.of_get?_set hq' with ⟨rfl, rfl⟩ | ⟨-, hq₁'⟩
      · exact (hother n q hq₁ hc' hc).symm
      · exact h.distinct n n' q q' c hq₁ hq₁' hc hc'

/-- The entry goes only when nobody is subscribed to it. -/
theorem Inv.remove (h : Inv remoteHost s) {name : String} {p : Producer}
    (hp : s.producers.get? name = some p) (hst : p.phase.stopping = true) :
    Inv remoteHost { s with producers := s.producers.erase name } := by
  have hold : ∀ n q, (s.producers.erase name).get? n = some q → s.producers.get? n = some q := by
    intro n q hq
    rw [Dict.get?_erase] at hq
    split_ifs at hq
    exact hq
  constructor
  · exact fun n q hq => h.named n q (hold n q hq)
  · intro g o ho
    obtain ⟨q, hq, hoq⟩ := h.listed g o ho
    refine ⟨q, ?_, hoq⟩
    rw [Dict.get?_erase, if_neg, hq]
    intro hn
    rw [hn, hp] at hq
    cases hq
    rw [h.idle name p hp hst] at hoq
    exact absurd hoq List.not_mem_nil
  · exact fun n q hq => h.idle n q (hold n q hq)
  · exact fun n q c hq => h.registered n q c (hold n q hq)
  · exact fun n q c hq => h.issued n q c (hold n q hq)
  · exact fun n n' q q' c hq hq' => h.distinct n n' q q' c (hold n q hq) (hold n' q' hq')

theorem Inv.runProducer (h : Inv remoteHost s) {name : String} {p : Producer} {a : Action}
    (hp : s.producers.get? name = some p) (hs : runProducer s name p a = some s') :
    Inv remoteHost s' := by
  have hkeep : ∀ e ∈ s.channelLayer, e ∈ s.channelLayer ∨ p.phase.channel = some e.2 :=
    fun e he => .inl he
  have hlisten : ∀ c, p.phase.listening = true → p.phase.channel = some c →
      (p.group, c) ∈ s.channelLayer := fun c => h.registered name p c hp
  unfold RelayConnection.runProducer at hs
  split at hs
  case h_1 hph =>
    cases hs
    refine h.move hp _ _ _ nofun nofun (fun c hc => ?_) (Nat.le_succ _) hkeep
    cases hc
    exact .inr ⟨rfl, Nat.lt_succ_self _⟩
  case h_2 c hph =>
    cases hs
    refine h.move hp _ _ _ nofun (fun c' _ hc => ?_) (fun c' hc => ?_) (Nat.le_refl _)
      fun e he => .inl (List.mem_cons_of_mem _ he)
    · cases hc
      exact List.mem_cons_self
    · exact .inl (by rw [hph]; exact hc)
  case h_3 needsRelay c hph =>
    cases hs
    rw [hph] at hlisten
    refine h.move hp _ _ _ ?_ (fun c' _ hc => ?_) (fun c' hc => ?_) (Nat.le_refl _) hkeep
    · cases needsRelay <;> nofun
    · exact hlisten c' rfl (by cases needsRelay <;> exact hc)
    · exact .inl (by rw [hph]; cases needsRelay <;> exact hc)
  case h_4 c hph =>
    cases hs
    rw [hph] at hlisten
    refine h.move hp _ _ _ nofun (fun c' _ hc => hlisten c' rfl hc) (fun c' hc => ?_)
      (Nat.le_refl _) hkeep
    exact .inl (by rw [hph]; exact hc)
  case h_5 c hph =>
    cases hs
    rw [hph] at hlisten
    -- the producer stops only where nobody is subscribed
    split_ifs with hlen
    · refine h.move hp _ _ _ (fun _ => List.length_eq_zero_iff.mp hlen) nofun (fun c' hc => ?_)
        (Nat.le_refl _) hkeep
      exact .inl (by rw [hph]; exact hc)
    · refine h.move hp _ _ _ nofun (fun c' _ hc => hlisten c' rfl hc) (fun c' hc => ?_)
        (Nat.le_refl _) hkeep
      exact .inl (by rw [hph]; exact hc)
  case h_6 c hph =>
    cases hs
    refine h.move hp _ _ _ (fun _ => h.idle name p hp (by rw [hph]; rfl)) nofun nofun (Nat.le_refl _)
      fun e he => ?_
    by_cases heq : e = (p.group, c)
    · exact .inr (by rw [hph, heq]; rfl)
    · exact .inl (List.mem_filter.mpr ⟨he, decide_eq_true heq⟩)
  case h_7 hph =>
    cases hs
    exact h.remove hp (by rw [hph]; rfl)
  case h_8 => cases hs

/-! ### The messages -/

/-- An entry made by the reader, or one whose subscriptions it has changed. -/
theorem Inv.record (h : Inv remoteHost s) {g : String} {p : Producer}
    {subscribed : List (String × String)} (hgroup : p.group = g)
    (hentry : s.producers.get? (producerName remoteHost g) = none ∧ p.phase = .starting ∨
      ∃ q, s.producers.get? (producerName remoteHost g) = some q ∧ p.phase = q.phase)
    (hidle : p.phase.stopping = true → p.subscriptions = [])
    (hlisted : ∀ g' o, (g', o) ∈ subscribed →
      g' = g ∧ o ∈ p.subscriptions ∨ g' ≠ g ∧ (g', o) ∈ s.subscribed) :
    Inv remoteHost ⟨s.producers.set (producerName remoteHost g) p, s.channelLayer, s.nextChannel,
      subscribed⟩ := by
  -- a channel of the entry is the one it had before
  have hchannel : ∀ c, p.phase.channel = some c →
      ∃ q, s.producers.get? (producerName remoteHost g) = some q ∧ q.phase = p.phase := by
    intro c hc
    rcases hentry with ⟨-, hph⟩ | ⟨q, hq, hph⟩
    · rw [hph] at hc
      cases hc
    · exact ⟨q, hq, hph.symm⟩
  constructor
  · intro n q hq
    rcases Dict.of_get?_set hq with ⟨rfl, rfl⟩ | ⟨-, hq⟩
    · exact .inr (by rw [hgroup])
    · exact h.named n q hq
  · intro g' o ho
    rcases hlisted g' o ho with ⟨rfl, hop⟩ | ⟨hne, ho⟩
    · exact ⟨p, by rw [Dict.get?_set, if_pos rfl], hop⟩
    · obtain ⟨q, hq, hoq⟩ := h.listed g' o ho
      exact ⟨q, by rw [Dict.get?_set, if_neg fun hn => hne (producerName_inj hn), hq], hoq⟩
  · intro n q hq hst
    rcases Dict.of_get?_set hq with ⟨rfl, rfl⟩ | ⟨-, hq⟩
    · exact hidle hst
    · exact h.idle n q hq hst
  · intro n q c hq hl hc
    rcases Dict.of_get?_set hq with ⟨rfl, rfl⟩ | ⟨-, hq⟩
    · obtain ⟨r, hr, hph⟩ := hchannel c hc
      have hreg := h.registered _ r c hr (by rw [hph, hl]) (by rw [hph, hc])
      rw [hgroup, ← h.group_eq hr]
      exact hreg
    · exact h.registered n q c hq hl hc
  · intro n q c hq hc
    rcases Dict.of_get?_set hq with ⟨rfl, rfl⟩ | ⟨-, hq⟩
    · obtain ⟨r, hr, hph⟩ := hchannel c hc
      exact h.issued _ r c hr (by rw [hph, hc])
    · exact h.issued n q c hq hc
  · -- each entry with a channel has it in the old map too
    have hold : ∀ n q c, (s.producers.set (producerName remoteHost g) p).get? n = some q →
        q.phase.channel = some c →
        ∃ r, s.producers.get? n = some r ∧ r.phase.channel = some c := by
      intro n q c hq hc
      rcases Dict.of_get?_set hq with ⟨rfl, rfl⟩ | ⟨-, hq⟩
      · obtain ⟨r, hr, hph⟩ := hchannel c hc
        exact ⟨r, hr, by rw [hph, hc]⟩
      · exact ⟨q, hq, hc⟩
    intro n n' q q' c hq hq' hc hc'
    obtain ⟨r, hr, hrc⟩ := hold n q c hq hc
    obtain ⟨r', hr', hrc'⟩ := hold n' q' c hq' hc'
    exact h.distinct n n' r r' c hr hr' hrc hrc'

theorem subscribe_of_none {g : String} (hp : s.producers.get? (producerName remoteHost g) = none)
    (o : String) : subscribe remoteHost o s g =
      ⟨s.producers.set (producerName remoteHost g) ⟨g, [o], .starting⟩, s.channelLayer,
        s.nextChannel, s.subscribed.insert (g, o)⟩ := by
  simp only [subscribe, hp]

theorem subscribe_of_some {g : String} {p : Producer}
    (hp : s.producers.get? (producerName remoteHost g) = some p) (o : String) :
    subscribe remoteHost o s g =
      ⟨s.producers.set (producerName remoteHost g) ⟨p.group, p.subscriptions.insert o, p.phase⟩,
        s.channelLayer, s.nextChannel, s.subscribed.insert (g, o)⟩ := by
  simp only [subscribe, hp]

/-- A subscription to a group whose producer, if any, is not stopping. -/
theorem Inv.subscribe (h : Inv remoteHost s) {g : String} (hopen : s.Open remoteHost [g])
    (o : String) : Inv remoteHost (subscribe remoteHost o s g) := by
  have hsub : ∀ g' o', (g', o') ∈ s.subscribed.insert (g, o) →
      g' = g ∧ o' = o ∨ (g', o') ∈ s.subscribed := by
    intro g' o' ho
    rcases List.mem_insert_iff.mp ho with heq | ho
    · exact .inl ⟨congrArg Prod.fst heq, congrArg Prod.snd heq⟩
    · exact .inr ho
  cases hp : s.producers.get? (producerName remoteHost g) with
  | none =>
    rw [subscribe_of_none hp]
    refine h.record rfl (.inl ⟨hp, rfl⟩) nofun fun g' o' ho => ?_
    rcases hsub g' o' ho with ⟨rfl, rfl⟩ | hmem
    · exact .inl ⟨rfl, List.mem_singleton_self _⟩
    · refine .inr ⟨?_, hmem⟩
      rintro rfl
      obtain ⟨q, hq, -⟩ := h.listed g' o' hmem
      rw [hp] at hq
      cases hq
  | some p =>
    have hstop := hopen g (List.mem_singleton_self g)
    rw [hp] at hstop
    rw [subscribe_of_some hp]
    have hgroup : p.group = g := h.group_eq hp
    refine h.record hgroup (.inr ⟨p, hp, rfl⟩) (fun hst => ?_) fun g' o' ho => ?_
    · change p.phase.stopping = true at hst
      rw [Option.all_some, hst] at hstop
      cases hstop
    · rcases hsub g' o' ho with ⟨rfl, rfl⟩ | hmem
      · exact .inl ⟨rfl, List.mem_insert_self⟩
      · by_cases hg : g' = g
        · subst hg
          obtain ⟨q, hq, hoq⟩ := h.listed g' o' hmem
          rw [hp] at hq
          cases hq
          exact .inl ⟨rfl, List.mem_insert_of_mem hoq⟩
        · exact .inr ⟨hg, hmem⟩

/-- A subscription makes no producer stop. -/
theorem State.Open.subscribe {g : String} {gs : List String} (h : s.Open remoteHost gs)
    (o : String) : (RelayConnection.subscribe remoteHost o s g).Open remoteHost gs := by
  intro g' hg'
  have hall := h g' hg'
  cases hp : s.producers.get? (producerName remoteHost g) with
  | none =>
    rw [subscribe_of_none hp, Dict.get?_set]
    split_ifs
    · rfl
    · exact hall
  | some p =>
    rw [subscribe_of_some hp, Dict.get?_set]
    split_ifs with hn
    · rw [hn, hp] at hall
      exact hall
    · exact hall

theorem Inv.subscribeAll (h : Inv remoteHost s) {groups : List String}
    (hopen : s.Open remoteHost groups) (o : String) :
    Inv remoteHost (groups.foldl (RelayConnection.subscribe remoteHost o) s) := by
  induction groups generalizing s with
  | nil => exact h
  | cons g groups ih =>
    have hhead : s.Open remoteHost [g] := fun g' hg' =>
      hopen g' (List.mem_singleton.mp hg' ▸ List.mem_cons_self)
    have htail : s.Open remoteHost groups := fun g' hg' => hopen g' (List.mem_cons_of_mem _ hg')
    exact ih (h.subscribe hhead o) (htail.subscribe o)

theorem Inv.unsubscribe (h : Inv remoteHost s) (o g : String) :
    Inv remoteHost (unsubscribe remoteHost o s g) := by
  have hsub : ∀ g' o', (g', o') ∈ s.subscribed.filter (fun e => e ≠ (g, o)) →
      (g', o') ∈ s.subscribed ∧ (g' = g → o' ≠ o) := by
    intro g' o' ho
    obtain ⟨ho, hne⟩ := List.mem_filter.mp ho
    refine ⟨ho, fun hg hoo => of_decide_eq_true hne ?_⟩
    rw [hg, hoo]
  unfold RelayConnection.unsubscribe Dict.modify
  cases hp : s.producers.get? (producerName remoteHost g) with
  | none =>
    refine ⟨h.named, fun g' o' ho => ?_, h.idle, h.registered, h.issued, h.distinct⟩
    exact h.listed g' o' (hsub g' o' ho).1
  | some p =>
    have hgroup : p.group = g := h.group_eq hp
    refine h.record hgroup (.inr ⟨p, hp, rfl⟩) (fun hst => ?_) fun g' o' ho => ?_
    · change p.subscriptions.erase o = []
      rw [h.idle _ p hp hst]
      rfl
    · obtain ⟨hmem, hne⟩ := hsub g' o' ho
      by_cases hg : g' = g
      · subst hg
        obtain ⟨q, hq, hoq⟩ := h.listed g' o' hmem
        rw [hp] at hq
        cases hq
        exact .inl ⟨rfl, (List.mem_erase_of_ne (hne rfl)).mpr hoq⟩
      · exact .inr ⟨hg, hmem⟩

theorem Inv.unsubscribeAll (h : Inv remoteHost s) (groups : List String) (o : String) :
    Inv remoteHost (groups.foldl (RelayConnection.unsubscribe remoteHost o) s) := by
  induction groups generalizing s with
  | nil => exact h
  | cons g groups ih => exact ih (h.unsubscribe o g)

/-! ### Runs -/

theorem Inv.step (h : Inv remoteHost s) {e : Event} (hc : Clear remoteHost s e)
    (hs : exec remoteHost s e = some s') : Inv remoteHost s' := by
  cases e with
  | subscribe groups o =>
    cases hs
    exact h.subscribeAll hc o
  | unsubscribe groups o =>
    cases hs
    exact h.unsubscribeAll groups o
  | producer name a =>
    obtain ⟨p, hp, hs⟩ := Option.bind_eq_some_iff.mp hs
    exact h.runProducer hp hs

/-- No subscription is lost in a run in which none comes while the producer of its group is
stopping. -/
theorem noneLost_of_clear (remoteHost : String) (s : State)
    (h : ((connection remoteHost).restrict (Clear remoteHost)).Reachable s) :
    s.NoneLost remoteHost := by
  have hinv : Inv remoteHost s :=
    System.Reachable.invariant (S := (connection remoteHost).restrict (Clear remoteHost))
      (fun s hs => by rw [show s = initial from hs]; exact .initial)
      (fun s e s' _ hI hs => hI.step hs.2 hs.1) h
  exact fun _ g o ho => hinv.served ho

/-- A subscriber leaves, the producer stops, and after that the subscriber comes back. -/
theorem noneLost_of_clear_returned :
    ∃ s : State, ("jobs-1", "browser") ∈ s.subscribed ∧ s.NoneLost "web" := by
  obtain ⟨s, hs, hmem⟩ : ∃ s, System.runAll (System.guarded (exec "web") (Clear "web")) initial
      [.subscribe ["jobs-1"] "browser", .producer "web-jobs-1" .newChannel,
        .producer "web-jobs-1" .groupAdd, .unsubscribe ["jobs-1"] "browser",
        .producer "web-jobs-1" .timeout, .producer "web-jobs-1" .groupDiscard,
        .producer "web-jobs-1" .remove, .subscribe ["jobs-1"] "browser",
        .producer "web-jobs-1" .newChannel, .producer "web-jobs-1" .groupAdd] = some s ∧
      ("jobs-1", "browser") ∈ s.subscribed := System.exists_of_runAll (by decide)
  have hreach : ((connection "web").restrict (Clear "web")).Reachable s :=
    System.Reachable.runAll_guarded (S := connection "web") (fun _ _ _ h => h) (.init rfl) hs
  exact ⟨s, hmem, noneLost_of_clear "web" s hreach⟩

/-- The subscriber comes back while the producer awaits `group_discard`: it is added to the entry,
and the entry is removed. -/
theorem lateSubscription_lost :
    ∃ s : State, (connection "web").Reachable s ∧ ¬ s.NoneLost "web" := by
  obtain ⟨s, hs, hmem, hnone, hstop⟩ : ∃ s, System.runAll (exec "web") initial
      [.subscribe ["jobs-1"] "browser", .producer "web-jobs-1" .newChannel,
        .producer "web-jobs-1" .groupAdd, .unsubscribe ["jobs-1"] "browser",
        .producer "web-jobs-1" .timeout, .subscribe ["jobs-1"] "browser",
        .producer "web-jobs-1" .groupDiscard, .producer "web-jobs-1" .remove] = some s ∧
      ("jobs-1", "browser") ∈ s.subscribed ∧
      (s.producers.get? (producerName "web" "jobs-1")).isNone = true ∧
      ∀ e ∈ s.producers.entries, e.2.phase.stopping = false :=
    System.exists_of_runAll (by decide)
  refine ⟨s, System.Reachable.runAll (fun _ _ _ _ h => h) (.init rfl) hs, fun hlost => ?_⟩
  obtain ⟨p, hp, -⟩ := hlost (fun name p hp => hstop (name, p) (Dict.mem_entries_of_get? hp))
    "jobs-1" "browser" hmem
  rw [hp] at hnone
  cases hnone

end Forail.RelayConnection
