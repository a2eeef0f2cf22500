import Forail.WsRelay.RelayManager

/-! Rounds of the relay manager among heartbeats. A clean-up takes the host out of both maps,
also when the host is only to be connected to its new address, so the round that removes a
host and adds it again raises unless the host announces itself in between; and a clean-up of
the round raises when the heartbeat task has removed the same connection first. -/

namespace Forail.WsRelay

/-- No round has raised; every entry belongs to a known host and connects to what the host
had announced; and no host has two tasks that run. -/
structure Sound (s : State) : Prop where
  quiet : s.round ≠ .raised
  known : ∀ h c, s.relayConnections.get? h = some c → (s.knownHosts.get? h).isSome
  entry : ∀ h c, s.relayConnections.get? h = some c → ∃ x, s.connections.get? c = some x ∧
    x.host = h ∧ x.announced = some x.remoteHost
  single : ∀ c c' x x', s.connections.get? c = some x → s.connections.get? c' = some x' →
    x.done = false → x'.done = false → x.host = x'.host → c = c'

/-- What a step must meet: the heartbeat task removes no connection whose clean-up the round
awaits, and the hosts that a round adds after its clean-ups are known then. -/
def Clear (s : State) : Event → Prop
  | .offlineDone => ∀ h c, s.heartbeat = some (h, c) → ∀ scheduled waiting new,
      s.round = .cleaning scheduled waiting new → waiting.get? h = none
  | .addHosts => ∀ scheduled waiting new, s.round = .cleaning scheduled waiting new →
      ∀ h ∈ new, (s.knownHosts.get? h).isSome
  | .notify _ | .established _ | .lost _ | .roundStart | .cleanupBegin _ | .cleanupDone _ => True

/-! ### The invariant -/

/-- The maps against the connections and the last announcements. -/
structure MapsInv (s : State) : Prop where
  known : ∀ h c, s.relayConnections.get? h = some c → (s.knownHosts.get? h).isSome
  entry : ∀ h c, s.relayConnections.get? h = some c → ∃ x, s.connections.get? c = some x ∧
    x.host = h ∧ x.announced = some x.remoteHost
  running : ∀ c x, s.connections.get? c = some x → x.done = false →
    s.relayConnections.get? x.host = some c
  issued : ∀ c x, s.connections.get? c = some x → c < s.nextConnection
  announced : ∀ h a, s.knownHosts.get? h = some a → s.announced.get? h = some a
  heartbeat : ∀ h c, s.heartbeat = some (h, c) → s.relayConnections.get? h = some c ∨
    (s.relayConnections.get? h = none ∧ s.knownHosts.get? h = none)

/-- A round against the map of connections. -/
def RoundInv (s : State) : Round → Prop
  | .sleeping => True
  | .cleaning scheduled waiting new => new.Nodup ∧
    (∀ h c, waiting.get? h = some c → s.relayConnections.get? h = some c) ∧
    ∀ h ∈ new, (s.relayConnections.get? h).isSome → h ∈ scheduled ∨ (waiting.get? h).isSome
  | .raised => False

structure Inv (s : State) : Prop where
  maps : MapsInv s
  round : RoundInv s s.round

theorem Inv.sound {s : State} (h : Inv s) : Sound s where
  quiet := fun hr => by
    have hround := h.round
    rw [hr] at hround
    exact hround
  known := h.maps.known
  entry := h.maps.entry
  single := fun c c' x x' hx hx' hd hd' hh => by
    have hc := h.maps.running c x hx hd
    have hc' := h.maps.running c' x' hx' hd'
    rw [hh, hc'] at hc
    exact (Option.some.inj hc).symm

section Steps
variable {s s' : State}

/-- The round's condition looks only at the map of connections. -/
theorem RoundInv.congr {r : Round} (h : RoundInv s r)
    (hrelay : s'.relayConnections = s.relayConnections) : RoundInv s' r := by
  cases r with
  | sleeping => trivial
  | cleaning scheduled waiting new =>
    obtain ⟨hnd, hwait, hnew⟩ := h
    exact ⟨hnd, hrelay ▸ hwait, hrelay ▸ hnew⟩
  | raised => exact h

/-! ### Connections -/

/-- A step of a connection's task: it keeps the host and does not start again. -/
theorem MapsInv.setConnection (h : MapsInv s) {c : ℕ} {x y : Connection}
    (hx : s.connections.get? c = some x) (hhost : y.host = x.host)
    (hremote : y.remoteHost = x.remoteHost) (hann : y.announced = x.announced)
    (hdone : y.done = false → x.done = false) :
    MapsInv { s with connections := s.connections.set c y } where
  known := h.known
  entry := fun h' c' hc' => by
    obtain ⟨z, hz, hzh, hza⟩ := h.entry h' c' hc'
    by_cases hcc : c' = c
    · subst hcc
      rw [hx] at hz
      cases hz
      exact ⟨y, by rw [Dict.get?_set, if_pos rfl], hhost.trans hzh, by rw [hann, hza, hremote]⟩
    · exact ⟨z, by rw [Dict.get?_set, if_neg hcc, hz], hzh, hza⟩
  running := fun c' z hz hd => by
    rcases Dict.of_get?_set hz with ⟨rfl, rfl⟩ | ⟨-, hz⟩
    · exact hhost ▸ h.running c' x hx (hdone hd)
    · exact h.running c' z hz hd
  issued := fun c' z hz => by
    rcases Dict.of_get?_set hz with ⟨rfl, rfl⟩ | ⟨-, hz⟩
    · exact h.issued c' x hx
    · exact h.issued c' z hz
  announced := h.announced
  heartbeat := h.heartbeat

theorem Inv.setConnection (h : Inv s) {c : ℕ} {x y : Connection}
    (hx : s.connections.get? c = some x) (hhost : y.host = x.host)
    (hremote : y.remoteHost = x.remoteHost) (hann : y.announced = x.announced)
    (hdone : y.done = false → x.done = false) :
    Inv { s with connections := s.connections.set c y } :=
  ⟨h.maps.setConnection hx hhost hremote hann hdone, h.round.congr rfl⟩

theorem MapsInv.cancel (h : MapsInv s) (c : ℕ) : MapsInv { s with
    connections := s.connections.modify c fun x => { x with cancelled := true } } := by
  unfold Dict.modify
  cases hx : s.connections.get? c with
  | none => exact h
  | some x => exact h.setConnection hx rfl rfl rfl id

/-! ### Clean-ups -/

/-- The connection of an entry that is done may go, with the host. -/
theorem MapsInv.erase (h : MapsInv s) {h' : Host} {c : ℕ}
    (hc : s.relayConnections.get? h' = some c) (hd : s.isDone c = true) :
    MapsInv { s with
      relayConnections := s.relayConnections.erase h', knownHosts := s.knownHosts.erase h' } where
  known := fun k c' hk => by
    rw [Dict.get?_erase] at hk ⊢
    split_ifs at hk with hkh
    rw [if_neg hkh]
    exact h.known k c' hk
  entry := fun k c' hk => by
    rw [Dict.get?_erase] at hk
    split_ifs at hk with hkh
    exact h.entry k c' hk
  running := fun c' x hx hxd => by
    have hrun := h.running c' x hx hxd
    rw [Dict.get?_erase, if_neg, hrun]
    -- the connection that runs is not the one that goes
    intro he
    rw [he, hc] at hrun
    rw [← Option.some.inj hrun] at hx
    rw [State.isDone, hx, Option.any_some, hxd] at hd
    cases hd
  issued := h.issued
  announced := fun k a hk => by
    rw [Dict.get?_erase] at hk
    split_ifs at hk with hkh
    exact h.announced k a hk
  heartbeat := fun k c' hk => by
    rw [Dict.get?_erase, Dict.get?_erase]
    split_ifs with hkh
    · exact .inr ⟨rfl, rfl⟩
    · exact h.heartbeat k c' hk

/-- A host without an entry may be forgotten. -/
theorem MapsInv.forget (h : MapsInv s) {h' : Host} (hn : s.relayConnections.get? h' = none) :
    MapsInv { s with knownHosts := s.knownHosts.erase h' } where
  known := fun k c' hk => by
    rw [Dict.get?_erase, if_neg]
    · exact h.known k c' hk
    · rintro rfl
      rw [hn] at hk
      cases hk
  entry := h.entry
  running := h.running
  issued := h.issued
  announced := fun k a hk => by
    rw [Dict.get?_erase] at hk
    split_ifs at hk with hkh
    exact h.announced k a hk
  heartbeat := fun k c' hk => by
    rcases h.heartbeat k c' hk with hrel | ⟨hrel, hkn⟩
    · exact .inl hrel
    · refine .inr ⟨hrel, ?_⟩
      rw [Dict.get?_erase]
      split_ifs
      · rfl
      · exact hkn

theorem MapsInv.await (h : MapsInv s) {h' : Host} {c : ℕ}
    (hc : s.relayConnections.get? h' = some c) : MapsInv { s with heartbeat := some (h', c) } :=
  ⟨h.known, h.entry, h.running, h.issued, h.announced, fun k c' hk => by
    cases hk
    exact .inl hc⟩

theorem MapsInv.idle (h : MapsInv s) : MapsInv { s with heartbeat := none } :=
  ⟨h.known, h.entry, h.running, h.issued, h.announced, fun k c' hk => by cases hk⟩

theorem MapsInv.withRound (h : MapsInv s) (r : Round) : MapsInv { s with round := r } :=
  ⟨h.known, h.entry, h.running, h.issued, h.announced, h.heartbeat⟩

theorem MapsInv.announce (h : MapsInv s) (hb : s.heartbeat = none) (h' : Host) (a : String) :
    MapsInv { s with knownHosts := s.knownHosts.set h' a, announced := s.announced.set h' a } where
  known := fun k c' hk => by
    rw [Dict.get?_set]
    split_ifs
    · rfl
    · exact h.known k c' hk
  entry := h.entry
  running := h.running
  issued := h.issued
  announced := fun k a' hk => by
    rw [Dict.get?_set] at hk ⊢
    split_ifs at hk ⊢ with hkh
    · exact hk
    · exact h.announced k a' hk
  heartbeat := fun k c' hk => by
    rw [show s.heartbeat = some (k, c') from hk] at hb
    cases hb

/-! ### Heartbeats -/

theorem Inv.offline (h : Inv s) (h' : Host) : Inv (s.offline h') := by
  unfold State.offline State.beginCleanup
  cases hr : s.relayConnections.get? h' with
  | some c =>
    have hmaps := (h.maps.cancel c).await hr
    exact ⟨hmaps, h.round.congr rfl⟩
  | none => exact ⟨h.maps.forget hr, h.round.congr rfl⟩

theorem Inv.notify (h : Inv s) (hb : s.heartbeat = none) (localHostname : String) (p : Payload) :
    Inv (s.notify localHostname p) := by
  unfold State.notify
  split
  · exact h
  · split
    · exact h
    · split_ifs
      · exact ⟨h.maps.announce hb _ _, h.round.congr rfl⟩
      · exact h.offline _
      · exact h

theorem Inv.offlineDone (h : Inv s) {h' : Host} {c : ℕ} (hb : s.heartbeat = some (h', c))
    (hd : s.isDone c = true) (hc : Clear s .offlineDone) :
    Inv { (s.endCleanup h').getD s with heartbeat := none } := by
  unfold State.endCleanup
  cases hr : s.relayConnections.get? h' with
  | none => exact ⟨h.maps.idle, h.round.congr rfl⟩
  | some c' =>
    -- the entry is still the connection that was awaited
    have hcc : c' = c := by
      rcases h.maps.heartbeat h' c hb with hrel | ⟨hrel, -⟩ <;> rw [hrel] at hr <;> cases hr
      rfl
    subst hcc
    refine ⟨(h.maps.erase hr hd).idle, ?_⟩
    have hround := h.round
    change RoundInv _ s.round
    cases hrd : s.round with
    | sleeping => trivial
    | raised =>
      rw [hrd] at hround
      exact hround
    | cleaning scheduled waiting new =>
      rw [hrd] at hround
      obtain ⟨hnd, hwait, hnew⟩ := hround
      have hnone := hc h' c' hb scheduled waiting new hrd
      refine ⟨hnd, fun k c₂ hk => ?_, fun k hk hs => hnew k hk ?_⟩
      · change (s.relayConnections.erase h').get? k = some c₂
        rw [Dict.get?_erase, if_neg]
        · exact hwait k c₂ hk
        · rintro rfl
          rw [hnone] at hk
          cases hk
      · change ((s.relayConnections.erase h').get? k).isSome = true at hs
        rw [Dict.get?_erase] at hs
        split_ifs at hs
        · cases hs
        · exact hs

/-! ### Rounds -/

theorem MapsInv.addHost (h : MapsInv s) {h' : Host} {a : String}
    (hk : s.knownHosts.get? h' = some a) (hn : s.relayConnections.get? h' = none) :
    MapsInv (s.addHost h' a) where
  known := fun k c' hc' => by
    rcases Dict.of_get?_set hc' with ⟨rfl, -⟩ | ⟨-, hc'⟩
    · exact Option.isSome_iff_exists.mpr ⟨a, hk⟩
    · exact h.known k c' hc'
  entry := fun k c' hc' => by
    rcases Dict.of_get?_set hc' with ⟨rfl, rfl⟩ | ⟨-, hc'⟩
    · exact ⟨_, by rw [State.addHost, Dict.get?_set, if_pos rfl], rfl, h.announced k a hk⟩
    · obtain ⟨x, hx, hrest⟩ := h.entry k c' hc'
      refine ⟨x, ?_, hrest⟩
      rw [State.addHost, Dict.get?_set, if_neg, hx]
      exact Nat.ne_of_lt (h.issued c' x hx)
  running := fun c' x hx hd => by
    rcases Dict.of_get?_set hx with ⟨rfl, rfl⟩ | ⟨-, hx⟩
    · rw [State.addHost, Dict.get?_set, if_pos rfl]
    · have hrun := h.running c' x hx hd
      rw [State.addHost, Dict.get?_set, if_neg, hrun]
      intro he
      rw [he, hn] at hrun
      cases hrun
  issued := fun c' x hx => by
    rcases Dict.of_get?_set hx with ⟨rfl, -⟩ | ⟨-, hx⟩
    · exact Nat.lt_succ_self _
    · exact Nat.lt_succ_of_lt (h.issued c' x hx)
  announced := h.announced
  heartbeat := fun k c' hb => by
    rcases h.heartbeat k c' hb with hrel | ⟨hrel, hkn⟩
    · refine .inl ?_
      rw [State.addHost, Dict.get?_set, if_neg, hrel]
      rintro rfl
      rw [hrel] at hn
      cases hn
    · refine .inr ⟨?_, hkn⟩
      rw [State.addHost, Dict.get?_set, if_neg, hrel]
      rintro rfl
      rw [hkn] at hk
      cases hk

theorem addHost_knownHosts (h' : Host) (a : String) :
    (s.addHost h' a).knownHosts = s.knownHosts := rfl

theorem Inv.addHosts {new : List Host} (h : MapsInv s) (hnd : new.Nodup)
    (hknown : ∀ h' ∈ new, (s.knownHosts.get? h').isSome)
    (hnone : ∀ h' ∈ new, s.relayConnections.get? h' = none) : Inv (addHosts new s) := by
  induction new generalizing s with
  | nil => exact ⟨h.withRound _, trivial⟩
  | cons k new ih =>
    obtain ⟨a, ha⟩ := Option.isSome_iff_exists.mp (hknown k List.mem_cons_self)
    obtain ⟨hk, hnd⟩ := List.nodup_cons.mp hnd
    rw [WsRelay.addHosts, ha]
    refine ih (h.addHost ha (hnone k List.mem_cons_self)) hnd
      (fun h' hh' => hknown h' (List.mem_cons_of_mem _ hh')) fun h' hh' => ?_
    rw [State.addHost, Dict.get?_set, if_neg]
    · exact hnone h' (List.mem_cons_of_mem _ hh')
    · rintro rfl
      exact hk hh'

theorem mem_newRemoteHosts {h' : Host} (hn : h' ∈ s.newRemoteHosts) :
    (s.knownHosts.get? h').isSome = true ∧
      ((s.relayConnections.get? h').isSome = true → h' ∈ s.deletedRemoteHosts) := by
  simp only [State.newRemoteHosts, List.mem_filter, Bool.or_eq_true, decide_eq_true_eq] at hn
  obtain ⟨hk, hor⟩ := hn
  obtain ⟨a, ha⟩ := Dict.get?_of_mem_keys hk
  refine ⟨Option.isSome_iff_exists.mpr ⟨a, ha⟩, fun hs => ?_⟩
  obtain ⟨c, hc⟩ := Option.isSome_iff_exists.mp hs
  have hmem := Dict.mem_keys_of_get? hc
  rcases hor with hor | hor
  · exact absurd hmem hor
  · simp only [State.deletedRemoteHosts, List.mem_filter, Bool.or_eq_true]
    exact ⟨hmem, .inl (.inr hor)⟩

theorem newRemoteHosts_nodup (s : State) : s.newRemoteHosts.Nodup :=
  List.Nodup.sublist List.filter_sublist s.knownHosts.nodup

theorem Inv.roundStart (h : Inv s) : Inv (roundStart s) := by
  unfold WsRelay.roundStart
  split_ifs with he
  · refine Inv.addHosts h.maps (newRemoteHosts_nodup s) (fun h' hh' => (mem_newRemoteHosts hh').1)
      fun h' hh' => ?_
    by_contra hne
    have hdel := (mem_newRemoteHosts hh').2 (Option.isSome_iff_ne_none.mpr hne)
    rw [List.isEmpty_iff.mp he] at hdel
    exact absurd hdel List.not_mem_nil
  · refine ⟨h.maps.withRound _, newRemoteHosts_nodup s, fun k c hk => ?_, fun k hk hs => ?_⟩
    · rw [Dict.get?_empty] at hk
      cases hk
    · exact .inl ((mem_newRemoteHosts hk).2 hs)

theorem Inv.cleanupBegin (h : Inv s) {h' : Host} {scheduled new : List Host}
    {waiting : Dict Host ℕ} (hr : s.round = .cleaning scheduled waiting new) :
    Inv (cleanupBegin s h' scheduled waiting new) := by
  have hround := h.round
  rw [hr] at hround
  obtain ⟨hnd, hwait, hnew⟩ := hround
  unfold WsRelay.cleanupBegin State.beginCleanup
  cases hc : s.relayConnections.get? h' with
  | some c =>
    refine ⟨(h.maps.cancel c).withRound _, hnd, fun k c' hk => ?_, fun k hk hs => ?_⟩
    · rcases Dict.of_get?_set hk with ⟨rfl, rfl⟩ | ⟨-, hk⟩
      · exact hc
      · exact hwait k c' hk
    · by_cases hkh : k = h'
      · exact .inr (by rw [Dict.get?_set, if_pos hkh]; rfl)
      · refine (hnew k hk hs).imp (fun hmem => (List.mem_erase_of_ne hkh).mpr hmem) fun hw => ?_
        rw [Dict.get?_set, if_neg hkh]
        exact hw
  | none =>
    refine ⟨(h.maps.forget hc).withRound _, hnd, hwait, fun k hk hs => ?_⟩
    refine (hnew k hk hs).imp (fun hmem => (List.mem_erase_of_ne ?_).mpr hmem) id
    rintro rfl
    rw [show s.relayConnections.get? k = none from hc] at hs
    cases hs

theorem Inv.cleanupDone (h : Inv s) {h' : Host} {scheduled new : List Host}
    {waiting : Dict Host ℕ} (hr : s.round = .cleaning scheduled waiting new) {c : ℕ}
    (hw : waiting.get? h' = some c) (hd : s.isDone c = true) :
    Inv (cleanupDone s h' scheduled waiting new) := by
  have hround := h.round
  rw [hr] at hround
  obtain ⟨hnd, hwait, hnew⟩ := hround
  have hc := hwait h' c hw
  unfold WsRelay.cleanupDone State.endCleanup
  rw [hc]
  refine ⟨(h.maps.erase hc hd).withRound _, hnd, fun k c' hk => ?_, fun k hk hs => ?_⟩
  · rw [Dict.get?_erase] at hk
    split_ifs at hk with hkh
    change (s.relayConnections.erase h').get? k = some c'
    rw [Dict.get?_erase, if_neg hkh]
    exact hwait k c' hk
  · change ((s.relayConnections.erase h').get? k).isSome = true at hs
    rw [Dict.get?_erase] at hs
    split_ifs at hs with hkh
    · cases hs
    · rw [Dict.get?_erase, if_neg hkh]
      exact hnew k hk hs

theorem Inv.step (h : Inv s) {localHostname : String} {e : Event} (hc : Clear s e)
    (hs : exec localHostname s e = some s') : Inv s' := by
  cases e with
  | notify p =>
    obtain ⟨hb, hs⟩ := Option.ite_none_left_eq_some.mp hs
    cases hs
    exact h.notify (by simpa using hb) localHostname p
  | offlineDone =>
    simp only [exec] at hs
    split at hs
    · cases hs
    · rename_i h' c hb
      obtain ⟨hd, hs⟩ := Option.ite_none_right_eq_some.mp hs
      cases hs
      exact h.offlineDone hb hd hc
  | established c =>
    simp only [exec] at hs
    split at hs
    · cases hs
    · rename_i x hx
      obtain ⟨-, hs⟩ := Option.ite_none_left_eq_some.mp hs
      cases hs
      exact h.setConnection hx rfl rfl rfl id
  | lost c =>
    simp only [exec] at hs
    split at hs
    · cases hs
    · rename_i x hx
      obtain ⟨-, hs⟩ := Option.ite_none_left_eq_some.mp hs
      cases hs
      exact h.setConnection hx rfl rfl rfl fun hd => by cases hd
  | roundStart =>
    simp only [exec] at hs
    split at hs <;> cases hs
    exact h.roundStart
  | cleanupBegin h' =>
    simp only [exec] at hs
    split at hs
    · rename_i scheduled waiting new hr
      obtain ⟨-, hs⟩ := Option.ite_none_right_eq_some.mp hs
      cases hs
      exact h.cleanupBegin hr
    · cases hs
    · cases hs
  | cleanupDone h' =>
    simp only [exec] at hs
    split at hs
    · rename_i scheduled waiting new hr
      split at hs
      · rename_i c hw
        obtain ⟨hd, hs⟩ := Option.ite_none_right_eq_some.mp hs
        cases hs
        exact h.cleanupDone hr hw hd
      · cases hs
    · cases hs
    · cases hs
  | addHosts =>
    simp only [exec] at hs
    split at hs
    · rename_i waiting new hr
      obtain ⟨hempty, hs⟩ := Option.ite_none_right_eq_some.mp hs
      cases hs
      have hround := h.round
      rw [hr] at hround
      obtain ⟨hnd, -, hnew⟩ := hround
      refine Inv.addHosts h.maps hnd (hc _ _ _ hr) fun k hk => ?_
      by_contra hne
      rcases hnew k hk (Option.isSome_iff_ne_none.mpr hne) with hmem | hw
      · exact absurd hmem List.not_mem_nil
      · obtain ⟨c, hw⟩ := Option.isSome_iff_exists.mp hw
        have hmem := Dict.mem_keys_of_get? hw
        rw [List.isEmpty_iff.mp hempty] at hmem
        exact absurd hmem List.not_mem_nil
    · cases hs
    · cases hs
    · cases hs

end Steps

theorem initial_inv : Inv initial where
  maps := by refine ⟨?_, ?_, ?_, ?_, ?_, ?_⟩ <;> simp [initial]
  round := trivial

def heartbeatFrom (ip action : String) : Event := .notify ⟨some "web", some ip, action⟩

/-- A connection is lost, cleaned up, and made anew after the next heartbeat. -/
def reconnect : List Event :=
  [heartbeatFrom "10.0.0.1" "online", .roundStart, .established 0, .lost 0, .roundStart,
    .cleanupBegin (some "web"), .cleanupDone (some "web"), .addHosts,
    heartbeatFrom "10.0.0.1" "online", .roundStart]

instance (s : State) (e : Event) : Decidable (Clear s e) := by
  cases e with
  | offlineDone =>
    unfold Clear
    cases s.heartbeat with
    | none => exact .isTrue fun h c hb => by cases hb
    | some p =>
      cases s.round with
      | sleeping => exact .isTrue fun h c hb scheduled waiting new hr => by cases hr
      | raised => exact .isTrue fun h c hb scheduled waiting new hr => by cases hr
      | cleaning scheduled waiting new =>
        exact decidable_of_iff (waiting.get? p.1 = none)
          ⟨fun hw h c hb _ _ _ hr => by cases hb; cases hr; exact hw,
            fun hw => hw p.1 p.2 rfl _ _ _ rfl⟩
  | addHosts =>
    unfold Clear
    cases s.round with
    | sleeping => exact .isTrue fun scheduled waiting new hr => by cases hr
    | raised => exact .isTrue fun scheduled waiting new hr => by cases hr
    | cleaning scheduled waiting new =>
      exact decidable_of_iff (∀ h ∈ new, (s.knownHosts.get? h).isSome)
        ⟨fun hk _ _ _ hr => by cases hr; exact hk, fun hk => hk _ _ _ rfl⟩
  | _ => exact .isTrue trivial

/-- A connected host announces another address: its clean-up also forgets the address, and
the round raises when it looks it up. -/
def newAddress : List Event :=
  [heartbeatFrom "10.0.0.1" "online", .roundStart, .established 0,
    heartbeatFrom "10.0.0.2" "online", .roundStart, .cleanupBegin (some "web"), .lost 0,
    .cleanupDone (some "web"), .addHosts]

def Round.isRaised : Round → Bool
  | .raised => true
  | .sleeping | .cleaning _ _ _ => false

end Forail.WsRelay
