import Forail.Base.Dict
import Forail.Base.Runs
import Mathlib.Logic.Basic

/-! The manager of the websocket relay: one task that handles heartbeats and one that runs
rounds, over the shared maps of known hosts and relay connections. An event is what happens
between two suspensions: a clean-up of a host begins by cancelling the connection's task and
ends, in a later event, after that task is done. -/

namespace Forail.WsRelay

/-- The host name of a heartbeat, which a payload may lack. -/
abbrev Host := Option String

/-- A `WebsocketRelayConnection` with its task; `announced` is what the host had last announced
when the connection was made. -/
structure Connection where
  host : Host
  remoteHost : String
  announced : Option String
  connected : Bool
  cancelled : Bool
  done : Bool

structure Payload where
  hostname : Host
  ip : Option String
  action : String

/-- `payload.get("ip") or hostname`. -/
def Payload.address (p : Payload) : Option String :=
  match p.ip with
  | some ip => if ip = "" then p.hostname else some ip
  | none => p.hostname

/-- A round sleeps, awaits its clean-ups, or has raised. The clean-ups of the hosts in
`scheduled` have not begun; those in `waiting` await the task of a connection. -/
inductive Round
  | sleeping
  | cleaning (scheduled : List Host) (waiting : Dict Host ℕ) (newRemoteHosts : List Host)
  | raised

/-- The maps of the manager, every connection ever made, and where its two tasks are; the one
for heartbeats may await the task of a connection that it cleans up. -/
structure State where
  knownHosts : Dict Host String
  relayConnections : Dict Host ℕ
  connections : Dict ℕ Connection
  nextConnection : ℕ
  announced : Dict Host String
  heartbeat : Option (Host × ℕ)
  round : Round

inductive Event
  | notify (p : Payload)
  | offlineDone
  | established (c : ℕ)
  | lost (c : ℕ)
  | roundStart
  | cleanupBegin (h : Host)
  | cleanupDone (h : Host)
  | addHosts

namespace State
variable (s : State)

def remoteHost (h : Host) : Option String :=
  ((s.relayConnections.get? h).bind s.connections.get?).map Connection.remoteHost

def connected (h : Host) : Bool :=
  ((s.relayConnections.get? h).bind s.connections.get?).any Connection.connected

def isDone (c : ℕ) : Bool := (s.connections.get? c).any Connection.done

/-! ### `cleanup_offline_host` -/

/-- Up to the await: the connection whose task is awaited, or none and the host is forgotten. -/
def beginCleanup (h : Host) : State × Option ℕ :=
  match s.relayConnections.get? h with
  | some c => ({ s with
      connections := s.connections.modify c fun x => { x with cancelled := true } }, some c)
  | none => ({ s with knownHosts := s.knownHosts.erase h }, none)

/-- After the await. A key that is no longer in the map raises. -/
def endCleanup (h : Host) : Option State :=
  match s.relayConnections.get? h with
  | some _ => some { s with
      relayConnections := s.relayConnections.erase h
      knownHosts := s.knownHosts.erase h }
  | none => none

/-! ### `on_ws_heartbeat` -/

def offline (h : Host) : State :=
  match s.beginCleanup h with
  | (s, some c) => { s with heartbeat := some (h, c) }
  | (s, none) => s

/-- Heartbeats of the local host, of other actions and without any name are skipped. -/
def notify (localHostname : String) (p : Payload) : State :=
  if p.hostname = some localHostname then s
  else match p.address with
    | none => s
    | some ip =>
      if p.action = "online" then { s with
        knownHosts := s.knownHosts.set p.hostname ip
        announced := s.announced.set p.hostname ip }
      else if p.action = "offline" then s.offline p.hostname
      else s

/-! ### `run` -/

def addressChanged (h : Host) : Bool :=
  match s.knownHosts.get? h, s.remoteHost h with
  | some address, some remoteHost => address ≠ remoteHost
  | _, _ => false

def deletedRemoteHosts : List Host :=
  s.relayConnections.keys.filter fun h =>
    h ∉ s.knownHosts.keys || s.addressChanged h || !s.connected h

def newRemoteHosts : List Host :=
  s.knownHosts.keys.filter fun h => h ∉ s.relayConnections.keys || s.addressChanged h

def addHost (h : Host) (address : String) : State :=
  { s with
    connections := s.connections.set s.nextConnection
      ⟨h, address, s.announced.get? h, false, false, false⟩
    relayConnections := s.relayConnections.set h s.nextConnection
    nextConnection := s.nextConnection + 1 }

end State

/-- The loop that adds connections, which looks every host up in the map of known hosts. -/
def addHosts : List Host → State → State
  | [], s => { s with round := .sleeping }
  | h :: hs, s =>
    match s.knownHosts.get? h with
    | some address => addHosts hs (s.addHost h address)
    | none => { s with round := .raised }

/-- The start of a round, which suspends only if there is something to clean up. -/
def roundStart (s : State) : State :=
  if s.deletedRemoteHosts.isEmpty then addHosts s.newRemoteHosts s
  else { s with round := .cleaning s.deletedRemoteHosts .empty s.newRemoteHosts }

/-- A clean-up of the round begins. -/
def cleanupBegin (s : State) (h : Host) (scheduled : List Host) (waiting : Dict Host ℕ)
    (newRemoteHosts : List Host) : State :=
  match s.beginCleanup h with
  | (s, some c) =>
    { s with round := .cleaning (scheduled.erase h) (waiting.set h c) newRemoteHosts }
  | (s, none) => { s with round := .cleaning (scheduled.erase h) waiting newRemoteHosts }

/-- A clean-up of the round ends; its exception goes through `gather` into the round. -/
def cleanupDone (s : State) (h : Host) (scheduled : List Host) (waiting : Dict Host ℕ)
    (newRemoteHosts : List Host) : State :=
  match s.endCleanup h with
  | some s => { s with round := .cleaning scheduled (waiting.erase h) newRemoteHosts }
  | none => { s with round := .raised }

def exec (localHostname : String) (s : State) (e : Event) : Option State :=
  match e with
  | .notify p => if s.heartbeat.isSome then none else some (s.notify localHostname p)
  | .offlineDone =>
    match s.heartbeat with
    | none => none
    | some (h, c) =>
      -- the handler catches every exception
      if s.isDone c then some { (s.endCleanup h).getD s with heartbeat := none } else none
  | .established c =>
    match s.connections.get? c with
    | none => none
    | some x =>
      if x.done || x.cancelled then none
      else some { s with connections := s.connections.set c { x with connected := true } }
  | .lost c =>
    match s.connections.get? c with
    | none => none
    | some x =>
      if x.done then none
      else some { s with
        connections := s.connections.set c { x with connected := false, done := true } }
  | .roundStart =>
    match s.round with
    | .sleeping => some (roundStart s)
    | .cleaning _ _ _ | .raised => none
  | .cleanupBegin h =>
    match s.round with
    | .cleaning scheduled waiting new =>
      if h ∈ scheduled then some (cleanupBegin s h scheduled waiting new) else none
    | .sleeping | .raised => none
  | .cleanupDone h =>
    match s.round with
    | .cleaning scheduled waiting new =>
      match waiting.get? h with
      | some c => if s.isDone c then some (cleanupDone s h scheduled waiting new) else none
      | none => none
    | .sleeping | .raised => none
  | .addHosts =>
    match s.round with
    | .cleaning [] waiting new =>
      if waiting.keys.isEmpty then some (addHosts new s) else none
    | .cleaning (_ :: _) _ _ | .sleeping | .raised => none

def initial : State := ⟨.empty, .empty, .empty, 0, .empty, none, .sleeping⟩

def relay (localHostname : String) : System State Event where
  init s := s = initial
  step s e s' := exec localHostname s e = some s'

end Forail.WsRelay
