import Forail.Base.Runs
import Forail.Base.Value

/-! The settings of the database are read through two caches, one in the memory of each process and one that the processes
of a node share. Calls take their steps in any order, and the shared cache may fail; how old can a value be that a
process reads? Times are in microseconds. -/

namespace Forail.SettingsWrapper

def seconds (n : ℕ) : ℕ := n * 1000000

def settingMemoryTtl : ℕ := seconds 5

def settingCacheTimeout : ℕ := seconds 60

/-- The mark of a setting that is not set, and of none. -/
def settingCacheNotset : String := "___notset___"

def settingCacheEmptyList : String := "___[]___"

def settingCacheEmptyDict : String := "___\x7b\x7d___"

def getCacheValue : Value → Value
  | .null => .str settingCacheNotset
  | .list [] => .str settingCacheEmptyList
  | .dict [] => .str settingCacheEmptyDict
  | value => value

/-- What the cache gets of a setting. -/
def cached (value : Option Value) : Value := (value.map getCacheValue).getD (.str settingCacheNotset)

/-- The value that the cache has for a setting, if it is set. -/
def ofCacheValue : Value → Option Value
  | .str s =>
    if s = settingCacheNotset then none
    else if s = settingCacheEmptyList then some (.list [])
    else if s = settingCacheEmptyDict then some (.dict [])
    else some (.str s)
  | value => some value

abbrev Database := Dict String Value

/-- The registered settings: those that are loaded into the cache, those whose field is read-only, defaults, what becomes of
a value by the validation of its field, and the values of the settings files. -/
structure Registry where
  writeable : List String
  readOnly : String → Bool
  getDefault : String → Option Value
  runValidation : String → Value → Option Value
  ofFile : String → Option Value
  dependents : String → List String

namespace Registry
variable (R : Registry)

/-- `_get_setting_from_db`. -/
def getFromDb (db : Database) (key : String) : Option Value :=
  if R.readOnly key = false ∨ key = "INSTALL_UUID" then db.get? key else none

/-- The value of a setting without the cache; none counts as not set. -/
def read (db : Database) (key : String) : Option Value :=
  ((R.getFromDb db key).or (R.getDefault key)).filter fun value => (ofCacheValue (getCacheValue value)).isSome

/-- What the cache gets of a setting when all are loaded. -/
def preload (db : Database) (key : String) : Value :=
  if (ofCacheValue (cached (db.get? key))).isSome then cached (db.get? key) else cached (R.getDefault key)

end Registry

/-- A value in the cache of a node, with the time when it was read from the database, for a record. -/
structure Entry where
  value : Value
  readAt : ℕ
  expires : ℕ

/-- A result in the memory of a process; none for a setting that is not set. -/
structure Memo where
  value : Option Value
  readAt : ℕ
  expires : ℕ

structure Node where
  cache : Dict String Entry
  preloadExpires : ℕ

structure Process where
  memoizedcache : Dict String Memo
  preloadExpires : ℕ

/-- How far a call of `_get_local_with_cache` is. -/
inductive Phase
  | preload
  | marker
  | loading
  | storing (rest : List (String × Value)) (readAt : ℕ)
  | looking
  | fetching (notset : Bool)
  | caching (value : Option Value) (readAt : ℕ)
  | memoizing (value : Option Value) (readAt : ℕ)

structure Call where
  process : ℕ
  key : String
  since : ℕ
  phase : Phase

/-- What `__getattr__` returned. -/
structure Returned where
  process : ℕ
  key : String
  value : Option Value
  readAt : ℕ
  time : ℕ

/-- All of the nodes and processes, with the database, also as it was at earlier times, and all that was returned. -/
structure State where
  now : ℕ
  db : Database
  history : List (ℕ × Database)
  nodes : ℕ → Node
  processes : ℕ → Process
  calls : List Call
  returned : List Returned

/-- Besides the steps of calls, what a change consists of: its transaction commits, its process tells the caches within reach,
and every node is told to clear its cache, in any order, late or not at all. -/
inductive Event
  | wait (time : ℕ)
  | commit (key : String) (value : Option Value)
  | handleSettingChange (process : ℕ) (key : String) (ok : Bool)
  | clearSettingCache (node : ℕ) (keys : List String) (ok : Bool)
  | getattr (process : ℕ) (key : String)
  | run (call : ℕ) (ok : Bool)

namespace State
variable (s : State)

def setNode (n : ℕ) (node : Node) : State := { s with nodes := Function.update s.nodes n node }

def setProcess (p : ℕ) (process : Process) : State := { s with processes := Function.update s.processes p process }

/-- `cache.get`; a failure counts as nothing found. -/
def lookup (n : ℕ) (ok : Bool) (key : String) : Option Entry :=
  if ok then ((s.nodes n).cache.get? key).filter (s.now < ·.expires) else none

/-- `cache.set`; a failure is ignored. -/
def store (n : ℕ) (ok : Bool) (key : String) (value : Value) (readAt : ℕ) : State :=
  if ok then
    s.setNode n { s.nodes n with cache := (s.nodes n).cache.set key ⟨value, readAt, s.now + settingCacheTimeout⟩ }
  else s

/-- `cache.delete_many`. -/
def deleteMany (n : ℕ) (ok : Bool) (keys : List String) : State :=
  if ok then s.setNode n { s.nodes n with cache := (s.nodes n).cache.filter (· ∉ keys) } else s

def remembered (p : ℕ) (key : String) : Option Memo :=
  ((s.processes p).memoizedcache.get? key).filter (s.now < ·.expires)

def remember (p : ℕ) (key : String) (value : Option Value) (readAt : ℕ) : State :=
  s.setProcess p { s.processes p with
    memoizedcache := (s.processes p).memoizedcache.set key ⟨value, readAt, s.now + settingMemoryTtl⟩ }

/-- A setting that is not set has the value of the settings files. -/
def giveBack (R : Registry) (p : ℕ) (key : String) (value : Option Value) (readAt : ℕ) : State :=
  { s with returned := s.returned ++ [⟨p, key, value.or (R.ofFile key), readAt, s.now⟩] }

end State

section Step
variable (R : Registry) (nodeOf : ℕ → ℕ)

/-- One step of a call, and how far it is then; none when it has returned. -/
def stepCall (s : State) (c : Call) (ok : Bool) : State × Option Phase :=
  match c.phase with
  | .preload =>
    if s.now < (s.processes c.process).preloadExpires then (s, some .looking)
    else
      (s.setProcess c.process { s.processes c.process with preloadExpires := s.now + settingCacheTimeout }, some .marker)
  | .marker => (s, some (if ok ∧ s.now < (s.nodes (nodeOf c.process)).preloadExpires then .looking else .loading))
  | .loading => (s, some (.storing (R.writeable.map fun key => (key, R.preload s.db key)) s.now))
  | .storing ((key, value) :: rest) readAt =>
    (s.store (nodeOf c.process) ok key value readAt, some (.storing rest readAt))
  | .storing [] _ =>
    (if ok then s.setNode (nodeOf c.process)
        { s.nodes (nodeOf c.process) with preloadExpires := s.now + settingCacheTimeout }
      else s, some .looking)
  | .looking =>
    match s.lookup (nodeOf c.process) ok c.key with
    | none => (s, some (.fetching false))
    | some entry =>
      match ofCacheValue entry.value with
      | none => (s, some (.fetching true))
      | some value => (s, some (.memoizing (R.runValidation c.key value) entry.readAt))
  | .fetching notset =>
    match R.read s.db c.key with
    | none => (s, some (if notset then .memoizing none s.now else .caching none s.now))
    | some value => (s, some (.caching (some value) s.now))
  | .caching value readAt =>
    (s.store (nodeOf c.process) ok c.key (cached value) readAt,
      some (.memoizing (value.bind (R.runValidation c.key)) readAt))
  | .memoizing value readAt =>
    -- `setdefault`: another call of the process may have been faster.
    match s.remembered c.process c.key with
    | some memo => (s.giveBack R c.process c.key memo.value memo.readAt, none)
    | none => ((s.remember c.process c.key value readAt).giveBack R c.process c.key value readAt, none)

def exec (s : State) : Event → Option State
  | .wait time => some { s with now := s.now + time, history := s.history ++ [(s.now + time, s.db)] }
  | .commit key value =>
    let db := (value.map (s.db.set key)).getD (s.db.erase key)
    some { s with db := db, history := s.history ++ [(s.now, db)] }
  | .handleSettingChange p key ok =>
    let s := s.deleteMany (nodeOf p) ok (key :: R.dependents key)
    some (s.setProcess p { s.processes p with memoizedcache := .empty })
  | .clearSettingCache n keys ok => some (s.deleteMany n ok (keys ++ keys.flatMap R.dependents))
  | .getattr p key =>
    match s.remembered p key with
    | some memo => some (s.giveBack R p key memo.value memo.readAt)
    | none => some { s with calls := s.calls ++ [⟨p, key, s.now, .preload⟩] }
  | .run i ok => do
    let c ← s.calls[i]?
    match stepCall R nodeOf s c ok with
    | (s, some phase) => some { s with calls := s.calls.set i { c with phase := phase } }
    | (s, none) => some { s with calls := s.calls.eraseIdx i }

/-- The nodes begin with empty caches. -/
def system : System State Event where
  init s := s.history = [(s.now, s.db)] ∧ (∀ n, (s.nodes n).cache = .empty) ∧
    (∀ p, (s.processes p).memoizedcache = .empty) ∧ s.calls = [] ∧ s.returned = []
  step s e s' := exec R nodeOf s e = some s'

end Step

/-! ### What is passed on from a reading of the database -/

/-- What the cache holds of a setting after a reading. -/
def Registry.Holds (R : Registry) (db : Database) (key : String) (value : Value) : Prop :=
  value = cached (R.read db key) ∨ key ∈ R.writeable ∧ value = R.preload db key

/-- What a call makes of a setting after a reading, by itself or through the cache. -/
def Registry.Gives (R : Registry) (db : Database) (key : String) (value : Option Value) : Prop :=
  value = (R.read db key).bind (R.runValidation key) ∨
    ∃ held, R.Holds db key held ∧ value = (ofCacheValue held).bind (R.runValidation key)

/-- The database was read at the time, and this holds of what was there. -/
def Seen (history : List (ℕ × Database)) (readAt : ℕ) (P : Database → Prop) : Prop := ∃ db, (readAt, db) ∈ history ∧ P db

/-- What is to hold of the times of readings: of entries of the cache and of memories with their expiry, of what a call
has read itself or has found, with its beginning, and of what is returned and when. -/
structure Ages where
  entry : ℕ → String → ℕ → ℕ → Prop
  memo : ℕ → String → ℕ → ℕ → Prop
  taken : ℕ → ℕ → String → ℕ → Prop
  found : ℕ → ℕ → String → ℕ → Prop
  back : ℕ → String → ℕ → ℕ → Prop

/-- It passes from a reading to all that comes of it, from a time on and for calls that are in time. -/
structure Ages.Closed (A : Ages) (nodeOf : ℕ → ℕ) (start : ℕ) (inTime : ℕ → ℕ → Prop) : Prop where
  read : ∀ p key {since now}, since ≤ now → start ≤ now → A.taken since p key now
  store : ∀ p key {since now readAt}, inTime since now → A.taken since p key readAt →
    A.entry (nodeOf p) key readAt (now + settingCacheTimeout)
  keep : ∀ p key {since readAt}, A.taken since p key readAt → A.found since p key readAt
  look : ∀ p key {since now readAt expires}, since ≤ now → A.entry (nodeOf p) key readAt expires → now < expires →
    A.found since p key readAt
  remember : ∀ p key {since now readAt}, inTime since now → A.found since p key readAt →
    A.memo p key readAt (now + settingMemoryTtl)
  reuse : ∀ p key {now readAt expires}, start ≤ now → A.memo p key readAt expires → now < expires → A.back p key readAt now

/-- What is to hold of a call in a phase. -/
def Phase.Sound (R : Registry) (A : Ages) (history : List (ℕ × Database)) (p : ℕ) (key : String) (since : ℕ) : Phase → Prop
  | .preload | .marker | .loading | .looking | .fetching _ => True
  | .storing rest readAt => ∀ kv ∈ rest, A.taken since p kv.1 readAt ∧ Seen history readAt fun db => R.Holds db kv.1 kv.2
  | .caching value readAt => A.taken since p key readAt ∧ Seen history readAt fun db => value = R.read db key
  | .memoizing value readAt => A.found since p key readAt ∧ Seen history readAt fun db => R.Gives db key value

structure Inv (R : Registry) (A : Ages) (start : ℕ) (s : State) : Prop where
  start : start ≤ s.now
  last : (s.now, s.db) ∈ s.history
  past : ∀ h ∈ s.history, h.1 ≤ s.now
  entries : ∀ n key e, (s.nodes n).cache.get? key = some e →
    A.entry n key e.readAt e.expires ∧ Seen s.history e.readAt fun db => R.Holds db key e.value
  memos : ∀ p key m, (s.processes p).memoizedcache.get? key = some m →
    (A.memo p key m.readAt m.expires ∧ m.expires ≤ s.now + settingMemoryTtl) ∧
      Seen s.history m.readAt fun db => R.Gives db key m.value
  calls : ∀ c ∈ s.calls, c.since ≤ s.now ∧ c.phase.Sound R A s.history c.process c.key c.since
  returned : ∀ r ∈ s.returned, (A.back r.process r.key r.readAt r.time ∧ r.readAt ≤ r.time ∧ r.time ≤ s.now) ∧
    Seen s.history r.readAt fun db => ∃ value, R.Gives db r.key value ∧ r.value = value.or (R.ofFile r.key)

theorem State.store_frame (s : State) (n : ℕ) (ok : Bool) (key : String) (value : Value) (readAt : ℕ) :
    (s.store n ok key value readAt).calls = s.calls ∧ (s.store n ok key value readAt).now = s.now ∧
      (s.store n ok key value readAt).history = s.history := by
  cases ok <;> exact ⟨rfl, rfl, rfl⟩

/-- A step of a call takes no time and leaves the other calls alone. -/
theorem stepCall_frame (R : Registry) (nodeOf : ℕ → ℕ) (s : State) (c : Call) (ok : Bool) : (stepCall R nodeOf s c ok).1.calls = s.calls ∧
    (stepCall R nodeOf s c ok).1.now = s.now ∧ (stepCall R nodeOf s c ok).1.history = s.history := by
  obtain ⟨p, key, since, phase⟩ := c
  rw [stepCall.eq_def]
  cases phase with
  | preload =>
    dsimp only
    split_ifs <;> exact ⟨rfl, rfl, rfl⟩
  | storing rest readAt =>
    cases rest with
    | nil => cases ok <;> exact ⟨rfl, rfl, rfl⟩
    | cons kv rest => exact s.store_frame _ ok _ _ _
  | looking =>
    dsimp only
    cases s.lookup (nodeOf p) ok key with
    | none => exact ⟨rfl, rfl, rfl⟩
    | some entry =>
      dsimp only
      cases ofCacheValue entry.value <;> exact ⟨rfl, rfl, rfl⟩
  | fetching notset =>
    dsimp only
    cases R.read s.db key <;> exact ⟨rfl, rfl, rfl⟩
  | caching value readAt => exact s.store_frame _ ok _ _ _
  | memoizing value readAt =>
    dsimp only
    cases s.remembered p key <;> exact ⟨rfl, rfl, rfl⟩
  | _ => exact ⟨rfl, rfl, rfl⟩

section Inv
variable {R : Registry} {A : Ages} {nodeOf : ℕ → ℕ} {start : ℕ} {s : State} {history history' : List (ℕ × Database)}

theorem State.nodes_setNode (s : State) (n n' : ℕ) (node : Node) :
    (s.setNode n node).nodes n' = if n' = n then node else s.nodes n' := Function.update_apply s.nodes n node n'

theorem State.processes_setProcess (s : State) (p p' : ℕ) (process : Process) :
    (s.setProcess p process).processes p' = if p' = p then process else s.processes p' :=
  Function.update_apply s.processes p process p'

theorem Seen.append {readAt : ℕ} {P : Database → Prop} (h : Seen history readAt P) (history' : List (ℕ × Database)) :
    Seen (history ++ history') readAt P := by
  obtain ⟨db, hmem, hP⟩ := h
  exact ⟨db, List.mem_append_left _ hmem, hP⟩

theorem Phase.Sound.append {phase : Phase} {p since : ℕ} {key : String} (h : phase.Sound R A history p key since)
    (history' : List (ℕ × Database)) : phase.Sound R A (history ++ history') p key since := by
  cases phase with
  | storing rest readAt => exact fun kv hkv => ⟨(h kv hkv).1, (h kv hkv).2.append _⟩
  | caching value readAt => exact ⟨h.1, h.2.append _⟩
  | memoizing value readAt => exact ⟨h.1, h.2.append _⟩
  | _ => exact trivial

/-- Time passes, or the database changes. -/
theorem Inv.record (h : Inv R A start s) {now : ℕ} (hnow : s.now ≤ now) (db : Database) :
    Inv R A start { s with now := now, db := db, history := s.history ++ [(now, db)] } := by
  refine ⟨h.start.trans hnow, List.mem_append_right _ List.mem_cons_self, fun x hx => ?_, fun n key e he => ?_,
    fun p key m hm => ?_, fun c hc => ?_, fun r hr => ?_⟩
  · rcases List.mem_append.mp hx with hx | hx
    · exact (h.past x hx).trans hnow
    · rw [List.mem_singleton.mp hx]
  · exact ⟨(h.entries n key e he).1, (h.entries n key e he).2.append _⟩
  · obtain ⟨⟨hmemo, hle⟩, hseen⟩ := h.memos p key m hm
    exact ⟨⟨hmemo, hle.trans (Nat.add_le_add_right hnow _)⟩, hseen.append _⟩
  · exact ⟨(h.calls c hc).1.trans hnow, (h.calls c hc).2.append _⟩
  · obtain ⟨⟨hback, hread, hle⟩, hseen⟩ := h.returned r hr
    exact ⟨⟨hback, hread, hle.trans hnow⟩, hseen.append _⟩

theorem Inv.setNode (h : Inv R A start s) {n : ℕ} {node : Node} (hnode : ∀ key e, node.cache.get? key = some e →
    A.entry n key e.readAt e.expires ∧ Seen s.history e.readAt fun db => R.Holds db key e.value) :
    Inv R A start (s.setNode n node) := by
  refine ⟨h.start, h.last, h.past, fun n' key e he => ?_, h.memos, h.calls, h.returned⟩
  rw [State.nodes_setNode] at he
  split_ifs at he with hn
  · exact hn ▸ hnode key e he
  · exact h.entries n' key e he

theorem Inv.setProcess (h : Inv R A start s) {p : ℕ} {process : Process}
    (hprocess : ∀ key m, process.memoizedcache.get? key = some m →
      (A.memo p key m.readAt m.expires ∧ m.expires ≤ s.now + settingMemoryTtl) ∧
        Seen s.history m.readAt fun db => R.Gives db key m.value) :
    Inv R A start (s.setProcess p process) := by
  refine ⟨h.start, h.last, h.past, h.entries, fun p' key m hm => ?_, h.calls, h.returned⟩
  rw [State.processes_setProcess] at hm
  split_ifs at hm with hp
  · exact hp ▸ hprocess key m hm
  · exact h.memos p' key m hm

theorem Inv.store (h : Inv R A start s) {n readAt : ℕ} {key : String} {value : Value}
    (hentry : A.entry n key readAt (s.now + settingCacheTimeout)) (hseen : Seen s.history readAt fun db => R.Holds db key value)
    (ok : Bool) : Inv R A start (s.store n ok key value readAt) := by
  cases ok with
  | false => exact h
  | true =>
    refine h.setNode fun key' e he => ?_
    rcases Dict.of_get?_set he with ⟨rfl, rfl⟩ | ⟨-, he⟩
    · exact ⟨hentry, hseen⟩
    · exact h.entries n key' e he

theorem Inv.deleteMany (h : Inv R A start s) (n : ℕ) (ok : Bool) (keys : List String) :
    Inv R A start (s.deleteMany n ok keys) := by
  cases ok with
  | false => exact h
  | true =>
    refine h.setNode fun key e he => h.entries n key e ?_
    rw [Dict.get?_filter] at he
    exact (Option.ite_none_right_eq_some.mp he).2

theorem Inv.remember (h : Inv R A start s) {p readAt : ℕ} {key : String} {value : Option Value}
    (hmemo : A.memo p key readAt (s.now + settingMemoryTtl)) (hseen : Seen s.history readAt fun db => R.Gives db key value) :
    Inv R A start (s.remember p key value readAt) := by
  refine h.setProcess fun key' m hm => ?_
  rcases Dict.of_get?_set hm with ⟨rfl, rfl⟩ | ⟨-, hm⟩
  · exact ⟨⟨hmemo, le_refl _⟩, hseen⟩
  · exact h.memos p key' m hm

theorem Inv.giveBack (h : Inv R A start s) {p readAt : ℕ} {key : String} {value : Option Value}
    (hback : A.back p key readAt s.now) (hseen : Seen s.history readAt fun db => R.Gives db key value) :
    Inv R A start (s.giveBack R p key value readAt) := by
  refine ⟨h.start, h.last, h.past, h.entries, h.memos, h.calls, fun r hr => ?_⟩
  rcases List.mem_append.mp hr with hr | hr
  · exact h.returned r hr
  · obtain ⟨db, hmem, hgives⟩ := hseen
    rw [List.mem_singleton.mp hr]
    exact ⟨⟨hback, h.past _ hmem, le_refl _⟩, db, hmem, value, hgives, rfl⟩

theorem Inv.setCalls (h : Inv R A start s) {calls : List Call}
    (hcalls : ∀ c ∈ calls, c ∈ s.calls ∨ c.since ≤ s.now ∧ c.phase.Sound R A s.history c.process c.key c.since) :
    Inv R A start { s with calls := calls } := by
  refine ⟨h.start, h.last, h.past, h.entries, h.memos, fun c hc => ?_, h.returned⟩
  rcases hcalls c hc with hold | hnew
  · exact h.calls c hold
  · exact hnew

theorem Inv.remembered (h : Inv R A start s) {inTime : ℕ → ℕ → Prop} (hA : A.Closed nodeOf start inTime) {p : ℕ} {key : String}
    {m : Memo} (hm : s.remembered p key = some m) :
    A.back p key m.readAt s.now ∧ Seen s.history m.readAt fun db => R.Gives db key m.value := by
  obtain ⟨hget, hexpires⟩ := Option.filter_eq_some_iff.mp hm
  obtain ⟨⟨hmemo, -⟩, hseen⟩ := h.memos p key m hget
  exact ⟨hA.reuse p key h.start hmemo (of_decide_eq_true hexpires), hseen⟩

theorem Inv.lookup (h : Inv R A start s) {inTime : ℕ → ℕ → Prop} (hA : A.Closed nodeOf start inTime) {p since : ℕ} {key : String}
    (hsince : since ≤ s.now) {ok : Bool} {entry : Entry} (hlook : s.lookup (nodeOf p) ok key = some entry) :
    A.found since p key entry.readAt ∧ Seen s.history entry.readAt fun db => R.Holds db key entry.value := by
  obtain ⟨-, hlook⟩ := Option.ite_none_right_eq_some.mp hlook
  obtain ⟨hget, hexpires⟩ := Option.filter_eq_some_iff.mp hlook
  obtain ⟨hentry, hseen⟩ := h.entries _ key entry hget
  exact ⟨hA.look p key hsince hentry (of_decide_eq_true hexpires), hseen⟩

theorem sound_some {phase : Phase} {p since : ℕ} {key : String} (h : phase.Sound R A history p key since) :
    ∀ phase', some phase = some phase' → phase'.Sound R A history p key since := by
  intro phase' heq
  rw [← Option.some.inj heq]
  exact h

/-- One step of a call. -/
theorem Inv.stepCall (h : Inv R A start s) {inTime : ℕ → ℕ → Prop} (hA : A.Closed nodeOf start inTime) {c : Call}
    (hc : c ∈ s.calls) (htime : inTime c.since s.now) (ok : Bool) :
    Inv R A start (stepCall R nodeOf s c ok).1 ∧ ∀ phase, (SettingsWrapper.stepCall R nodeOf s c ok).2 = some phase →
      phase.Sound R A s.history c.process c.key c.since := by
  obtain ⟨hsince, hsound⟩ := h.calls c hc
  obtain ⟨p, key, since, phase⟩ := c
  rw [stepCall.eq_def]
  cases phase with
  | preload =>
    dsimp only
    split_ifs
    · exact ⟨h, sound_some trivial⟩
    · exact ⟨h.setProcess (h.memos p), sound_some trivial⟩
  | marker =>
    refine ⟨h, sound_some ?_⟩
    split_ifs <;> exact trivial
  | loading =>
    refine ⟨h, sound_some fun kv hkv => ?_⟩
    obtain ⟨key', hkey', rfl⟩ := List.mem_map.mp hkv
    exact ⟨hA.read p key' hsince h.start, s.db, h.last, .inr ⟨hkey', rfl⟩⟩
  | storing rest readAt =>
    cases rest with
    | nil =>
      refine ⟨?_, sound_some trivial⟩
      cases ok with
      | false => exact h
      | true => exact h.setNode (h.entries (nodeOf p))
    | cons kv rest =>
      obtain ⟨htaken, hseen⟩ := hsound kv List.mem_cons_self
      exact ⟨h.store (hA.store p kv.1 htime htaken) hseen ok,
        sound_some fun kv' hkv' => hsound kv' (List.mem_cons_of_mem _ hkv')⟩
  | looking =>
    dsimp only
    cases hlook : s.lookup (nodeOf p) ok key with
    | none => exact ⟨h, sound_some trivial⟩
    | some entry =>
      dsimp only
      obtain ⟨hfound, db, hmem, hholds⟩ := h.lookup hA hsince hlook
      cases hvalue : ofCacheValue entry.value with
      | none => exact ⟨h, sound_some trivial⟩
      | some value => exact ⟨h, sound_some ⟨hfound, db, hmem, .inr ⟨_, hholds, by rw [hvalue]; rfl⟩⟩⟩
  | fetching notset =>
    have htaken : A.taken since p key s.now := hA.read p key hsince h.start
    dsimp only
    cases hread : R.read s.db key with
    | none =>
      refine ⟨h, sound_some ?_⟩
      split_ifs
      · exact ⟨hA.keep p key htaken, s.db, h.last, .inl (by rw [hread]; rfl)⟩
      · exact ⟨htaken, s.db, h.last, hread.symm⟩
    | some value => exact ⟨h, sound_some ⟨htaken, s.db, h.last, hread.symm⟩⟩
  | caching value readAt =>
    obtain ⟨htaken, db, hmem, hread⟩ := hsound
    exact ⟨h.store (hA.store p key htime htaken) ⟨db, hmem, .inl (by rw [hread])⟩ ok,
      sound_some ⟨hA.keep p key htaken, db, hmem, .inl (by rw [hread])⟩⟩
  | memoizing value readAt =>
    dsimp only
    -- The memory of the process comes first, whichever call has stored it there.
    cases hremembered : s.remembered p key with
    | some memo =>
      obtain ⟨hback, hseen⟩ := h.remembered hA hremembered
      exact ⟨h.giveBack hback hseen, fun phase hphase => by cases hphase⟩
    | none =>
      have hmemo : A.memo p key readAt (s.now + settingMemoryTtl) := hA.remember p key htime hsound.1
      have hback : A.back p key readAt s.now :=
        hA.reuse p key h.start hmemo (Nat.lt_add_of_pos_right (by decide))
      exact ⟨(h.remember hmemo hsound.2).giveBack hback hsound.2, fun phase hphase => by cases hphase⟩

theorem Inv.exec (h : Inv R A start s) {inTime : ℕ → ℕ → Prop} (hA : A.Closed nodeOf start inTime) {e : Event} {s' : State}
    (htime : ∀ i ok c, e = .run i ok → s.calls[i]? = some c → inTime c.since s.now)
    (hstep : exec R nodeOf s e = some s') : Inv R A start s' := by
  cases e with
  | wait time =>
    cases hstep
    exact h.record (Nat.le_add_right _ _) s.db
  | commit key value =>
    cases hstep
    exact h.record (le_refl _) _
  | handleSettingChange p key ok =>
    cases hstep
    refine (h.deleteMany _ ok _).setProcess fun key' m hm => ?_
    cases hm
  | clearSettingCache n keys ok =>
    cases hstep
    exact h.deleteMany n ok _
  | getattr p key =>
    rw [SettingsWrapper.exec] at hstep
    cases hremembered : s.remembered p key with
    | some memo =>
      rw [hremembered] at hstep
      cases hstep
      obtain ⟨hback, hseen⟩ := h.remembered hA hremembered
      exact h.giveBack hback hseen
    | none =>
      rw [hremembered] at hstep
      cases hstep
      refine h.setCalls fun c hc => ?_
      rcases List.mem_append.mp hc with hc | hc
      · exact .inl hc
      · rw [List.mem_singleton.mp hc]
        exact .inr ⟨le_refl _, trivial⟩
  | run i ok =>
    obtain ⟨c, hc, hstep⟩ := Option.bind_eq_some_iff.mp hstep
    have hmem : c ∈ s.calls := List.mem_of_getElem? hc
    obtain ⟨hcalls, hnow, hhistory⟩ := stepCall_frame R nodeOf s c ok
    obtain ⟨hinv, hphase⟩ := h.stepCall hA hmem (htime i ok c rfl hc) ok
    rcases hresult : SettingsWrapper.stepCall R nodeOf s c ok with ⟨t, _ | phase⟩
    all_goals
      rw [hresult] at hstep hcalls hnow hhistory hinv hphase
      cases hstep
    · exact hinv.setCalls fun c' hc' => .inl (List.mem_of_mem_eraseIdx hc')
    · refine hinv.setCalls fun c' hc' => ?_
      rcases List.mem_or_eq_of_mem_set hc' with hc' | rfl
      · exact .inl hc'
      · refine .inr ⟨hnow ▸ (h.calls c hmem).1, ?_⟩
        rw [hhistory]
        exact hphase phase rfl

theorem Inv.steps (h : Inv R A start s) (hA : A.Closed nodeOf start fun _ _ => True) {s' : State}
    (hsteps : (system R nodeOf).Steps s s') : Inv R A start s' := by
  induction hsteps with
  | refl => exact h
  | tail _ hstep ih =>
    obtain ⟨e, hstep⟩ := hstep
    exact ih.exec hA (fun _ _ _ _ _ => trivial) hstep

theorem Inv.initial (nodeOf : ℕ → ℕ) (h : (system R nodeOf).init s) : Inv R A 0 s := by
  obtain ⟨hhistory, hnodes, hprocesses, hcalls, hreturned⟩ := h
  refine ⟨Nat.zero_le _, ?_, fun x hx => ?_, fun n key e he => ?_, fun p key m hm => ?_, fun c hc => ?_, fun r hr => ?_⟩
  · rw [hhistory]
    exact List.mem_cons_self
  · rw [hhistory] at hx
    rw [List.mem_singleton.mp hx]
  · rw [hnodes] at he
    cases he
  · rw [hprocesses] at hm
    cases hm
  · rw [hcalls] at hc
    cases hc
  · rw [hreturned] at hr
    cases hr

end Inv

/-! ### Settings that the cache can hold -/

/-- A value that the cache does not take for another one. -/
def Kept : Value → Prop
  | .null => False
  | .str s => s ≠ settingCacheNotset ∧ s ≠ settingCacheEmptyList ∧ s ≠ settingCacheEmptyDict
  | _ => True

instance Kept.decidable : DecidablePred Kept
  | .null => isFalse id
  | .str _ => inferInstanceAs (Decidable (_ ∧ _ ∧ _))
  | .bool _ | .int _ | .float _ _ | .list _ | .dict _ => isTrue trivial

theorem Kept.ofCacheValue {value : Value} (h : Kept value) : ofCacheValue (getCacheValue value) = some value := by
  cases value with
  | null => exact h.elim
  | str s =>
    obtain ⟨hnotset, hlist, hdict⟩ := h
    change SettingsWrapper.ofCacheValue (.str s) = some (.str s)
    rw [SettingsWrapper.ofCacheValue, if_neg hnotset, if_neg hlist, if_neg hdict]
  | list vs => cases vs <;> rfl
  | dict es => cases es <;> rfl
  | _ => rfl

/-- The field of the setting is read-only only if the setting is, and the cache can hold its default. -/
structure Registry.Regular (R : Registry) (key : String) : Prop where
  field : key ∈ R.writeable → R.readOnly key = false ∨ key = "INSTALL_UUID"
  default : ∀ value, R.getDefault key = some value → value = .null ∨ Kept value

/-- The value of a setting, as the database is. -/
def Registry.current (R : Registry) (db : Database) (key : String) : Option Value :=
  ((R.read db key).bind (R.runValidation key)).or (R.ofFile key)

section Regular
variable {R : Registry} {db : Database} {key : String}

theorem ofCacheValue_cached {value : Option Value} (h : ∀ v, value = some v → v = .null ∨ Kept v) :
    ofCacheValue (cached value) = value.filter fun v => (ofCacheValue (getCacheValue v)).isSome := by
  cases value with
  | none => rfl
  | some v =>
    rcases h v rfl with rfl | hkept
    · rfl
    · rw [Option.filter_some_pos (by rw [hkept.ofCacheValue]; rfl)]
      exact hkept.ofCacheValue

/-- Nothing is lost in the cache. -/
theorem Registry.Regular.ofCacheValue_read (h : R.Regular key) (hdb : ∀ value ∈ db.get? key, Kept value) :
    ofCacheValue (cached (R.read db key)) = R.read db key := by
  cases hread : R.read db key with
  | none => rfl
  | some value =>
    obtain ⟨hor, hset⟩ := Option.filter_eq_some_iff.mp hread
    rcases Option.or_eq_some_iff.mp hor with hrow | ⟨-, hdefault⟩
    · exact (hdb value (Option.ite_none_right_eq_some.mp hrow).2).ofCacheValue
    · rcases h.default value hdefault with rfl | hkept
      · cases hset
      · exact hkept.ofCacheValue

/-- A setting is loaded with the others as it is by itself. -/
theorem Registry.Regular.ofCacheValue_preload (h : R.Regular key) (hmem : key ∈ R.writeable)
    (hdb : ∀ value ∈ db.get? key, Kept value) : ofCacheValue (R.preload db key) = R.read db key := by
  rw [Registry.preload, Registry.read, Registry.getFromDb, if_pos (h.field hmem)]
  cases hrow : db.get? key with
  | none =>
    rw [if_neg (by exact Bool.false_ne_true), Option.none_or]
    exact ofCacheValue_cached h.default
  | some value =>
    have hkept : ofCacheValue (getCacheValue value) = some value := (hdb value hrow).ofCacheValue
    rw [if_pos (by rw [cached, Option.map_some, Option.getD_some, hkept]; rfl), Option.some_or,
      Option.filter_some_pos (by rw [hkept]; rfl)]
    exact hkept

theorem Registry.Regular.gives (h : R.Regular key) (hdb : ∀ value ∈ db.get? key, Kept value)
    {value : Option Value} (hgives : R.Gives db key value) : value = (R.read db key).bind (R.runValidation key) := by
  rcases hgives with hread | ⟨held, hheld | ⟨hmem, hheld⟩, hvalue⟩
  · exact hread
  · rw [hvalue, hheld, h.ofCacheValue_read hdb]
  · rw [hvalue, hheld, h.ofCacheValue_preload hmem hdb]

end Regular

/-! ### How old a value can be -/

section Ages
variable {R : Registry} {nodeOf : ℕ → ℕ} {s : State}

/-- No step of a call is later than this after its beginning. -/
def InTime (duration : ℕ) (s : State) : Event → Prop
  | .run i _ => ∀ c ∈ s.calls[i]?, s.now ≤ c.since + duration
  | _ => True

instance InTime.decidable (duration : ℕ) (s : State) : DecidablePred (InTime duration s)
  | .run _ _ => inferInstanceAs (Decidable (∀ _ ∈ _, _))
  | .wait _ | .commit _ _ | .handleSettingChange _ _ _ | .clearSettingCache _ _ _ | .getattr _ _ => isTrue trivial

def Ages.any : Ages := ⟨fun _ _ _ _ => True, fun _ _ _ _ => True, fun _ _ _ _ => True, fun _ _ _ _ => True, fun _ _ _ _ => True⟩

theorem Ages.closed_any : Ages.any.Closed nodeOf 0 fun _ _ => True := by
  constructor <;> intros <;> trivial

def Ages.bounded (duration : ℕ) : Ages where
  entry _ _ readAt expires := expires ≤ readAt + duration + settingCacheTimeout
  memo _ _ readAt expires := expires ≤ readAt + 2 * duration + settingCacheTimeout + settingMemoryTtl
  taken since _ _ readAt := since ≤ readAt
  found since _ _ readAt := since ≤ readAt + duration + settingCacheTimeout
  back _ _ readAt time := time < readAt + 2 * duration + settingCacheTimeout + settingMemoryTtl

theorem Ages.closed_bounded (duration : ℕ) :
    (Ages.bounded duration).Closed nodeOf 0 fun since now => now ≤ since + duration := by
  refine ⟨fun _ _ _ _ hsince _ => hsince, fun _ _ since now readAt htime htaken => ?_, fun _ _ since readAt htaken => ?_,
    fun _ _ since now readAt expires hsince hentry hlt => ?_, fun _ _ since now readAt htime hfound => ?_,
    fun _ _ now readAt expires _ hmemo hlt => ?_⟩
  · change now + settingCacheTimeout ≤ readAt + duration + settingCacheTimeout
    change since ≤ readAt at htaken
    omega
  · change since ≤ readAt + duration + settingCacheTimeout
    change since ≤ readAt at htaken
    omega
  · change since ≤ readAt + duration + settingCacheTimeout
    change expires ≤ readAt + duration + settingCacheTimeout at hentry
    omega
  · change now + settingMemoryTtl ≤ readAt + 2 * duration + settingCacheTimeout + settingMemoryTtl
    change since ≤ readAt + duration + settingCacheTimeout at hfound
    omega
  · exact lt_of_lt_of_le hlt hmemo

/-- One setting, which is not in a file. -/
def towerUrlBase : Registry :=
  ⟨["TOWER_URL_BASE"], fun _ => false, fun _ => some (.str "https://towerhost"), fun _ value => some value, fun _ => none,
    fun _ => []⟩

def unread : State := ⟨0, .empty, [(0, .empty)], fun _ => ⟨.empty, 0⟩, fun _ => ⟨.empty, 0⟩, [], []⟩

theorem init_unread : (system towerUrlBase fun _ => 0).init unread := ⟨rfl, fun _ => rfl, fun _ => rfl, rfl, rfl⟩

/-- A process has loaded the settings, and another one of the node reads its setting from the cache. -/
def readings : List Event :=
  .getattr 0 "TOWER_URL_BASE" :: List.replicate 7 (.run 0 true) ++ [.wait (seconds 1),
    .commit "TOWER_URL_BASE" (some (.str "https://forail")), .getattr 1 "TOWER_URL_BASE"] ++ List.replicate 4 (.run 0 true)

/-- What has been read of a setting since a time, but for memories that end in time. -/
def Ages.since (nodeOf : ℕ → ℕ) (n : ℕ) (key : String) (time start : ℕ) : Ages where
  entry n' key' readAt _ := n' = n → key' = key → time ≤ readAt
  memo p key' readAt expires := nodeOf p = n → key' = key → time ≤ readAt ∨ expires ≤ start + settingMemoryTtl
  taken _ p key' readAt := nodeOf p = n → key' = key → time ≤ readAt
  found _ p key' readAt := nodeOf p = n → key' = key → time ≤ readAt
  back p key' readAt now := nodeOf p = n → key' = key → start + settingMemoryTtl ≤ now → time ≤ readAt

theorem Ages.closed_since {n : ℕ} {key : String} {time start : ℕ} (h : time ≤ start) :
    (Ages.since nodeOf n key time start).Closed nodeOf start fun _ _ => True := by
  refine ⟨fun _ _ _ _ _ hstart _ _ => h.trans hstart, fun _ _ _ _ _ _ htaken => htaken, fun _ _ _ _ htaken => htaken,
    fun _ _ _ _ _ _ _ hentry _ hn => hentry hn, fun _ _ _ _ _ _ hfound hn hkey => .inl (hfound hn hkey),
    fun _ _ now readAt expires _ hmemo hlt hn hkey hnow => ?_⟩
  rcases hmemo hn hkey with htime | hexpires
  · exact htime
  · omega

/-- The call has values of the setting that it read before the time, and is about to pass them on. -/
def Call.HasOld (key : String) (time : ℕ) (c : Call) : Prop :=
  match c.phase with
  | .storing rest readAt => (∃ kv ∈ rest, kv.1 = key) ∧ readAt < time
  | .caching _ readAt | .memoizing _ readAt => c.key = key ∧ readAt < time
  | .preload | .marker | .loading | .looking | .fetching _ => False

theorem Inv.cleared {A : Ages} {start : ℕ} (h : Inv R A start s) {n : ℕ} {key : String} {time : ℕ}
    (hnode : (s.nodes n).cache.get? key = none) (hcalls : ∀ c ∈ s.calls, nodeOf c.process = n → ¬ c.HasOld key time) :
    Inv R (Ages.since nodeOf n key time s.now) s.now s := by
  refine ⟨le_refl _, h.last, h.past, fun n' key' e he => ⟨?_, (h.entries n' key' e he).2⟩,
    fun p key' m hm => ⟨⟨fun _ _ => .inr (h.memos p key' m hm).1.2, (h.memos p key' m hm).1.2⟩, (h.memos p key' m hm).2⟩,
    fun c hc => ⟨(h.calls c hc).1, ?_⟩, fun r hr => ⟨⟨fun _ _ hlate => ?_, (h.returned r hr).1.2⟩, (h.returned r hr).2⟩⟩
  · rintro rfl rfl
    rw [hnode] at he
    cases he
  · have hold : nodeOf c.process = n → ¬ c.HasOld key time := hcalls c hc
    have hsound : c.phase.Sound R A s.history c.process c.key c.since := (h.calls c hc).2
    obtain ⟨p, key', since, phase⟩ := c
    cases phase with
    | storing rest readAt =>
      exact fun kv hkv => ⟨fun hn hkey => le_of_not_gt fun hlt => hold hn ⟨⟨kv, hkv, hkey⟩, hlt⟩, (hsound kv hkv).2⟩
    | caching value readAt => exact ⟨fun hn hkey => le_of_not_gt fun hlt => hold hn ⟨hkey, hlt⟩, hsound.2⟩
    | memoizing value readAt => exact ⟨fun hn hkey => le_of_not_gt fun hlt => hold hn ⟨hkey, hlt⟩, hsound.2⟩
    | _ => exact trivial
  · have hle : r.time ≤ s.now := (h.returned r hr).1.2.2
    have hlt : 0 < settingMemoryTtl := by decide
    omega

end Ages

end Forail.SettingsWrapper
