import Forail.Base.Json
import Forail.Base.MapM
import Mathlib.Data.List.Dedup
import Mathlib.Data.List.Sort
import Mathlib.Data.String.Basic

/-! `compute_drift`: the items for the facts that differ, in the order of their keys. An item carries
the two values, and a value whose text is long is cut off and read again, which raises. -/

namespace Forail.Drift

inductive Category
  | packages | services | usersGroups | network | mounts | kernel | other
  deriving DecidableEq

inductive Severity
  | low | medium | high | critical
  deriving DecidableEq

inductive DiffType
  | added | removed | changed
  deriving DecidableEq

/-- What the type is when the two sides change places. -/
def DiffType.swap : DiffType → DiffType
  | .added => .removed
  | .removed => .added
  | .changed => .changed

/-- A dictionary of facts, as JSON has them. -/
structure Facts where
  dict : Dict String Value
  wellFormed : ∀ key v, dict.get? key = some v → v.WellFormed

/-- What a fact is, none where it is missing. -/
def Facts.get (facts : Facts) (key : String) : Value := facts.dict.getD key .null

structure DriftItem where
  factPath : String
  category : Category
  severity : Severity
  summary : String
  before : Value
  after : Value
  diffType : DiffType

/-! ### Classes of facts -/

def categoryMap : List (String × Category × Severity) :=
  [("ansible_pkg_mgr", .packages, .medium), ("ansible_packages", .packages, .medium),
    ("ansible_apparmor", .kernel, .medium), ("ansible_selinux", .kernel, .high),
    ("ansible_services", .services, .medium), ("ansible_service_mgr", .services, .low),
    ("ansible_user_dir", .usersGroups, .high), ("ansible_user_id", .usersGroups, .high),
    ("ansible_user_uid", .usersGroups, .high), ("ansible_user_gid", .usersGroups, .high),
    ("ansible_user_gecos", .usersGroups, .medium), ("ansible_user_shell", .usersGroups, .high),
    ("ansible_all_ipv4_addresses", .network, .high),
    ("ansible_all_ipv6_addresses", .network, .high), ("ansible_default_ipv4", .network, .high),
    ("ansible_default_ipv6", .network, .medium), ("ansible_interfaces", .network, .medium),
    ("ansible_dns", .network, .medium), ("ansible_domain", .network, .medium),
    ("ansible_fqdn", .network, .medium), ("ansible_hostname", .network, .low),
    ("ansible_mounts", .mounts, .medium), ("ansible_devices", .mounts, .low),
    ("ansible_kernel", .kernel, .critical), ("ansible_kernel_version", .kernel, .critical),
    ("ansible_cmdline", .kernel, .high), ("ansible_sysctl", .kernel, .high),
    ("ansible_architecture", .kernel, .low), ("ansible_bios_date", .other, .low),
    ("ansible_bios_version", .other, .low), ("ansible_date_time", .other, .low),
    ("ansible_distribution", .other, .low), ("ansible_distribution_version", .other, .medium),
    ("ansible_os_family", .other, .low), ("ansible_product_name", .other, .low),
    ("ansible_python", .other, .low), ("ansible_processor", .other, .low),
    ("ansible_memtotal_mb", .other, .low), ("ansible_swaptotal_mb", .other, .low),
    ("ansible_uptime_seconds", .other, .low)]

/-- The fallback: the first line one of whose words is in the key. -/
def patterns : List (List String × Category × Severity) :=
  [(["package", "pip", "gem"], .packages, .medium),
    (["service", "systemd"], .services, .medium),
    (["user", "group", "passwd"], .usersGroups, .high),
    (["ip", "network", "port", "tcp", "udp"], .network, .high),
    (["mount", "disk", "fs", "lvm"], .mounts, .medium),
    (["kernel", "sysctl", "selinux"], .kernel, .high)]

def classifyFact (lower : String → String) (key : String) : Category × Severity :=
  match categoryMap.lookup key with
  | some classes => classes
  | none =>
    match patterns.find? fun p => p.1.any fun word => word.toList <:+: (lower key).toList with
    | some p => p.2
    | none => (.other, .low)

/-! ### Items -/

def diffType (oldVal newVal : Value) : DiffType :=
  match oldVal, newVal with
  | .null, _ => .added
  | _, .null => .removed
  | _, _ => .changed

section Summary
variable (quote : String → String)

/-- The members of the first list whose texts are not in the second, each text once. -/
def missing (vs ws : List Value) : List String :=
  ((vs.map fun v => v.smartStr quote).dedup).filter (· ∉ ws.map fun w => w.smartStr quote)

/-- The parts of a summary, if it has any. -/
def joined (key : String) (parts : List String) (suffix : String) : String :=
  if parts.isEmpty then key ++ ": changed" else key ++ ": " ++ String.intercalate ", " parts ++ suffix

def counted (sign : String) (n : ℕ) (unit : String) : List String :=
  if n = 0 then [] else [sign ++ toString n ++ unit]

def changedKeys (es fs : List (String × Value)) : List String :=
  (es.map Prod.fst).filter fun key =>
    match es.lookup key, fs.lookup key with
    | some v, some w => !v.eq w
    | _, _ => false

def summarizeChange (key : String) (oldVal newVal : Value) (diffKind : DiffType) : String :=
  match diffKind with
  | .added => key ++ ": added"
  | .removed => key ++ ": removed"
  | .changed =>
    match oldVal, newVal with
    | .list vs, .list ws =>
      joined key (counted "+" (missing quote ws vs).length "" ++
        counted "-" (missing quote vs ws).length "") " items"
    | .dict es, .dict fs =>
      joined key (counted "+" ((fs.map Prod.fst).filter (· ∉ es.map Prod.fst)).length " keys" ++
        counted "-" ((es.map Prod.fst).filter (· ∉ fs.map Prod.fst)).length " keys" ++
        counted "~" (changedKeys es fs).length " keys") ""
    | v, w => key ++ ": " ++ v.repr quote ++ " -> " ++ w.repr quote

end Summary

/-- What takes the place of the rest of a long text. -/
def ellipsis : Str := "...\"truncated\"\x7d".toList

/-- `_truncate`, none where it raises: the text that was cut off is read again. -/
def truncate (readFloat : Str → Value) (val : Value) : Option Value :=
  if 2000 < (Json.dumps val).length then
    Json.loads readFloat ((Json.dumps val).take 1980 ++ ellipsis)
  else some val

/-- Volatile keys. -/
def skipKeys : List String :=
  ["ansible_date_time", "ansible_uptime_seconds", "ansible_local", "module_setup", "gather_subset",
    "ansible_fibre_channel_wwn"]

def sortedKeys (oldFacts newFacts : Facts) : List String :=
  (oldFacts.dict.keys ++ newFacts.dict.keys).dedup.mergeSort (· ≤ ·)

/-- The key is compared, and its values differ. -/
def differs (oldFacts newFacts : Facts) (key : String) : Bool :=
  key ∉ skipKeys && !(oldFacts.get key).eq (newFacts.get key)

section Compute
variable (lower quote : String → String) (readFloat : Str → Value)

def driftItem (oldFacts newFacts : Facts) (key : String) : Option DriftItem := do
  let oldVal := oldFacts.get key
  let newVal := newFacts.get key
  let before ← truncate readFloat oldVal
  let after ← truncate readFloat newVal
  some {
    factPath := key
    category := (classifyFact lower key).1
    severity := (classifyFact lower key).2
    summary := summarizeChange quote key oldVal newVal (diffType oldVal newVal)
    before := before
    after := after
    diffType := diffType oldVal newVal }

/-- `compute_drift`, none where it raises. -/
def computeDrift (oldFacts newFacts : Facts) : Option (List DriftItem) :=
  ((sortedKeys oldFacts newFacts).filter (differs oldFacts newFacts)).mapM
    (driftItem lower quote readFloat oldFacts newFacts)

end Compute

/-! ### Exactness -/

/-- The items are those of the keys that differ, in order, each of the type that its two sides say. -/
structure Exact (oldFacts newFacts : Facts) (items : List DriftItem) : Prop where
  ordered : (items.map DriftItem.factPath).Pairwise (· < ·)
  keys : ∀ key, key ∈ items.map DriftItem.factPath ↔
    key ∉ skipKeys ∧ (oldFacts.get key).eq (newFacts.get key) = false
  added : ∀ item ∈ items, item.diffType = .added ↔ oldFacts.get item.factPath = .null
  removed : ∀ item ∈ items, item.diffType = .removed ↔ newFacts.get item.factPath = .null

/-- The comparison ends with exact items, and so does the one the other way, with the same keys and
additions for removals. -/
def Compares (lower quote : String → String) (readFloat : Str → Value) (oldFacts newFacts : Facts) :
    Prop :=
  ∃ items, computeDrift lower quote readFloat oldFacts newFacts = some items ∧
    Exact oldFacts newFacts items ∧
    ∃ items', computeDrift lower quote readFloat newFacts oldFacts = some items' ∧
      items'.map (fun item => (item.factPath, item.diffType)) =
        items.map fun item => (item.factPath, item.diffType.swap)

/-- The values that differ have texts of at most 2000 characters. -/
def Short (oldFacts newFacts : Facts) : Prop :=
  ∀ key, differs oldFacts newFacts key = true →
    (Json.dumps (oldFacts.get key)).length ≤ 2000 ∧ (Json.dumps (newFacts.get key)).length ≤ 2000

/-- No text that is cut off is read again. -/
theorem truncate_isSome (readFloat : Str → Value) {val : Value} :
    (∃ v, truncate readFloat val = some v) ↔ (Json.dumps val).length ≤ 2000 := by
  unfold truncate
  split_ifs with hlong
  · have hcut : ellipsis = Json.cut 't' "runcated\"\x7d".toList := by decide
    rw [hcut, Json.loads_cut (by decide)]
    exact iff_of_false (fun ⟨v, hv⟩ => by cases hv) (Nat.not_le.mpr hlong)
  · exact iff_of_true ⟨val, rfl⟩ (Nat.not_lt.mp hlong)

section Facts
variable {oldFacts newFacts : Facts}

theorem Facts.get_wellFormed (facts : Facts) (key : String) : (facts.get key).WellFormed := by
  unfold Facts.get Dict.getD
  cases hv : facts.dict.get? key with
  | none => trivial
  | some v => exact facts.wellFormed key v hv

theorem Facts.get_of_not_mem (facts : Facts) {key : String} (h : key ∉ facts.dict.keys) :
    facts.get key = .null := by
  rw [Facts.get, Dict.getD, Dict.get?_eq_none_of_not_mem _ h]
  rfl

theorem differs_iff {key : String} : differs oldFacts newFacts key = true ↔
    key ∉ skipKeys ∧ (oldFacts.get key).eq (newFacts.get key) = false := by
  rw [differs, Bool.and_eq_true, decide_eq_true_iff, Bool.not_eq_true']

theorem differs_comm (key : String) : differs oldFacts newFacts key = differs newFacts oldFacts key := by
  rw [differs, differs, Value.eq_comm_of (oldFacts.get_wellFormed key) (newFacts.get_wellFormed key)]

theorem mem_sortedKeys {key : String} :
    key ∈ sortedKeys oldFacts newFacts ↔ key ∈ oldFacts.dict.keys ∨ key ∈ newFacts.dict.keys := by
  rw [sortedKeys, List.mem_mergeSort, List.mem_dedup, List.mem_append]

theorem sortedKeys_sorted : (sortedKeys oldFacts newFacts).Pairwise (· < ·) := by
  have hle : (sortedKeys oldFacts newFacts).Pairwise (· ≤ ·) := by
    have hsorted : (sortedKeys oldFacts newFacts).Pairwise fun a b => decide (a ≤ b) = true :=
      List.pairwise_mergeSort
        (fun a b c hab hbc => decide_eq_true ((of_decide_eq_true hab).trans (of_decide_eq_true hbc)))
        (fun a b => by simpa using le_total a b) (oldFacts.dict.keys ++ newFacts.dict.keys).dedup
    exact hsorted.imp of_decide_eq_true
  have hnodup : (sortedKeys oldFacts newFacts).Nodup :=
    (List.mergeSort_perm _ _).nodup_iff.mpr (List.nodup_dedup _)
  exact (hle.and hnodup).imp fun h => lt_of_le_of_ne h.1 h.2

/-- A key that differs is a key of one side. -/
theorem mem_of_differs {key : String} (h : differs oldFacts newFacts key = true) :
    key ∈ sortedKeys oldFacts newFacts := by
  by_contra hmem
  rw [mem_sortedKeys, not_or] at hmem
  have hne := (differs_iff.mp h).2
  rw [oldFacts.get_of_not_mem hmem.1, newFacts.get_of_not_mem hmem.2] at hne
  cases hne

variable {lower quote : String → String} {readFloat : Str → Value}

theorem driftItem_isSome {key : String} :
    (∃ item, driftItem lower quote readFloat oldFacts newFacts key = some item) ↔
      (Json.dumps (oldFacts.get key)).length ≤ 2000 ∧
        (Json.dumps (newFacts.get key)).length ≤ 2000 := by
  rw [← truncate_isSome readFloat, ← truncate_isSome readFloat]
  constructor
  · rintro ⟨item, hitem⟩
    obtain ⟨before, hbefore, hitem⟩ := Option.bind_eq_some_iff.mp hitem
    obtain ⟨after, hafter, -⟩ := Option.bind_eq_some_iff.mp hitem
    exact ⟨⟨before, hbefore⟩, after, hafter⟩
  · rintro ⟨⟨before, hbefore⟩, after, hafter⟩
    unfold driftItem
    dsimp only
    rw [hbefore, hafter]
    exact ⟨_, rfl⟩

theorem driftItem_eq {key : String} {item : DriftItem}
    (h : driftItem lower quote readFloat oldFacts newFacts key = some item) :
    item.factPath = key ∧ item.diffType = diffType (oldFacts.get key) (newFacts.get key) := by
  obtain ⟨before, -, h⟩ := Option.bind_eq_some_iff.mp h
  obtain ⟨after, -, h⟩ := Option.bind_eq_some_iff.mp h
  cases h
  exact ⟨rfl, rfl⟩

/-- The comparison returns if and only if no text is cut off. -/
theorem computeDrift_isSome :
    (∃ items, computeDrift lower quote readFloat oldFacts newFacts = some items) ↔
      Short oldFacts newFacts := by
  rw [computeDrift, exists_mapM_iff]
  constructor
  · intro h key hkey
    exact driftItem_isSome.mp (h key (List.mem_filter.mpr ⟨mem_of_differs hkey, hkey⟩))
  · intro h key hkey
    exact driftItem_isSome.mpr (h key (List.mem_filter.mp hkey).2)

/-- The paths and types of the items. -/
theorem computeDrift_items {items : List DriftItem}
    (h : computeDrift lower quote readFloat oldFacts newFacts = some items) :
    items.map (fun item => (item.factPath, item.diffType)) =
      ((sortedKeys oldFacts newFacts).filter (differs oldFacts newFacts)).map fun key =>
        (key, diffType (oldFacts.get key) (newFacts.get key)) := by
  have hitems := mapM_eq_some.mp h
  clear h
  generalize (sortedKeys oldFacts newFacts).filter (differs oldFacts newFacts) = keys at hitems ⊢
  induction hitems with
  | nil => rfl
  | cons hitem _ ih =>
    obtain ⟨hpath, htype⟩ := driftItem_eq hitem
    rw [List.map_cons, List.map_cons, ih, hpath, htype]

theorem diffType_eq_added {v w : Value} : diffType v w = .added ↔ v = .null := by
  cases v <;> cases w <;> simp [diffType]

theorem diffType_eq_removed {v w : Value} (hne : v.eq w = false) :
    diffType v w = .removed ↔ w = .null := by
  cases v <;> cases w <;> first | cases hne; done | simp [diffType]

theorem diffType_swap {v w : Value} (hne : v.eq w = false) :
    diffType w v = (diffType v w).swap := by
  cases v <;> cases w <;> first | cases hne; done | rfl

theorem exact_of_computeDrift {items : List DriftItem}
    (h : computeDrift lower quote readFloat oldFacts newFacts = some items) :
    Exact oldFacts newFacts items := by
  have hitems := computeDrift_items h
  have hpaths : items.map DriftItem.factPath =
      (sortedKeys oldFacts newFacts).filter (differs oldFacts newFacts) := by
    have hfst := congrArg (List.map Prod.fst) hitems
    rw [List.map_map, List.map_map] at hfst
    exact hfst.trans (List.map_id _)
  have htype : ∀ item ∈ items, (oldFacts.get item.factPath).eq (newFacts.get item.factPath) = false ∧
      item.diffType = diffType (oldFacts.get item.factPath) (newFacts.get item.factPath) := by
    intro item hitem
    have hmem := List.mem_map_of_mem (f := fun item => (item.factPath, item.diffType)) hitem
    rw [hitems] at hmem
    obtain ⟨key, hkey, heq⟩ := List.mem_map.mp hmem
    obtain ⟨rfl, htype⟩ := Prod.mk.inj heq
    exact ⟨(differs_iff.mp (List.mem_filter.mp hkey).2).2, htype.symm⟩
  refine ⟨?_, fun key => ?_, fun item hitem => ?_, fun item hitem => ?_⟩
  · rw [hpaths]
    exact sortedKeys_sorted.filter _
  · rw [hpaths, List.mem_filter, ← differs_iff]
    exact and_iff_right_of_imp mem_of_differs
  · rw [(htype item hitem).2, diffType_eq_added]
  · rw [(htype item hitem).2, diffType_eq_removed (htype item hitem).1]

theorem sortedKeys_filter_comm :
    (sortedKeys newFacts oldFacts).filter (differs newFacts oldFacts) =
      (sortedKeys oldFacts newFacts).filter (differs oldFacts newFacts) := by
  have hdiffers : differs newFacts oldFacts = differs oldFacts newFacts :=
    funext fun key => differs_comm key
  have hkeys : sortedKeys newFacts oldFacts = sortedKeys oldFacts newFacts := by
    refine List.Pairwise.eq_of_mem_iff (r := (· < ·)) sortedKeys_sorted sortedKeys_sorted fun key => ?_
    rw [mem_sortedKeys, mem_sortedKeys, or_comm]
  rw [hdiffers, hkeys]

end Facts

/-- The comparison is total and exact for just those facts whose values that differ are short. -/
theorem compares_iff_short (lower quote : String → String) (readFloat : Str → Value)
    (oldFacts newFacts : Facts) :
    Compares lower quote readFloat oldFacts newFacts ↔ Short oldFacts newFacts := by
  constructor
  · rintro ⟨items, hitems, -⟩
    exact computeDrift_isSome.mp ⟨items, hitems⟩
  · intro hshort
    have hshort' : Short newFacts oldFacts := by
      intro key hkey
      rw [differs_comm] at hkey
      exact (hshort key hkey).symm
    obtain ⟨items, hitems⟩ := computeDrift_isSome.mpr hshort
    obtain ⟨items', hitems'⟩ := computeDrift_isSome.mpr hshort'
    refine ⟨items, hitems, exact_of_computeDrift hitems, items', hitems', ?_⟩
    have hswap := congrArg (List.map fun p : String × DiffType => (p.1, p.2.swap))
      (computeDrift_items hitems)
    rw [List.map_map, List.map_map] at hswap
    rw [computeDrift_items hitems', sortedKeys_filter_comm]
    refine Eq.trans (List.map_congr_left fun key hkey => ?_) hswap.symm
    have hne := (differs_iff.mp (List.mem_filter.mp hkey).2).2
    exact congrArg (Prod.mk key) (diffType_swap hne)

/-! A fact of 2000 characters is new, so its text has 2002. -/

def noFacts : Facts := ⟨.empty, by simp⟩

def longFacts : Facts where
  dict := Dict.empty.set "ansible_motd" (.str (String.ofList (List.replicate 2000 'a')))
  wellFormed := Dict.forall_get?_set (by simp) trivial

theorem longFacts_get :
    longFacts.get "ansible_motd" = .str (String.ofList (List.replicate 2000 'a')) := by
  rw [Facts.get, longFacts, Dict.getD_set, if_pos rfl]

theorem long_fact_raises :
    computeDrift id (fun s => "'" ++ s ++ "'") (fun _ => .null) noFacts longFacts = none ∧
      ¬ Compares id (fun s => "'" ++ s ++ "'") (fun _ => .null) noFacts longFacts := by
  have hlong : ¬ Short noFacts longFacts := by
    intro hshort
    have hdiffers : differs noFacts longFacts "ansible_motd" = true := by
      rw [differs_iff, longFacts_get]
      exact ⟨by decide, rfl⟩
    have hlength := (hshort _ hdiffers).2
    have hescape : ∀ n, (List.replicate n 'a').flatMap Json.escape = List.replicate n 'a' := by
      intro n
      induction n with
      | zero => rfl
      | succ n ih =>
        rw [List.replicate_succ, List.flatMap_cons, ih]
        rfl
    rw [longFacts_get, Json.dumps, Json.dumpsString, String.toList_ofList, hescape, List.cons_append,
      List.length_cons, List.length_append, List.length_replicate, List.length_singleton] at hlength
    omega
  constructor
  · rw [Option.eq_none_iff_forall_ne_some]
    exact fun items hitems => hlong (computeDrift_isSome.mp ⟨items, hitems⟩)
  · rintro ⟨items, hitems, -⟩
    exact hlong (computeDrift_isSome.mp ⟨items, hitems⟩)

end Forail.Drift
