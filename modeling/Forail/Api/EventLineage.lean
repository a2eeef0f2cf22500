import Forail.Base.Dict
import Forail.Base.Preorder
import Mathlib.Data.List.Perm.Subperm
import Mathlib.Data.List.Sort

/-! The summary of the children of the events of a job, from which the output page lays out its
rows. One pass over the events in the order of their counters keeps the event that is open on
each of four levels, and gives up when an event has a parent that is not open. -/

namespace Forail.JobEvents

/-! ### `BasePlaybookEvent` -/

inductive EventType
  | runnerOnFailed | runnerOnStart | runnerOnOk | runnerOnError | runnerOnSkipped
  | runnerOnUnreachable | runnerOnNoHosts | runnerOnAsyncPoll | runnerOnAsyncOk
  | runnerOnAsyncFailed | runnerItemOnOk | runnerItemOnFailed | runnerItemOnSkipped | runnerRetry
  | runnerOnFileDiff
  | playbookOnStart | playbookOnNotify | playbookOnInclude | playbookOnNoHostsMatched
  | playbookOnNoHostsRemaining | playbookOnTaskStart | playbookOnVarsPrompt | playbookOnSetup
  | playbookOnImportForHost | playbookOnNotImportForHost | playbookOnPlayStart | playbookOnStats
  | debug | verbose | deprecated | warning | systemWarning | error
  deriving DecidableEq

/-- `LEVEL_FOR_EVENT`. -/
def EventType.level : EventType → ℕ
  | runnerOnFailed | runnerOnStart | runnerOnOk | runnerOnError | runnerOnSkipped
  | runnerOnUnreachable | runnerOnNoHosts | runnerOnAsyncPoll | runnerOnAsyncOk
  | runnerOnAsyncFailed | runnerItemOnOk | runnerItemOnFailed | runnerItemOnSkipped | runnerRetry
  | runnerOnFileDiff => 3
  | playbookOnNotify | playbookOnInclude | playbookOnNoHostsMatched | playbookOnNoHostsRemaining
  | playbookOnTaskStart | playbookOnSetup | playbookOnImportForHost
  | playbookOnNotImportForHost => 2
  | playbookOnVarsPrompt | playbookOnPlayStart | playbookOnStats => 1
  | playbookOnStart | debug | verbose | deprecated | warning | systemWarning | error => 0

/-- `meta_events`. -/
def EventType.isMeta : EventType → Bool
  | debug | verbose | warning | error | systemWarning | deprecated => true
  | _ => false

structure JobEvent where
  counter : ℕ
  uuid : String
  parentUuid : String
  event : EventType
  deriving DecidableEq

abbrev JobEvent.isMeta (e : JobEvent) : Bool := e.event.isMeta

abbrev JobEvent.level (e : JobEvent) : ℕ := e.event.level

/-! ### `JobJobEventsChildrenSummary.get` -/

structure Tally where
  rowNumber : ℕ
  numChildren : ℕ
  deriving DecidableEq

structure Response where
  childrenSummary : Dict ℕ Tally
  metaEventNestedUuid : Dict ℕ String
  eventProcessingFinished : Bool
  isTree : Bool

/-- A `KeyError`, or the fuel of a loop is used up. -/
inductive Stop
  | keyError
  | fuel
  deriving DecidableEq

/-- The quick look-ups by uuid. -/
structure Maps where
  uuidCounter : Dict String ℕ
  uuidPuuid : Dict String String

def maps (events : List JobEvent) : Maps where
  uuidCounter := Dict.ofList (events.map fun e => (e.uuid, e.counter))
  uuidPuuid := Dict.ofList (events.map fun e => (e.uuid, e.parentUuid))

/-- What the loop over the events carries. -/
structure Progress where
  prevNonMetaEvent : JobEvent
  levelCurrentUuid : List (Option String)
  metaCounterNestedUuid : Dict ℕ String
  counterChildrenTally : Dict ℕ Tally

/-- An event becomes the one that is open on its level, and closes the levels below. -/
def openLevel (levels : List (Option String)) (e : JobEvent) : List (Option String) :=
  levels.mapIdx fun u uuid =>
    if u = e.level then some e.uuid else if e.level < u then none else uuid

/-- The parent of a meta event between two others. -/
def nestedUuid (before after : JobEvent) : String :=
  if before.level < after.level then after.parentUuid else before.parentUuid

/-- `while puuid`: one more child for the event with this uuid and for those above it. -/
def tallyUp (m : Maps) : ℕ → Dict ℕ Tally → String → Except Stop (Dict ℕ Tally)
  | 0, tally, puuid => if puuid = "" then .ok tally else .error .fuel
  | fuel + 1, tally, puuid =>
    if puuid = "" then .ok tally
    else match m.uuidCounter.get? puuid with
      | none => .error .keyError
      | some c =>
        tallyUp m fuel (tally.modify c fun t => { t with numChildren := t.numChildren + 1 })
          (m.uuidPuuid.getD puuid "")

/-- The body of the loop, with what follows the event; no result when the tree is improper. -/
def processEvent (m : Maps) (fuel : ℕ) (last : JobEvent) (i : ℕ) (e : JobEvent)
    (rest : List JobEvent) (p : Progress) : Except Stop (Option Progress) :=
  let prev := if e.isMeta then p.prevNonMetaEvent else e
  if e.uuid = "" then .ok (some { p with prevNonMetaEvent := prev })
  else
    let levels := if e.isMeta then p.levelCurrentUuid else openLevel p.levelCurrentUuid e
    if e.parentUuid ≠ "" ∧ some e.parentUuid ∉ levels then .ok none
    else
      let next := ((e :: rest).find? fun x => !x.isMeta).getD last
      let puuid := if e.isMeta then nestedUuid prev next else e.parentUuid
      let nested := if e.isMeta = true ∧ puuid ≠ "" then p.metaCounterNestedUuid.set e.counter puuid
        else p.metaCounterNestedUuid
      let tally := p.counterChildrenTally.modify e.counter fun t => { t with rowNumber := i }
      match tallyUp m fuel tally puuid with
      | .error stop => .error stop
      | .ok tally => .ok (some ⟨prev, levels, nested, tally⟩)

def processEvents (m : Maps) (fuel : ℕ) (last : JobEvent) :
    ℕ → List JobEvent → Progress → Except Stop (Option Progress)
  | _, [], p => .ok (some p)
  | i, e :: rest, p =>
    match processEvent m fuel last i e rest p with
    | .error stop => .error stop
    | .ok none => .ok none
    | .ok (some p) => processEvents m fuel last (i + 1) rest p

/-- `order_by('counter')`. -/
def orderByCounter (events : List JobEvent) : List JobEvent :=
  events.insertionSort fun e e' => e.counter ≤ e'.counter

def start (first : JobEvent) (events : List JobEvent) : Progress where
  prevNonMetaEvent := first
  levelCurrentUuid := [none, none, none, none]
  metaCounterNestedUuid := .empty
  counterChildrenTally := Dict.ofList (events.map fun e => (e.counter, ⟨0, 0⟩))

/-- The summary of events in the order of their counters. -/
def summarize (fuel : ℕ) : List JobEvent → Except Stop Response
  | [] => .ok ⟨.empty, .empty, true, true⟩
  | first :: rest =>
    let events := first :: rest
    match processEvents (maps events) fuel (events.getLastD first) 0 events (start first events) with
    | .error stop => .error stop
    | .ok none => .ok ⟨.empty, .empty, true, false⟩
    | .ok (some p) =>
      -- only the events with children
      .ok ⟨p.counterChildrenTally.filterValues fun t => t.numChildren ≠ 0,
        p.metaCounterNestedUuid, true, true⟩

theorem summarize_cons (fuel : ℕ) (first : JobEvent) (rest : List JobEvent) :
    summarize fuel (first :: rest) =
      match processEvents (maps (first :: rest)) fuel ((first :: rest).getLastD first) 0 (first :: rest)
        (start first (first :: rest)) with
      | .error stop => .error stop
      | .ok none => .ok ⟨.empty, .empty, true, false⟩
      | .ok (some p) => .ok ⟨p.counterChildrenTally.filterValues fun t => t.numChildren ≠ 0,
          p.metaCounterNestedUuid, true, true⟩ := rfl

def get (fuel : ℕ) (eventProcessingFinished : Bool) (events : List JobEvent) :
    Except Stop Response :=
  if eventProcessingFinished then summarize fuel (orderByCounter events)
  else .ok ⟨.empty, .empty, false, true⟩

end Forail.JobEvents

/-! Who is above an event: the walk along the parent uuids, the events that are open when an
event comes, and the uuid that the walk for an event starts from. -/

namespace Forail.JobEvents

/-- Events of one job: the counters differ, the uuids differ and are not empty, and no event is
its own parent. -/
structure WellFormed (es : List JobEvent) : Prop where
  counters : (es.map JobEvent.counter).Nodup
  uuids : (es.map JobEvent.uuid).Nodup
  named : ∀ e ∈ es, e.uuid ≠ ""
  irreflexive : ∀ e ∈ es, e.parentUuid ≠ e.uuid

variable {es : List JobEvent}

theorem WellFormed.nodup (h : WellFormed es) : es.Nodup := h.counters.of_map

theorem WellFormed.eq_of_uuid (h : WellFormed es) {a b : JobEvent} (ha : a ∈ es) (hb : b ∈ es)
    (hu : a.uuid = b.uuid) : a = b :=
  List.inj_on_of_nodup_map h.uuids ha hb hu

theorem WellFormed.eq_of_counter (h : WellFormed es) {a b : JobEvent} (ha : a ∈ es) (hb : b ∈ es)
    (hc : a.counter = b.counter) : a = b :=
  List.inj_on_of_nodup_map h.counters ha hb hc

/-! ### The walk along the parents -/

/-- From the event with a uuid, along the parent uuids, up to an empty one. -/
inductive Lineage (es : List JobEvent) : String → List JobEvent → Prop
  | root : Lineage es "" []
  | up {a : JobEvent} {as : List JobEvent} :
    a ∈ es → Lineage es a.parentUuid as → Lineage es a.uuid (a :: as)

namespace Lineage

theorem subset {u : String} {as : List JobEvent} (h : Lineage es u as) : ∀ a ∈ as, a ∈ es := by
  induction h with
  | root => exact fun a ha => absurd ha List.not_mem_nil
  | up hmem _ ih =>
    intro b hb
    rcases List.mem_cons.mp hb with rfl | hb
    · exact hmem
    · exact ih b hb

theorem unique (hw : WellFormed es) {u : String} {as bs : List JobEvent} (h : Lineage es u as)
    (h' : Lineage es u bs) : as = bs := by
  induction h generalizing bs with
  | root =>
    generalize hu : "" = u at h'
    cases h' with
    | root => rfl
    | up hb _ => exact absurd hu.symm (hw.named _ hb)
  | @up a as ha _ ih =>
    generalize hu : a.uuid = u at h'
    cases h' with
    | root => exact absurd hu (hw.named a ha)
    | @up b bs hb h' =>
      have hab := hw.eq_of_uuid ha hb hu
      subst hab
      rw [ih h']

/-- From an event in it, the walk goes on in the same way. -/
theorem of_mem {u : String} {as : List JobEvent} (h : Lineage es u as) {a : JobEvent}
    (ha : a ∈ as) : ∃ bs cs, as = bs ++ a :: cs ∧ Lineage es a.parentUuid cs := by
  induction h with
  | root => cases ha
  | @up b as _ h ih =>
    rcases List.mem_cons.mp ha with rfl | ha
    · exact ⟨[], as, rfl, h⟩
    · obtain ⟨bs, cs, rfl, hcs⟩ := ih ha
      exact ⟨b :: bs, cs, rfl, hcs⟩

theorem nodup (hw : WellFormed es) {u : String} {as : List JobEvent} (h : Lineage es u as) :
    as.Nodup := by
  induction h with
  | root => exact List.nodup_nil
  | @up a as ha h ih =>
    refine List.nodup_cons.mpr ⟨fun hmem => ?_, ih⟩
    -- a second visit would make the rest of the walk a proper part of itself
    obtain ⟨bs, cs, has, hcs⟩ := h.of_mem hmem
    have hlen := congrArg List.length (hcs.unique hw h)
    rw [has, List.length_append, List.length_cons] at hlen
    omega

theorem length_le (hw : WellFormed es) {u : String} {as : List JobEvent} (h : Lineage es u as) :
    as.length ≤ es.length :=
  (List.subperm_of_subset (h.nodup hw) h.subset).length_le

end Lineage

/-! ### The walk of the code -/

/-- One more child for an event. -/
def addChild (tally : Dict ℕ Tally) (a : JobEvent) : Dict ℕ Tally :=
  tally.modify a.counter fun t => { t with numChildren := t.numChildren + 1 }

theorem WellFormed.get?_uuidCounter (hw : WellFormed es) {a : JobEvent} (ha : a ∈ es) :
    (maps es).uuidCounter.get? a.uuid = some a.counter := by
  refine Dict.get?_foldl_set_of_mem ?_
    (List.mem_map_of_mem (f := fun e : JobEvent => (e.uuid, e.counter)) ha) _
  rw [List.map_map]
  exact hw.uuids

theorem WellFormed.getD_uuidPuuid (hw : WellFormed es) {a : JobEvent} (ha : a ∈ es) :
    (maps es).uuidPuuid.getD a.uuid "" = a.parentUuid := by
  have hget : (maps es).uuidPuuid.get? a.uuid = some a.parentUuid := by
    refine Dict.get?_foldl_set_of_mem ?_
      (List.mem_map_of_mem (f := fun e : JobEvent => (e.uuid, e.parentUuid)) ha) _
    rw [List.map_map]
    exact hw.uuids
  rw [Dict.getD, hget, Option.getD_some]

theorem get?_uuidCounter_eq_none {u : String} (hu : ∀ a ∈ es, a.uuid ≠ u) :
    (maps es).uuidCounter.get? u = none := by
  refine (Dict.get?_foldl_set_of_not_mem ?_ _).trans (Dict.get?_empty u)
  rw [List.map_map]
  intro hmem
  obtain ⟨a, ha, hau⟩ := List.mem_map.mp hmem
  exact hu a ha hau

theorem tallyUp_of_lineage (hw : WellFormed es) {u : String} {as : List JobEvent}
    (h : Lineage es u as) {fuel : ℕ} (hf : as.length ≤ fuel) (tally : Dict ℕ Tally) :
    tallyUp (maps es) fuel tally u = .ok (as.foldl addChild tally) := by
  induction h generalizing fuel tally with
  | root => cases fuel <;> rfl
  | @up a as ha _ ih =>
    cases fuel with
    | zero => exact absurd hf (Nat.not_succ_le_zero _)
    | succ fuel =>
      rw [tallyUp, if_neg (hw.named a ha), hw.get?_uuidCounter ha, hw.getD_uuidPuuid ha]
      exact ih (Nat.le_of_succ_le_succ hf) (addChild tally a)

theorem lineage_of_tallyUp (hw : WellFormed es) {fuel : ℕ} {u : String} {tally tally' : Dict ℕ Tally}
    (h : tallyUp (maps es) fuel tally u = .ok tally') :
    ∃ as, Lineage es u as ∧ tally' = as.foldl addChild tally := by
  induction fuel generalizing u tally with
  | zero =>
    rw [tallyUp] at h
    split_ifs at h with hu
    cases h
    exact ⟨[], hu ▸ .root, rfl⟩
  | succ fuel ih =>
    rw [tallyUp] at h
    split_ifs at h with hu
    · cases h
      exact ⟨[], hu ▸ .root, rfl⟩
    · by_cases hex : ∃ a ∈ es, a.uuid = u
      · obtain ⟨a, ha, rfl⟩ := hex
        rw [hw.get?_uuidCounter ha, hw.getD_uuidPuuid ha] at h
        obtain ⟨as, has, ht⟩ := ih h
        exact ⟨a :: as, .up ha has, ht⟩
      · rw [get?_uuidCounter_eq_none fun a ha hau => hex ⟨a, ha, hau⟩] at h
        cases h

/-- Each event of the walk has one child more, the others have as many as before. -/
theorem get?_foldl_addChild (hw : WellFormed es) {as : List JobEvent} (hsub : ∀ a ∈ as, a ∈ es)
    (hnd : as.Nodup) {a : JobEvent} (ha : a ∈ es) {tally : Dict ℕ Tally} {t : Tally}
    (ht : tally.get? a.counter = some t) :
    (as.foldl addChild tally).get? a.counter =
      some ⟨t.rowNumber, t.numChildren + if a ∈ as then 1 else 0⟩ := by
  induction as generalizing tally t with
  | nil => exact ht
  | cons b as ih =>
    obtain ⟨hb, hnd'⟩ := List.nodup_cons.mp hnd
    have hsub' : ∀ c ∈ as, c ∈ es := fun c hc => hsub c (List.mem_cons_of_mem _ hc)
    rw [List.foldl_cons]
    by_cases hab : a = b
    · subst hab
      have hget : (addChild tally a).get? a.counter = some ⟨t.rowNumber, t.numChildren + 1⟩ := by
        rw [addChild, Dict.get?_modify, if_pos rfl, ht]
        rfl
      rw [ih hsub' hnd' hget, if_neg hb, if_pos List.mem_cons_self]
    · have hget : (addChild tally b).get? a.counter = some t := by
        rw [addChild, Dict.get?_modify, if_neg, ht]
        exact fun hc => hab (hw.eq_of_counter ha (hsub b List.mem_cons_self) hc)
      rw [ih hsub' hnd' hget]
      simp only [List.mem_cons, hab, false_or]

end Forail.JobEvents
