import Forail.Api.EventPreorder
import Forail.Api.SummaryLoop

/-! What the summary says about the rows of the output page, and for which events it is right. -/

namespace Forail.JobEvents

open Classical in
/-- The number of events before this one by counter. -/
noncomputable def position (events : List JobEvent) (e : JobEvent) : ℕ :=
  events.countP fun x => x.counter < e.counter

namespace Response

variable (r : Response)

/-- The uuid of the parent: the nested uuid that was assigned, or else the event's own field. -/
def parentUuid (e : JobEvent) : String := (r.metaEventNestedUuid.get? e.counter).getD e.parentUuid

/-- An event that is absent has no children. -/
def numChildren (e : JobEvent) : ℕ :=
  ((r.childrenSummary.get? e.counter).map Tally.numChildren).getD 0

def IsParent (events : List JobEvent) (d a : JobEvent) : Prop :=
  a ∈ events ∧ r.parentUuid d = a.uuid

def Descendant (events : List JobEvent) (d a : JobEvent) : Prop :=
  Preorder.Below (r.IsParent events) d a

open Classical in
/-- The summary describes a tree in pre-order. -/
structure Describes (events : List JobEvent) : Prop where
  numChildren : ∀ a ∈ events,
    r.numChildren a = events.countP fun d => r.Descendant events d a
  rowNumber : ∀ a ∈ events, ∀ t, r.childrenSummary.get? a.counter = some t →
    t.rowNumber = position events a
  rows : ∀ a ∈ events, ∀ d ∈ events, r.Descendant events d a ↔
    position events a < position events d ∧
      position events d ≤ position events a + r.numChildren a

end Response

/-- The request is answered, and a summary that says that the events are a tree describes one. -/
def Summarizes (eventProcessingFinished : Bool) (events : List JobEvent) : Prop :=
  ∃ fuel r, get fuel eventProcessingFinished events = .ok r ∧
    (r.isTree = true → r.eventProcessingFinished = true → r.Describes events)

/-- What the code relies on. Where the level rises behind a meta event, the parents of the event
that follows lead up to one without a parent; and events that all fit are in pre-order, with every
meta event that has a parent counted under some event. -/
structure Sound (es : List JobEvent) : Prop where
  ends : ∀ e ∈ es, e.isMeta = true → (∀ x ∈ before es e ++ [e], Fits es x) →
    (prevNonMeta es e).level < (nextNonMeta es e).level →
    ∃ as, Lineage es (nextNonMeta es e).parentUuid as
  tree : (∀ e ∈ es, Fits es e) → Preordered es ∧ Counted es

/-! ### In the order of the counters -/

section Ordered

variable {es : List JobEvent} (hw : WellFormed es)
include hw

/-- The position by counter is the place in the list. -/
theorem position_eq_idxOf (hsorted : es.Pairwise fun e e' => e.counter ≤ e'.counter)
    {e : JobEvent} (he : e ∈ es) : position es e = es.idxOf e := by
  obtain ⟨pre, post, h⟩ := List.append_of_mem he
  rw [Preorder.idxOf_split hw.nodup h, position]
  have hpost : ∀ x ∈ e :: post, ¬ x.counter < e.counter := by
    intro x hx
    rw [h, List.pairwise_append] at hsorted
    rcases List.mem_cons.mp hx with rfl | hx
    · exact Nat.lt_irrefl _
    · exact Nat.not_lt.mpr ((List.pairwise_cons.mp hsorted.2.1).1 x hx)
  have hpre : ∀ x ∈ pre, x.counter < e.counter := by
    intro x hx
    have hmem : x ∈ es := by rw [h]; exact List.mem_append_left _ hx
    have hne : x.counter ≠ e.counter := fun hc =>
      not_mem_of_split hw.nodup h (hw.eq_of_counter hmem he hc ▸ hx)
    rw [h, List.pairwise_append] at hsorted
    have hle := hsorted.2.2 x hx e List.mem_cons_self
    omega
  rw [h, List.countP_append, List.countP_eq_length.mpr fun x hx => decide_eq_true (hpre x hx),
    List.countP_eq_zero.mpr fun x hx => by simpa using hpost x hx, Nat.add_zero]

/-- The walk for an event passes only events above it. -/
theorem Under.below (hfit : ∀ e ∈ es, Fits es e) {a d : JobEvent} (hd : d ∈ es)
    (h : Under es a d) : Preorder.Below (Parent es) d a := by
  obtain ⟨as, has, ha⟩ := h
  have hne : above es d ≠ "" := by
    intro hempty
    rw [hempty] at has
    rw [has.unique hw .root] at ha
    cases ha
  refine below_of_lineage hw hfit has hd ?_ a ha
  rw [par, if_neg hne]

theorem Counted.under_iff (hc : Counted es) (hfit : ∀ e ∈ es, Fits es e) {a d : JobEvent}
    (hd : d ∈ es) : Under es a d ↔ Preorder.Below (Parent es) d a := by
  refine ⟨fun h => h.below hw hfit hd, fun h => ?_⟩
  obtain ⟨as, has, ha⟩ := lineage_of_below hw hfit h hd
  rw [hc.par_eq hd] at has
  exact ⟨as, has, ha⟩

open Classical in
/-- A meta event that is counted under nothing is missing among the children of its parent. -/
theorem counted_of_countP (hfit : ∀ e ∈ es, Fits es e)
    (h : ∀ a ∈ es, es.countP (fun d => Under es a d) =
      es.countP fun d => Preorder.Below (Parent es) d a) : Counted es := by
  intro e he hm hne hempty
  have habove : above es e = "" := by rw [above, if_pos hm, hempty]
  obtain ⟨pre, post, hsplit⟩ := List.append_of_mem he
  obtain ⟨q, a, q', hpre, -, hu, -⟩ := (hfit e he).parent hw hsplit hne
  have ha : a ∈ es := by rw [hsplit, hpre]; simp
  have hbelow : Preorder.Below (Parent es) e a :=
    .single ⟨ha, by rw [par, if_pos habove, hu]⟩
  have hnot : ¬ Under es a e := by
    rintro ⟨as, has, hmem⟩
    rw [habove] at has
    rw [has.unique hw .root] at hmem
    cases hmem
  have hle : ∀ l : List JobEvent, (∀ d ∈ l, d ∈ es) →
      l.countP (fun d => Under es a d) ≤ l.countP fun d => Preorder.Below (Parent es) d a :=
    fun l hl => List.countP_mono_left fun d hd hud =>
      decide_eq_true ((of_decide_eq_true hud : Under es a d).below hw hfit (hl d hd))
  have heq := h a ha
  have hpre' := hle pre fun d hd => by rw [hsplit]; exact List.mem_append_left _ hd
  have hpost := hle post fun d hd => by rw [hsplit]; simp [hd]
  rw [hsplit, List.countP_append, List.countP_append, List.countP_cons, List.countP_cons, ← hsplit]
    at heq
  simp only [hbelow, hnot, decide_true, decide_false, if_true, Bool.false_eq_true, if_false] at heq
  omega

open Classical in
/-- A summary with the tallies and nested uuids of the loop describes the events exactly when
they are in pre-order with every meta event counted. -/
theorem describes_iff (hsorted : es.Pairwise fun e e' => e.counter ≤ e'.counter)
    (hfit : ∀ e ∈ es, Fits es e) {r : Response}
    (hnum : ∀ a ∈ es, r.numChildren a = es.countP fun d => Under es a d)
    (hrow : ∀ a ∈ es, ∀ t, r.childrenSummary.get? a.counter = some t → t.rowNumber = es.idxOf a)
    (hpar : ∀ d ∈ es, r.parentUuid d = par es d) :
    r.Describes es ↔ Preordered es ∧ Counted es := by
  have hchild : ∀ d ∈ es, ∀ a, r.IsParent es d a ↔ Parent es d a := fun d hd a => by
    rw [Response.IsParent, Parent, hpar d hd]
  have hdesc : ∀ d ∈ es, ∀ a, r.Descendant es d a ↔ Preorder.Below (Parent es) d a := by
    intro d hd a
    constructor
    · intro h
      induction h using Relation.TransGen.head_induction_on with
      | single hp => exact .single ((hchild _ hd a).mp hp)
      | head hp _ ih => exact .head ((hchild _ hd _).mp hp) (ih hp.1)
    · intro h
      induction h using Relation.TransGen.head_induction_on with
      | single hp => exact .single ((hchild _ hd a).mpr hp)
      | head hp _ ih => exact .head ((hchild _ hd _).mpr hp) (ih hp.1)
  have hcount : ∀ a, es.countP (fun d => r.Descendant es d a) =
      es.countP fun d => Preorder.Below (Parent es) d a := fun a =>
    List.countP_congr fun d hd => by simp only [hdesc d hd a]
  have hbefore := Parent.before hw hfit
  constructor
  · intro h
    have hc : Counted es := counted_of_countP hw hfit fun a ha => by
      rw [← hnum a ha, h.numChildren a ha, hcount]
    refine ⟨(adjacent_iff_preordered hw hfit hc).mp ?_, hc⟩
    refine (Preorder.adjacent_iff hw.nodup hbefore).mpr fun a ha d hd => ?_
    rw [← hdesc d hd a, h.rows a ha d hd, position_eq_idxOf hw hsorted ha,
      position_eq_idxOf hw hsorted hd, h.numChildren a ha, hcount]
  · rintro ⟨hpre, hc⟩
    have hnum' : ∀ a ∈ es, r.numChildren a = es.countP fun d => Preorder.Below (Parent es) d a := by
      intro a ha
      rw [hnum a ha]
      exact List.countP_congr fun d hd => by simp only [hc.under_iff hw hfit hd]
    refine ⟨fun a ha => ?_, fun a ha t ht => ?_, fun a ha d hd => ?_⟩
    · rw [hnum' a ha, hcount]
    · rw [hrow a ha t ht, position_eq_idxOf hw hsorted ha]
    · rw [hdesc d hd a, position_eq_idxOf hw hsorted ha, position_eq_idxOf hw hsorted hd, hnum' a ha]
      exact (Preorder.adjacent_iff hw.nodup hbefore).mp
        ((adjacent_iff_preordered hw hfit hc).mpr hpre) a ha d hd

end Ordered

/-! ### The request -/

theorem WellFormed.of_perm {es events : List JobEvent} (h : WellFormed events)
    (hperm : List.Perm es events) : WellFormed es where
  counters := (hperm.map _).nodup_iff.mpr h.counters
  uuids := (hperm.map _).nodup_iff.mpr h.uuids
  named e he := h.named e (hperm.mem_iff.mp he)
  irreflexive e he := h.irreflexive e (hperm.mem_iff.mp he)

theorem Response.Describes.of_perm {es events : List JobEvent} {r : Response}
    (hperm : List.Perm es events) (h : r.Describes es) : r.Describes events := by
  have hparent : r.IsParent events = r.IsParent es := by
    funext d a
    rw [Response.IsParent, Response.IsParent, hperm.mem_iff]
  have hdesc : r.Descendant events = r.Descendant es := by
    funext d a
    rw [Response.Descendant, Response.Descendant, hparent]
  have hpos : position events = position es := by
    funext e
    rw [position, position, hperm.countP_eq]
  refine ⟨fun a ha => ?_, fun a ha t ht => ?_, fun a ha d hd => ?_⟩
  · rw [h.numChildren a (hperm.mem_iff.mpr ha), hdesc, hperm.countP_eq]
  · rw [hpos]
    exact h.rowNumber a (hperm.mem_iff.mpr ha) t ht
  · rw [hdesc, hpos]
    exact h.rows a (hperm.mem_iff.mpr ha) d (hperm.mem_iff.mpr hd)

theorem start_at (first : JobEvent) (es : List JobEvent) : (start first es).At first [] := ⟨rfl, rfl⟩

open Classical in
/-- A loop that goes through makes a summary with its tallies and nested uuids. -/
theorem describes_of_processEvents {es : List JobEvent} (hw : WellFormed es) {first last : JobEvent}
    (hfirst : es.head? = some first) (hlast : es.getLastD first = last)
    (hsorted : es.Pairwise fun e e' => e.counter ≤ e'.counter) (hfit : ∀ e ∈ es, Fits es e)
    {fuel : ℕ} {p : Progress}
    (h : processEvents (maps es) fuel last 0 es (start first es) = .ok (some p)) :
    Response.Describes ⟨p.counterChildrenTally.filterValues fun t => t.numChildren ≠ 0,
      p.metaCounterNestedUuid, true, true⟩ es ↔ Preordered es ∧ Counted es := by
  obtain ⟨htally, hnested⟩ := processEvents_result hw hfirst hlast rfl (start_at first es) h
  have hstart : ∀ a ∈ es, (start first es).counterChildrenTally.get? a.counter = some ⟨0, 0⟩ := by
    intro a ha
    refine Dict.get?_foldl_set_of_mem ?_
      (List.mem_map_of_mem (f := fun e : JobEvent => (e.counter, (⟨0, 0⟩ : Tally))) ha) _
    rw [List.map_map]
    exact hw.counters
  have hget : ∀ a ∈ es, p.counterChildrenTally.get? a.counter =
      some ⟨es.idxOf a, es.countP fun e => Under es a e⟩ := by
    intro a ha
    rw [htally a ha _ (hstart a ha), if_pos ha, Nat.zero_add]
  refine describes_iff hw hsorted hfit (fun a ha => ?_) (fun a ha t ht => ?_) fun d hd => ?_
  · rw [Response.numChildren, Dict.get?_filterValues, hget a ha, Option.filter_some]
    split_ifs with hz
    · rfl
    · by_contra hne
      exact hz (decide_eq_true fun hzero => hne hzero.symm)
  · rw [Dict.get?_filterValues, hget a ha, Option.filter_some] at ht
    split_ifs at ht with hz
    cases ht
    rfl
  · rw [Response.parentUuid, hnested d hd]
    cases hm : d.isMeta with
    | false =>
      rw [if_neg (by simp), par_of_ordinary hm]
      rfl
    | true =>
      rw [par]
      by_cases hab : above es d = ""
      · rw [if_neg (by simp [hab]), if_pos hab]
        rfl
      · rw [if_pos ⟨hd, rfl, hab⟩, if_neg hab, Option.getD_some]

theorem summarize_iff {es : List JobEvent} (hw : WellFormed es)
    (hsorted : es.Pairwise fun e e' => e.counter ≤ e'.counter) :
    (∃ fuel r, summarize fuel es = .ok r ∧
      (r.isTree = true → r.eventProcessingFinished = true → r.Describes es)) ↔ Sound es := by
  cases hes : es with
  | nil =>
    refine ⟨fun _ => ⟨fun e he => absurd he List.not_mem_nil, fun _ => ⟨?_, ?_⟩⟩, fun _ => ?_⟩
    · exact fun q n ms n' q' h => absurd h (by simp)
    · exact fun e he => absurd he List.not_mem_nil
    · exact ⟨0, _, rfl, fun _ _ => ⟨fun a ha => absurd ha List.not_mem_nil,
        fun a ha => absurd ha List.not_mem_nil, fun a ha => absurd ha List.not_mem_nil⟩⟩
  | cons first rest =>
    rw [← hes]
    have hfirst : es.head? = some first := by rw [hes]; rfl
    have hsummarize := fun fuel => summarize_cons fuel first rest
    rw [← hes] at hsummarize
    constructor
    · rintro ⟨fuel, r, hr, hdesc⟩
      rw [hsummarize] at hr
      cases ho : processEvents (maps es) fuel (es.getLastD first) 0 es (start first es) with
      | error stop =>
        rw [ho] at hr
        cases hr
      | ok o =>
        obtain ⟨hwalk, hsome⟩ := of_processEvents hw hfirst rfl rfl (start_at first es) ho
        refine ⟨fun e he hm hfit hlt => ?_, fun hall => ?_⟩
        · obtain ⟨as, has⟩ := hwalk e he hfit
          rw [above, if_pos hm, nestedUuid, if_pos hlt] at has
          exact ⟨as, has⟩
        · cases o with
          | none => exact absurd (hsome.mpr hall) Bool.false_ne_true
          | some p =>
            rw [ho] at hr
            cases hr
            exact (describes_of_processEvents hw hfirst rfl hsorted hall ho).mp (hdesc rfl rfl)
    · intro h
      have hwalk : ∀ e ∈ es, (∀ x ∈ before es e ++ [e], Fits es x) →
          ∃ as, Lineage es (above es e) as := fun e he hfit =>
        lineage_above hw (split_of_mem he hw.nodup) hfit fun hm hlt => h.ends e he hm hfit hlt
      have hfuel : es.length ≤ es.length := Nat.le_refl _
      obtain ⟨o, ho⟩ := processEvents_of_lineages hw hfirst rfl rfl (start_at first es)
        (fun x hx => absurd hx List.not_mem_nil) hwalk hfuel
      have hsome := (of_processEvents hw hfirst rfl rfl (start_at first es) ho).2
      refine ⟨es.length, ?_⟩
      rw [hsummarize, show processEvents (maps es) es.length (es.getLastD first) 0 es
        (start first es) = .ok o from ho]
      cases o with
      | none => exact ⟨_, rfl, by rintro ⟨⟩⟩
      | some p =>
        have hall := hsome.mp rfl
        exact ⟨_, rfl, fun _ _ =>
          (describes_of_processEvents hw hfirst rfl hsorted hall ho).mpr (h.tree hall)⟩

/-- The request is answered rightly exactly for the events that are sound in the order of their
counters. -/
theorem summarizes_iff (eventProcessingFinished : Bool) (events : List JobEvent)
    (hw : WellFormed events) :
    Summarizes eventProcessingFinished events ↔
      (eventProcessingFinished = true → Sound (orderByCounter events)) := by
  cases eventProcessingFinished with
  | false => exact ⟨fun _ => by rintro ⟨⟩, fun _ => ⟨0, _, rfl, fun _ => by rintro ⟨⟩⟩⟩
  | true =>
    have hperm : List.Perm (orderByCounter events) events := List.perm_insertionSort _ events
    have hsorted : (orderByCounter events).Pairwise fun e e' => e.counter ≤ e'.counter :=
      List.pairwise_insertionSort _ events
    have hdesc : ∀ r : Response, r.Describes (orderByCounter events) ↔ r.Describes events :=
      fun r => ⟨.of_perm hperm, .of_perm hperm.symm⟩
    have hiff := summarize_iff (hw.of_perm hperm) hsorted
    simp only [hdesc] at hiff
    exact hiff.trans ⟨fun h _ => h, fun h => h rfl⟩

/-- A playbook with a play, a task with a note behind it, and another play. -/
theorem summarizes_iff_playbook :
    Summarizes true
      [⟨1, "uuid1", "", .playbookOnStart⟩, ⟨2, "uuid2", "uuid1", .playbookOnPlayStart⟩,
        ⟨3, "uuid3", "uuid2", .playbookOnTaskStart⟩, ⟨4, "uuid4", "", .verbose⟩,
        ⟨5, "uuid5", "uuid1", .playbookOnPlayStart⟩] ↔
      (true = true → Sound (orderByCounter
        [⟨1, "uuid1", "", .playbookOnStart⟩, ⟨2, "uuid2", "uuid1", .playbookOnPlayStart⟩,
          ⟨3, "uuid3", "uuid2", .playbookOnTaskStart⟩, ⟨4, "uuid4", "", .verbose⟩,
          ⟨5, "uuid5", "uuid1", .playbookOnPlayStart⟩])) :=
  summarizes_iff true _ ⟨by decide, by decide, by decide, by decide⟩

/-- Behind a meta event comes an event whose parent was never stored: instead of an answer that
the events are no tree there is a `KeyError`. -/
theorem missingParent_not_summarized :
    ¬ Summarizes true
      [⟨1, "uuid1", "", .verbose⟩, ⟨2, "uuid2", "lost", .playbookOnPlayStart⟩] := by
  rintro ⟨fuel, r, hr, -⟩
  cases fuel with
  | zero =>
    have hstop : get 0 true
        [⟨1, "uuid1", "", .verbose⟩, ⟨2, "uuid2", "lost", .playbookOnPlayStart⟩] =
          .error .fuel := rfl
    rw [hstop] at hr
    cases hr
  | succ fuel =>
    have hstop : get (fuel + 1) true
        [⟨1, "uuid1", "", .verbose⟩, ⟨2, "uuid2", "lost", .playbookOnPlayStart⟩] =
          .error .keyError := rfl
    rw [hstop] at hr
    cases hr

end Forail.JobEvents
