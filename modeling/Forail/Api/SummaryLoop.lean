import Forail.Api.EventTree

/-! The loop over the events: when it goes through, and what it has counted then. -/

namespace Forail.JobEvents

variable {es : List JobEvent} {fuel : ℕ} {first : JobEvent}

/-- The walk for an event passes this one. -/
def Under (es : List JobEvent) (a e : JobEvent) : Prop :=
  ∃ as, Lineage es (above es e) as ∧ a ∈ as

/-- The loop stands behind these events. -/
structure Progress.At (first : JobEvent) (pre : List JobEvent) (p : Progress) : Prop where
  prev : p.prevNonMetaEvent = (pre.reverse.find? fun x => !x.isMeta).getD first
  levels : p.levelCurrentUuid = levelsOf pre

/-- What an event adds to the progress. -/
def record (es : List JobEvent) (i : ℕ) (e : JobEvent) (as : List JobEvent) (p : Progress) :
    Progress where
  prevNonMetaEvent := if e.isMeta then p.prevNonMetaEvent else e
  levelCurrentUuid := if e.isMeta then p.levelCurrentUuid else openLevel p.levelCurrentUuid e
  metaCounterNestedUuid :=
    if e.isMeta = true ∧ above es e ≠ "" then p.metaCounterNestedUuid.set e.counter (above es e)
    else p.metaCounterNestedUuid
  counterChildrenTally :=
    as.foldl addChild (p.counterChildrenTally.modify e.counter fun t => { t with rowNumber := i })

theorem Progress.At.record {pre : List JobEvent} {p : Progress} (h : p.At first pre) (i : ℕ)
    (e : JobEvent) (as : List JobEvent) : (record es i e as p).At first (pre ++ [e]) := by
  constructor
  · rw [List.reverse_append, List.reverse_singleton, List.singleton_append, List.find?_cons]
    cases hm : e.isMeta with
    | true => simp [JobEvents.record, hm, h.prev]
    | false => simp [JobEvents.record, hm]
  · rw [levelsOf_append, ← h.levels]
    rfl

/-! ### One event -/

section Event

variable (hw : WellFormed es) {pre rest : List JobEvent} {e last : JobEvent} {p : Progress}
  (hsplit : es = pre ++ e :: rest) (hfirst : es.head? = some first) (hlast : es.getLastD first = last)
  (hp : p.At first pre)
include hw hsplit hfirst hlast hp

/-- The uuid that the loop computes is the one that the event is counted under. -/
theorem computed_above :
    (if e.isMeta then nestedUuid p.prevNonMetaEvent
      (((e :: rest).find? fun x => !x.isMeta).getD last) else e.parentUuid) = above es e := by
  have hhead : es.headD e = first := by
    rw [List.headD_eq_head?_getD, hfirst, Option.getD_some]
  have hlast' : es.getLastD e = last := by
    rw [← hlast, List.getLastD_eq_getLast?, List.getLastD_eq_getLast?]
    cases hl : es.getLast? with
    | none =>
      rw [List.getLast?_eq_none_iff.mp hl] at hsplit
      exact absurd hsplit (by simp)
    | some x => rfl
  cases hm : e.isMeta with
  | false => rw [above_of_ordinary hm]; rfl
  | true =>
    rw [if_pos rfl, above, if_pos hm, prevNonMeta, nextNonMeta, before_of_split hw.nodup hsplit,
      after_of_split hw.nodup hsplit, hp.prev, hhead, hlast',
      List.find?_cons_of_neg (by rw [hm]; decide)]

omit hfirst hlast in
theorem fits_iff_levels :
    Fits es e ↔ ¬(e.parentUuid ≠ "" ∧
      some e.parentUuid ∉ if e.isMeta then p.levelCurrentUuid else openLevel p.levelCurrentUuid e) := by
  rw [hp.levels, ← levelsOf_append, mem_levelsOf, Fits, before_of_split hw.nodup hsplit]
  tauto

omit hfirst hlast in
theorem processEvent_of_not_fits (hf : ¬ Fits es e) (i : ℕ) :
    processEvent (maps es) fuel last i e rest p = .ok none := by
  have hf' := mt (fits_iff_levels hw hsplit hp).mpr hf
  have hmem : e ∈ es := by rw [hsplit]; simp
  rw [processEvent, if_neg (hw.named e hmem), if_pos (not_not.mp hf')]

theorem processEvent_of_fits (hf : Fits es e) (i : ℕ) :
    processEvent (maps es) fuel last i e rest p =
      (tallyUp (maps es) fuel
        (p.counterChildrenTally.modify e.counter fun t => { t with rowNumber := i })
        (above es e)).map fun tally =>
          some { record es i e [] p with counterChildrenTally := tally } := by
  have hf' := (fits_iff_levels hw hsplit hp).mp hf
  have hmem : e ∈ es := by rw [hsplit]; simp
  have habove := computed_above hw hsplit hfirst hlast hp
  rw [processEvent, if_neg (hw.named e hmem), if_neg hf']
  cases hm : e.isMeta with
  | true =>
    simp only [hm, if_true] at habove ⊢
    rw [habove]
    cases tallyUp (maps es) fuel _ (above es e) <;> simp [record, hm, Except.map]
  | false =>
    simp only [hm, Bool.false_eq_true, if_false] at habove ⊢
    rw [habove]
    cases tallyUp (maps es) fuel _ (above es e) <;> simp [record, hm, Except.map]

theorem processEvent_of_lineage (hf : Fits es e) {as : List JobEvent}
    (has : Lineage es (above es e) as) (hfuel : as.length ≤ fuel) (i : ℕ) :
    processEvent (maps es) fuel last i e rest p = .ok (some (record es i e as p)) := by
  rw [processEvent_of_fits hw hsplit hfirst hlast hp hf, tallyUp_of_lineage hw has hfuel]
  rfl

theorem of_processEvent {i : ℕ} {o : Option Progress}
    (h : processEvent (maps es) fuel last i e rest p = .ok o) :
    ¬ Fits es e ∧ o = none ∨
      Fits es e ∧ ∃ as, Lineage es (above es e) as ∧ o = some (record es i e as p) := by
  by_cases hf : Fits es e
  · rw [processEvent_of_fits hw hsplit hfirst hlast hp hf] at h
    cases ht : tallyUp (maps es) fuel
        (p.counterChildrenTally.modify e.counter fun t => { t with rowNumber := i })
        (above es e) with
    | error stop =>
      rw [ht] at h
      cases h
    | ok tally =>
      rw [ht] at h
      obtain ⟨as, has, rfl⟩ := lineage_of_tallyUp hw ht
      cases h
      exact .inr ⟨hf, as, has, rfl⟩
  · rw [processEvent_of_not_fits hw hsplit hp hf] at h
    cases h
    exact .inl ⟨hf, rfl⟩

end Event

/-- What an event adds to the tally of another one. -/
theorem get?_record_tally (hw : WellFormed es) {pre rest as : List JobEvent} {e a : JobEvent} {p : Progress} {t : Tally}
    (hsplit : es = pre ++ e :: rest) (has : Lineage es (above es e) as) (ha : a ∈ es)
    (ht : p.counterChildrenTally.get? a.counter = some t) :
    (record es pre.length e as p).counterChildrenTally.get? a.counter =
      some ⟨if a = e then pre.length else t.rowNumber,
        t.numChildren + if a ∈ as then 1 else 0⟩ := by
  have he : e ∈ es := by rw [hsplit]; simp
  refine get?_foldl_addChild hw has.subset (has.nodup hw) ha
    (t := ⟨if a = e then pre.length else t.rowNumber, t.numChildren⟩) ?_
  rw [Dict.get?_modify, ht]
  by_cases hae : a = e
  · rw [if_pos (by rw [hae]), if_pos hae]
    rfl
  · rw [if_neg fun hc => hae (hw.eq_of_counter ha he hc), if_neg hae]

theorem get?_record_nested (hw : WellFormed es) {e d : JobEvent} {p : Progress} (he : e ∈ es) (hd : d ∈ es) (i : ℕ)
    (as : List JobEvent) :
    (record es i e as p).metaCounterNestedUuid.get? d.counter =
      if d = e ∧ d.isMeta = true ∧ above es d ≠ "" then some (above es d)
      else p.metaCounterNestedUuid.get? d.counter := by
  have hrec : (record es i e as p).metaCounterNestedUuid =
      if e.isMeta = true ∧ above es e ≠ "" then p.metaCounterNestedUuid.set e.counter (above es e)
      else p.metaCounterNestedUuid := rfl
  rw [hrec]
  by_cases hde : d = e
  · subst hde
    by_cases hc : d.isMeta = true ∧ above es d ≠ ""
    · rw [if_pos hc, if_pos (show d = d ∧ _ from ⟨rfl, hc⟩), Dict.get?_set, if_pos rfl]
    · rw [if_neg hc, if_neg fun h : d = d ∧ _ => hc h.2]
  · rw [if_neg fun h : d = e ∧ _ => hde h.1]
    by_cases hc : e.isMeta = true ∧ above es e ≠ ""
    · rw [if_pos hc, Dict.get?_set, if_neg fun hc => hde (hw.eq_of_counter hd he hc)]
    · rw [if_neg hc]

/-! ### The loop -/

section Loop

variable (hw : WellFormed es) {last : JobEvent} (hfirst : es.head? = some first)
  (hlast : es.getLastD first = last)
include hw hfirst hlast

/-- The loop ends without an exception when the walks do, for the events that it comes to. -/
theorem processEvents_of_lineages {pre rest : List JobEvent} {p : Progress}
    (hsplit : es = pre ++ rest) (hp : p.At first pre) (hpre : ∀ x ∈ pre, Fits es x)
    (hwalk : ∀ e ∈ es, (∀ x ∈ before es e ++ [e], Fits es x) → ∃ as, Lineage es (above es e) as)
    (hfuel : es.length ≤ fuel) :
    ∃ o, processEvents (maps es) fuel last pre.length rest p = .ok o := by
  induction rest generalizing pre p with
  | nil => exact ⟨some p, rfl⟩
  | cons e rest ih =>
    rw [processEvents]
    by_cases hf : Fits es e
    · have hfit : ∀ x ∈ pre ++ [e], Fits es x := by
        intro x hx
        rcases List.mem_append.mp hx with hx | hx
        · exact hpre x hx
        · rw [List.mem_singleton.mp hx]
          exact hf
      obtain ⟨as, has⟩ := hwalk e (by rw [hsplit]; simp)
        (by rw [before_of_split hw.nodup hsplit]; exact hfit)
      rw [processEvent_of_lineage hw hsplit hfirst hlast hp hf has
        (Nat.le_trans (has.length_le hw) hfuel)]
      have hlen : pre.length + 1 = (pre ++ [e]).length := by simp
      rw [hlen]
      exact ih (by rw [hsplit]; simp) (hp.record _ e as) hfit
    · rw [processEvent_of_not_fits hw hsplit hp hf]
      exact ⟨none, rfl⟩

/-- A loop that ends has gone through the walk of every event up to the first that does not fit,
and it gives up exactly there. -/
theorem of_processEvents {pre rest : List JobEvent} {p : Progress} (hsplit : es = pre ++ rest)
    (hp : p.At first pre) {o : Option Progress}
    (h : processEvents (maps es) fuel last pre.length rest p = .ok o) :
    (∀ e ∈ rest, (∀ x ∈ before es e ++ [e], Fits es x) → ∃ as, Lineage es (above es e) as) ∧
      (o.isSome = true ↔ ∀ e ∈ rest, Fits es e) := by
  induction rest generalizing pre p with
  | nil =>
    cases h
    exact ⟨fun e he => absurd he List.not_mem_nil, fun _ e he => absurd he List.not_mem_nil,
      fun _ => rfl⟩
  | cons e rest ih =>
    rw [processEvents] at h
    cases hone : processEvent (maps es) fuel last pre.length e rest p with
    | error stop =>
      rw [hone] at h
      cases h
    | ok o₁ =>
      rcases of_processEvent hw hsplit hfirst hlast hp hone with ⟨hf, rfl⟩ | ⟨hf, as, has, rfl⟩
      · rw [hone] at h
        cases h
        refine ⟨fun d hd hfit => absurd (hfit e ?_) hf, nofun, fun hall => ?_⟩
        · -- the event that does not fit is not behind any of these
          obtain ⟨q, r, hq⟩ := List.append_of_mem hd
          rcases List.cons_eq_append_iff.mp hq with ⟨rfl, hd'⟩ | ⟨q', rfl, hd'⟩
          · rw [(List.cons.inj hd').1]
            simp
          · have hd₁ : es = (pre ++ e :: q') ++ d :: r := by rw [hsplit, hq]; simp
            rw [before_of_split hw.nodup hd₁]
            simp
        · exact absurd (hall e List.mem_cons_self) hf
      · rw [hone] at h
        have hlen : pre.length + 1 = (pre ++ [e]).length := by simp
        simp only [hlen] at h
        obtain ⟨hwalk, hsome⟩ := ih (by rw [hsplit]; simp) (hp.record _ e as) h
        refine ⟨fun d hd hfit => ?_, hsome.trans ⟨fun hall d hd => ?_, fun hall d hd => ?_⟩⟩
        · rcases List.mem_cons.mp hd with rfl | hd
          · exact ⟨as, has⟩
          · exact hwalk d hd hfit
        · rcases List.mem_cons.mp hd with rfl | hd
          · exact hf
          · exact hall d hd
        · exact hall d (List.mem_cons_of_mem _ hd)

open Classical in
/-- A loop that goes through has set every row number, counted for each event the walks that pass
it, and assigned the nested uuids. -/
theorem processEvents_result {pre rest : List JobEvent} {p p' : Progress} (hsplit : es = pre ++ rest)
    (hp : p.At first pre)
    (h : processEvents (maps es) fuel last pre.length rest p = .ok (some p')) :
    (∀ a ∈ es, ∀ t, p.counterChildrenTally.get? a.counter = some t →
      p'.counterChildrenTally.get? a.counter =
        some ⟨if a ∈ rest then es.idxOf a else t.rowNumber,
          t.numChildren + rest.countP fun e => Under es a e⟩) ∧
    ∀ d ∈ es, p'.metaCounterNestedUuid.get? d.counter =
      if d ∈ rest ∧ d.isMeta = true ∧ above es d ≠ "" then some (above es d)
      else p.metaCounterNestedUuid.get? d.counter := by
  induction rest generalizing pre p with
  | nil =>
    cases h
    refine ⟨fun a _ t ht => ?_, fun d _ => ?_⟩
    · rw [ht, if_neg List.not_mem_nil]
      rfl
    · rw [if_neg fun hc => List.not_mem_nil hc.1]
  | cons e rest ih =>
    rw [processEvents] at h
    have he : e ∈ es := by rw [hsplit]; simp
    cases hone : processEvent (maps es) fuel last pre.length e rest p with
    | error stop =>
      rw [hone] at h
      cases h
    | ok o₁ =>
      rcases of_processEvent hw hsplit hfirst hlast hp hone with ⟨-, rfl⟩ | ⟨-, as, has, rfl⟩
      · rw [hone] at h
        cases h
      · rw [hone] at h
        have hlen : pre.length + 1 = (pre ++ [e]).length := by simp
        simp only [hlen] at h
        obtain ⟨htally, hnested⟩ := ih (by rw [hsplit]; simp) (hp.record _ e as) h
        constructor
        · intro a ha t ht
          rw [htally a ha _ (get?_record_tally hw hsplit has ha ht)]
          have hunder : Under es a e ↔ a ∈ as := by
            constructor
            · rintro ⟨bs, hbs, hab⟩
              rw [has.unique hw hbs]
              exact hab
            · exact fun hmem => ⟨as, has, hmem⟩
          have hrow : (if a ∈ rest then es.idxOf a else
              if a = e then pre.length else t.rowNumber) =
              if a ∈ e :: rest then es.idxOf a else t.rowNumber := by
            by_cases hae : a = e
            · have hidx : es.idxOf a = pre.length := by
                rw [hae]
                exact Preorder.idxOf_split hw.nodup hsplit
              simp [hae, ← hidx]
            · simp [hae]
          have hnum : t.numChildren + (if a ∈ as then 1 else 0) +
              rest.countP (fun e => Under es a e) =
              t.numChildren + (e :: rest).countP fun e => Under es a e := by
            rw [List.countP_cons, Nat.add_assoc, Nat.add_comm (if a ∈ as then 1 else 0)]
            simp only [hunder, decide_eq_true_eq]
          rw [hrow, hnum]
        · intro d hd
          rw [hnested d hd, get?_record_nested hw he hd]
          by_cases hc : d.isMeta = true ∧ above es d ≠ ""
          · by_cases hde : d = e
            · subst hde
              simp [hc]
            · simp [hde]
          · rw [if_neg fun h => hc h.2, if_neg fun h => hc h.2, if_neg fun h => hc h.2]

end Loop

end Forail.JobEvents
