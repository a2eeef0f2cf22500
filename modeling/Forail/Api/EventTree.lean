import Forail.Api.OpenEvents

/-! Events that all fit form a forest. Meta events are leaves of it, so that whether the forest
is laid out in pre-order depends on the ordinary events alone. -/

namespace Forail.JobEvents

variable {es pre post : List JobEvent} {d e : JobEvent}

/-- The uuid of the parent, for a meta event the nested one if it has any. -/
def par (es : List JobEvent) (e : JobEvent) : String :=
  if above es e = "" then e.parentUuid else above es e

def Parent (es : List JobEvent) (d a : JobEvent) : Prop := a ∈ es ∧ par es d = a.uuid

/-- The parent by the event's own field. -/
def OwnParent (es : List JobEvent) (d a : JobEvent) : Prop := a ∈ es ∧ d.parentUuid = a.uuid

/-- The parent of an ordinary event is the ordinary event before it or above that one. -/
def Preordered (es : List JobEvent) : Prop :=
  ∀ q n ms n' q', es = q ++ n :: (ms ++ n' :: q') → n.isMeta = false → n'.isMeta = false →
    (∀ m ∈ ms, m.isMeta = true) →
    ∀ a, OwnParent es n' a → a = n ∨ Preorder.Below (OwnParent es) n a

/-- A meta event with a parent is counted under some event. -/
def Counted (es : List JobEvent) : Prop :=
  ∀ e ∈ es, e.isMeta = true → e.parentUuid ≠ "" →
    nestedUuid (prevNonMeta es e) (nextNonMeta es e) ≠ ""

theorem par_of_ordinary (he : e.isMeta = false) : par es e = e.parentUuid := by
  rw [par, above_of_ordinary he, ite_self]

/-- With every meta event counted there is one parent only. -/
theorem Counted.par_eq (h : Counted es) (he : e ∈ es) : par es e = above es e := by
  rw [par]
  split_ifs with hab
  · rw [hab]
    cases hm : e.isMeta with
    | false =>
      rw [above_of_ordinary hm] at hab
      exact hab
    | true =>
      by_contra hne
      refine h e he hm hne ?_
      rw [above, if_pos hm] at hab
      exact hab
  · rfl

/-! ### Events that fit -/

theorem Fits.parent (hw : WellFormed es) (h : es = pre ++ e :: post) (hf : Fits es e)
    (hne : e.parentUuid ≠ "") :
    ∃ q p q', pre = q ++ p :: q' ∧ p.isMeta = false ∧ p.uuid = e.parentUuid ∧
      (e.isMeta = false → p.level < e.level) := by
  rcases hf with hempty | ⟨q, p, q', hsplit, hp, hu, hlow⟩
  · exact absurd hempty hne
  · rw [before_of_split hw.nodup h] at hsplit
    rcases append_singleton_eq hsplit with ⟨-, rfl, -⟩ | ⟨q'', rfl, hpre⟩
    · exact absurd hu.symm (hw.irreflexive e (by rw [h]; simp))
    · exact ⟨q, p, q'', hpre, hp, hu, hlow e (by simp)⟩

theorem lineage_of_fits (hw : WellFormed es) (h : es = pre ++ e :: post)
    (hfit : ∀ x ∈ pre ++ [e], Fits es x) : ∃ as, Lineage es e.parentUuid as := by
  induction hn : pre.length using Nat.strong_induction_on generalizing pre e post with
  | _ n ih =>
    by_cases hne : e.parentUuid = ""
    · exact ⟨[], hne ▸ .root⟩
    · obtain ⟨q, p, q', rfl, -, hu, -⟩ := (hfit e (by simp)).parent hw h hne
      have hlt : q.length < n := by
        rw [← hn, List.length_append, List.length_cons]
        omega
      have hsplit : es = q ++ p :: (q' ++ e :: post) := by rw [h]; simp
      obtain ⟨as, has⟩ := ih q.length hlt hsplit
        (fun x hx => hfit x (List.mem_append_left _ (by
          rcases List.mem_append.mp hx with hx | hx
          · exact List.mem_append_left _ hx
          · rw [List.mem_singleton.mp hx]
            simp))) rfl
      exact ⟨p :: as, hu ▸ .up (by rw [hsplit]; simp) has⟩

/-- The walk for an event ends, except perhaps where it starts from an event that is to come. -/
theorem lineage_above (hw : WellFormed es) (h : es = pre ++ e :: post)
    (hfit : ∀ x ∈ pre ++ [e], Fits es x)
    (hrise : e.isMeta = true → (prevNonMeta es e).level < (nextNonMeta es e).level →
      ∃ as, Lineage es (nextNonMeta es e).parentUuid as) :
    ∃ as, Lineage es (above es e) as := by
  cases hm : e.isMeta with
  | false =>
    rw [above_of_ordinary hm]
    exact lineage_of_fits hw h hfit
  | true =>
    rw [above, if_pos hm, nestedUuid]
    split_ifs with hlt
    · exact hrise hm hlt
    · rcases prevNonMeta_cases hw.nodup h with ⟨q, p, ms, rfl, -, -, hprev⟩ | ⟨-, hprev⟩
      · rw [hprev]
        have hsplit : es = q ++ p :: (ms ++ e :: post) := by rw [h]; simp
        refine lineage_of_fits hw hsplit fun x hx => hfit x (List.mem_append_left _ ?_)
        rcases List.mem_append.mp hx with hx | hx
        · exact List.mem_append_left _ hx
        · rw [List.mem_singleton.mp hx]
          simp
      · rw [hprev]
        cases pre with
        | nil =>
          rw [h, List.nil_append, List.headD_cons, ← List.nil_append (e :: post), ← h]
          exact lineage_of_fits hw h hfit
        | cons x pre =>
          have hhead : es.headD e = x := by rw [h, List.cons_append, List.headD_cons]
          have hsplit : es = [] ++ x :: (pre ++ e :: post) := h
          rw [hhead]
          refine lineage_of_fits hw hsplit fun y hy => ?_
          rw [List.mem_singleton.mp hy]
          exact hfit x (by simp)

/-! ### The forest -/

section AllFit

variable (hw : WellFormed es) (hfit : ∀ e ∈ es, Fits es e)
include hw hfit

theorem lineage_of_mem (he : e ∈ es) : ∃ as, Lineage es e.parentUuid as := by
  have hsplit := split_of_mem he hw.nodup
  refine lineage_of_fits hw hsplit fun x hx => hfit x ?_
  rw [hsplit]
  rcases List.mem_append.mp hx with hx | hx
  · exact List.mem_append_left _ hx
  · rw [List.mem_singleton.mp hx]
    simp

/-- An event is counted under an ordinary event before it. -/
theorem above_source (h : es = pre ++ d :: post) (hne : above es d ≠ "") :
    ∃ a ∈ pre, a.isMeta = false ∧ a.uuid = above es d := by
  have hd : d ∈ es := by rw [h]; simp
  cases hm : d.isMeta with
  | false =>
    rw [above_of_ordinary hm] at hne ⊢
    obtain ⟨q, a, q', rfl, ha, hu, -⟩ := (hfit d hd).parent hw h hne
    exact ⟨a, by simp, ha, hu⟩
  | true =>
    rw [above, if_pos hm, nestedUuid] at hne ⊢
    split_ifs at hne ⊢ with hlt
    · obtain ⟨ms, p, q, rfl, hp, hms, hnext⟩ := next_of_level_lt hw.nodup h hm hlt
      rw [hnext] at hne ⊢
      have hsplit : es = (pre ++ d :: ms) ++ p :: q := by rw [h]; simp
      obtain ⟨r, a, r', hr, ha, hu, -⟩ := (hfit p (by rw [hsplit]; simp)).parent hw hsplit hne
      have hmem : a ∈ pre ++ d :: ms := by rw [hr]; simp
      refine ⟨a, ?_, ha, hu⟩
      -- those between are meta events
      rcases List.mem_append.mp hmem with hmem | hmem
      · exact hmem
      · rcases List.mem_cons.mp hmem with rfl | hmem
        · rw [hm] at ha
          cases ha
        · rw [hms a hmem] at ha
          cases ha
    · rcases prevNonMeta_cases hw.nodup h with ⟨q, p, ms, rfl, hp, hms, hprev⟩ | ⟨hpre, hprev⟩
      · rw [hprev] at hne ⊢
        have hsplit : es = q ++ p :: (ms ++ d :: post) := by rw [h]; simp
        obtain ⟨r, a, r', rfl, ha, hu, -⟩ := (hfit p (by rw [hsplit]; simp)).parent hw hsplit hne
        exact ⟨a, by simp, ha, hu⟩
      · -- the first event has no parent
        exfalso
        rw [hprev] at hne
        cases hes : es with
        | nil =>
          rw [hes] at hd
          cases hd
        | cons x rest =>
          have hhead : es.headD d = x := by rw [hes, List.headD_cons]
          rw [hhead] at hne
          have hsplit : es = [] ++ x :: rest := hes
          obtain ⟨r, a, r', hr, -⟩ := (hfit x (by rw [hes]; simp)).parent hw hsplit hne
          exact absurd hr (by simp)

theorem Parent.source {a : JobEvent} (hp : Parent es d a) (h : es = pre ++ d :: post) :
    a ∈ pre ∧ a.isMeta = false := by
  have hd : d ∈ es := by rw [h]; simp
  obtain ⟨ha, hu⟩ := hp
  have hsource : ∃ b ∈ pre, b.isMeta = false ∧ b.uuid = a.uuid := by
    rw [par] at hu
    split_ifs at hu with hab
    · obtain ⟨q, b, q', rfl, hb, hbu, -⟩ :=
        (hfit d hd).parent hw h (by rw [hu]; exact hw.named a ha)
      exact ⟨b, by simp, hb, hbu.trans hu⟩
    · obtain ⟨b, hb, hbm, hbu⟩ := above_source hw hfit h hab
      exact ⟨b, hb, hbm, hbu.trans hu⟩
  obtain ⟨b, hb, hbm, hbu⟩ := hsource
  have hba := hw.eq_of_uuid (by rw [h]; exact List.mem_append_left _ hb) ha hbu
  exact ⟨hba ▸ hb, hba ▸ hbm⟩

theorem Parent.ordinary {a : JobEvent} (hp : Parent es d a) (hd : d ∈ es) : a.isMeta = false :=
  (hp.source hw hfit (split_of_mem hd hw.nodup)).2

/-- A parent stands somewhere before. -/
theorem Parent.before (d a : JobEvent) (hd : d ∈ es) (hp : Parent es d a) :
    a ∈ es ∧ es.idxOf a < es.idxOf d := by
  have hsplit := split_of_mem hd hw.nodup
  have ha := (hp.source hw hfit hsplit).1
  refine ⟨hp.1, ?_⟩
  rw [Preorder.idxOf_split hw.nodup hsplit]
  generalize JobEvents.before es d = pre at hsplit ha
  rw [hsplit, List.idxOf_append_of_mem ha]
  exact List.idxOf_lt_length_of_mem ha

theorem below_of_lineage {u : String} {as : List JobEvent} (h : Lineage es u as) (hd : d ∈ es)
    (hu : par es d = u) : ∀ a ∈ as, Preorder.Below (Parent es) d a := by
  induction h generalizing d with
  | root => exact fun a ha => absurd ha List.not_mem_nil
  | @up b as hb _ ih =>
    have hdb : Parent es d b := ⟨hb, hu⟩
    have hbpar : par es b = b.parentUuid := par_of_ordinary (hdb.ordinary hw hfit hd)
    intro a ha
    rcases List.mem_cons.mp ha with rfl | ha
    · exact .single hdb
    · exact .head hdb (ih hb hbpar a ha)

theorem lineage_of_below {a : JobEvent} (h : Preorder.Below (Parent es) d a) (hd : d ∈ es) :
    ∃ as, Lineage es (par es d) as ∧ a ∈ as := by
  induction h using Relation.TransGen.head_induction_on with
  | single hp =>
    obtain ⟨as, has⟩ := lineage_of_mem hw hfit hp.1
    exact ⟨_ :: as, by rw [hp.2]; exact .up hp.1 has, List.mem_cons_self⟩
  | @head d b hp _ ih =>
    obtain ⟨as, has, ha⟩ := ih hp.1
    rw [par_of_ordinary (hp.ordinary hw hfit hd)] at has
    exact ⟨b :: as, by rw [hp.2]; exact .up hp.1 has, List.mem_cons_of_mem _ ha⟩

/-- Above an ordinary event both notions of parent agree. -/
theorem below_ownParent_iff {a : JobEvent} (hd : d ∈ es) (hm : d.isMeta = false) :
    Preorder.Below (OwnParent es) d a ↔ Preorder.Below (Parent es) d a := by
  have hiff : ∀ {d b}, d.isMeta = false → (OwnParent es d b ↔ Parent es d b) := fun hm => by
    rw [OwnParent, Parent, par_of_ordinary hm]
  constructor
  · intro h
    induction h using Relation.TransGen.head_induction_on with
    | single hp => exact .single ((hiff hm).mp hp)
    | head hp _ ih =>
      have hp' := (hiff hm).mp hp
      exact .head hp' (ih hp.1 (hp'.ordinary hw hfit hd))
  · intro h
    induction h using Relation.TransGen.head_induction_on with
    | single hp => exact .single ((hiff hm).mpr hp)
    | head hp _ ih => exact .head ((hiff hm).mpr hp) (ih hp.1 (hp.ordinary hw hfit hd))

end AllFit

end Forail.JobEvents
