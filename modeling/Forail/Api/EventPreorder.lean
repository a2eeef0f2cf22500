import Forail.Api.EventTree

/-! The forest of the events is laid out in pre-order when its ordinary events are. -/

namespace Forail.JobEvents

variable {es : List JobEvent}

/-- Nothing can be open before the first ordinary event. -/
theorem parentUuid_of_first (hw : WellFormed es) (hfit : ∀ e ∈ es, Fits es e) {pre post : List JobEvent}
    {e : JobEvent} (h : es = pre ++ e :: post) (hpre : ∀ m ∈ pre, m.isMeta = true) :
    e.parentUuid = "" := by
  by_contra hne
  obtain ⟨q, p, q', rfl, hp, -⟩ := (hfit e (by rw [h]; simp)).parent hw h hne
  rw [hpre p (by simp)] at hp
  cases hp

/-- Two meta events in a row are counted under the same event. -/
theorem above_eq_of_meta (hnd : es.Nodup) {pre post : List JobEvent} {x d : JobEvent}
    (h : es = pre ++ x :: d :: post) (hx : x.isMeta = true) (hd : d.isMeta = true) :
    above es d = above es x := by
  have hsplit : es = (pre ++ [x]) ++ d :: post := by rw [h]; simp
  have hprev : prevNonMeta es d = prevNonMeta es x := by
    rw [prevNonMeta, prevNonMeta, before_of_split hnd hsplit, before_of_split hnd h,
      List.reverse_append, List.reverse_singleton, List.singleton_append,
      List.find?_cons_of_neg (by rw [hx]; decide)]
    cases hes : es with
    | nil =>
      rw [hes] at h
      exact absurd h (by simp)
    | cons y rest => rfl
  have hnext : nextNonMeta es d = nextNonMeta es x := by
    rw [nextNonMeta, nextNonMeta, after_of_split hnd hsplit, after_of_split hnd h,
      List.find?_cons_of_neg (by rw [hd]; decide)]
    cases hes : es with
    | nil =>
      rw [hes] at h
      exact absurd h (by simp)
    | cons y rest => rfl
  rw [above, above, if_pos hd, if_pos hx, hprev, hnext]

/-- An ordinary event that is not of a lower level than the one before is not its child. -/
theorem ne_of_level_le (hw : WellFormed es) (hfit : ∀ e ∈ es, Fits es e)
    {q ms q' : List JobEvent} {n n' a : JobEvent} (h : es = q ++ n :: (ms ++ n' :: q'))
    (hn' : n'.isMeta = false) (hle : n'.level ≤ n.level) (ha : OwnParent es n' a) : a ≠ n := by
  rintro rfl
  have hsplit : es = (q ++ a :: ms) ++ n' :: q' := by rw [h]; simp
  have hne : n'.parentUuid ≠ "" := by
    rw [ha.2]
    exact hw.named a ha.1
  obtain ⟨r, p, r', hr, -, hu, hlow⟩ := (hfit n' (by rw [h]; simp)).parent hw hsplit hne
  have hpa : p = a := by
    refine hw.eq_of_uuid ?_ ha.1 (hu.trans ha.2)
    rw [hsplit, hr]
    simp
  have hlt := hlow hn'
  rw [hpa] at hlt
  omega

theorem parent_iff_above (hc : Counted es) {d a : JobEvent} (hd : d ∈ es) :
    Parent es d a ↔ a ∈ es ∧ above es d = a.uuid := by
  rw [Parent, hc.par_eq hd]

theorem parent_iff_own {d a : JobEvent} (hm : d.isMeta = false) :
    Parent es d a ↔ OwnParent es d a := by
  rw [Parent, OwnParent, par_of_ordinary hm]

section Counted

variable (hw : WellFormed es) (hfit : ∀ e ∈ es, Fits es e) (hc : Counted es)
include hw hfit hc

theorem Preordered.adjacent (h : Preordered es) : Preorder.Adjacent (Parent es) es := by
  intro pre x d post hsplit a hda
  have hx : x ∈ es := by rw [hsplit]; simp
  have hd : d ∈ es := by rw [hsplit]; simp
  have hsplit' : es = (pre ++ [x]) ++ d :: post := by rw [hsplit]; simp
  have hbelow : x.isMeta = false → Preorder.Below (OwnParent es) x a →
      Preorder.Below (Parent es) x a := fun hm => (below_ownParent_iff hw hfit hx hm).mp
  cases hxm : x.isMeta <;> cases hdm : d.isMeta
  · -- two ordinary events
    have hown := (parent_iff_own hdm).mp hda
    refine (h pre x [] d post hsplit hxm hdm (fun m hm => absurd hm List.not_mem_nil) a hown).imp id
      (hbelow hxm)
  · -- a meta event behind an ordinary one: under its parent, or under that of the next one
    have hgap : es = pre ++ x :: ([] ++ d :: post) := hsplit
    have hprev : prevNonMeta es d = x :=
      prevNonMeta_eq hw.nodup hgap hxm fun m hm => absurd hm List.not_mem_nil
    have hab := ((parent_iff_above hc hd).mp hda).2
    rw [above, if_pos hdm, nestedUuid, hprev] at hab
    split_ifs at hab with hlt
    · obtain ⟨ms, p, q, rfl, hp, hms, hnext⟩ := next_of_level_lt hw.nodup hsplit' hdm hlt
      rw [hnext] at hab
      refine (h pre x (d :: ms) p q hsplit hxm hp (fun m hm => ?_) a ⟨hda.1, hab⟩).imp id
        (hbelow hxm)
      rcases List.mem_cons.mp hm with rfl | hm
      · exact hdm
      · exact hms m hm
    · exact .inr (.single ((parent_iff_own hxm).mpr ⟨hda.1, hab⟩))
  · -- an ordinary event behind a meta event
    have hown := (parent_iff_own hdm).mp hda
    have hgap : es = pre ++ x :: ([] ++ d :: post) := hsplit
    have hnext : nextNonMeta es x = d :=
      nextNonMeta_eq hw.nodup hgap hdm fun m hm => absurd hm List.not_mem_nil
    right
    have hparent : ∀ b, b ∈ es → above es x = b.uuid → Parent es x b := fun b hb hab =>
      (parent_iff_above hc hx).mpr ⟨hb, hab⟩
    rw [above, if_pos hxm, nestedUuid, hnext] at hparent
    split_ifs at hparent with hlt
    · exact .single (hparent a hown.1 hown.2)
    · rcases prevNonMeta_cases hw.nodup hsplit with ⟨q, n, ms, rfl, hn, hms, hprev⟩ | ⟨hpre, -⟩
      · rw [hprev] at hparent hlt
        have hsplit₂ : es = q ++ n :: ((ms ++ [x]) ++ d :: post) := by rw [hsplit]; simp
        have hnmem : n ∈ es := by rw [hsplit₂]; simp
        have hmeta : ∀ m ∈ ms ++ [x], m.isMeta = true := by
          intro m hm
          rcases List.mem_append.mp hm with hm | hm
          · exact hms m hm
          · rw [List.mem_singleton.mp hm, hxm]
        rcases h q n (ms ++ [x]) d post hsplit₂ hn hdm hmeta a hown with han | hna
        · exact absurd han (ne_of_level_le hw hfit hsplit₂ hdm (Nat.not_lt.mp hlt) hown)
        · -- what is above the ordinary event is above the meta event
          obtain ⟨b, hnb, hba⟩ := Relation.TransGen.head'_iff.mp
            ((below_ownParent_iff hw hfit hnmem hn).mp hna)
          have hnb' := (parent_iff_own hn).mp hnb
          exact Relation.TransGen.head'_iff.mpr ⟨b, hparent b hnb'.1 hnb'.2, hba⟩
      · have hempty := parentUuid_of_first hw hfit hsplit' fun m hm => by
          rcases List.mem_append.mp hm with hm | hm
          · exact hpre m hm
          · rw [List.mem_singleton.mp hm, hxm]
        rw [hown.2] at hempty
        exact absurd hempty (hw.named a hown.1)
  · -- two meta events
    have hab := ((parent_iff_above hc hd).mp hda).2
    rw [above_eq_of_meta hw.nodup hsplit hxm hdm] at hab
    exact .inr (.single ((parent_iff_above hc hx).mpr ⟨hda.1, hab⟩))

theorem preordered_of_adjacent (h : Preorder.Adjacent (Parent es) es) : Preordered es := by
  intro q n ms n' q' hsplit hn hn' hms a hown
  have hnmem : n ∈ es := by rw [hsplit]; simp
  have hback : a = n ∨ Preorder.Below (Parent es) n a →
      a = n ∨ Preorder.Below (OwnParent es) n a :=
    fun hor => hor.imp id (below_ownParent_iff hw hfit hnmem hn).mpr
  have hpar := (parent_iff_own hn').mpr hown
  refine hback ?_
  by_cases hempty : ms = []
  · subst hempty
    exact h q n n' q' hsplit a hpar
  · by_cases hlt : n.level < n'.level
    · -- the first meta event between them is counted under the same event
      obtain ⟨m, ms', rfl⟩ := List.exists_cons_of_ne_nil hempty
      have hm : m.isMeta = true := hms m List.mem_cons_self
      have hmem : m ∈ es := by rw [hsplit]; simp
      have hms' : ∀ x ∈ ms', x.isMeta = true := fun x hx => hms x (List.mem_cons_of_mem _ hx)
      have hgap : es = q ++ n :: ([] ++ m :: (ms' ++ n' :: q')) := hsplit
      have hprev : prevNonMeta es m = n :=
        prevNonMeta_eq hw.nodup hgap hn fun x hx => absurd hx List.not_mem_nil
      have hgap' : es = (q ++ [n]) ++ m :: (ms' ++ n' :: q') := by rw [hsplit]; simp
      have hnext : nextNonMeta es m = n' := nextNonMeta_eq hw.nodup hgap' hn' hms'
      refine h q n m (ms' ++ n' :: q') hsplit a ((parent_iff_above hc hmem).mpr ⟨hown.1, ?_⟩)
      rw [above, if_pos hm, hprev, hnext, nestedUuid, if_pos hlt, hown.2]
    · -- the last one is counted under the parent of the first
      obtain ⟨ms', m, rfl⟩ := List.eq_nil_or_concat ms |>.resolve_left hempty
      rw [List.concat_eq_append] at hsplit hms
      have hm : m.isMeta = true := hms m (by simp)
      have hmem : m ∈ es := by rw [hsplit]; simp
      have hms' : ∀ x ∈ ms', x.isMeta = true := fun x hx => hms x (List.mem_append_left _ hx)
      have hgap : es = q ++ n :: (ms' ++ m :: n' :: q') := by rw [hsplit]; simp
      have hprev : prevNonMeta es m = n := prevNonMeta_eq hw.nodup hgap hn hms'
      have hgap' : es = (q ++ n :: ms') ++ m :: ([] ++ n' :: q') := by rw [hsplit]; simp
      have hnext : nextNonMeta es m = n' :=
        nextNonMeta_eq hw.nodup hgap' hn' fun x hx => absurd hx List.not_mem_nil
      have habove : above es m = n.parentUuid := by
        rw [above, if_pos hm, hprev, hnext, nestedUuid, if_neg hlt]
      rcases h (q ++ n :: ms') m n' q' (by rw [hsplit]; simp) a hpar with rfl | hbelow
      · rw [hpar.ordinary hw hfit (by rw [hsplit]; simp)] at hm
        cases hm
      · obtain ⟨b, hmb, hba⟩ := Relation.TransGen.head'_iff.mp hbelow
        obtain ⟨hb, hbu⟩ := (parent_iff_above hc hmem).mp hmb
        rw [habove] at hbu
        exact .inr (Relation.TransGen.head'_iff.mpr
          ⟨b, (parent_iff_own hn).mpr ⟨hb, hbu⟩, hba⟩)

theorem adjacent_iff_preordered : Preorder.Adjacent (Parent es) es ↔ Preordered es :=
  ⟨preordered_of_adjacent hw hfit hc, Preordered.adjacent hw hfit hc⟩

end Counted

end Forail.JobEvents
