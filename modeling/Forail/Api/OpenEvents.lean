import Forail.Api.EventLineage
import Mathlib.Data.List.TakeWhile
import Mathlib.Tactic.SplitIfs

/-! What stands around an event in the order of the counters: the ordinary events before and
after it, and the events that are open when it comes. -/

namespace Forail.JobEvents

def before (es : List JobEvent) (e : JobEvent) : List JobEvent := es.takeWhile fun x => x ≠ e

def after (es : List JobEvent) (e : JobEvent) : List JobEvent :=
  (es.dropWhile fun x => x ≠ e).tail

/-- The last ordinary event before this one, or else the first event of all. -/
def prevNonMeta (es : List JobEvent) (e : JobEvent) : JobEvent :=
  ((before es e).reverse.find? fun x => !x.isMeta).getD (es.headD e)

/-- The first ordinary event after this one, or else the last event of all. -/
def nextNonMeta (es : List JobEvent) (e : JobEvent) : JobEvent :=
  ((after es e).find? fun x => !x.isMeta).getD (es.getLastD e)

/-- The uuid of the event that this one is counted under. -/
def above (es : List JobEvent) (e : JobEvent) : String :=
  if e.isMeta then nestedUuid (prevNonMeta es e) (nextNonMeta es e) else e.parentUuid

/-- An ordinary event with this uuid is open: only those of lower levels have come after it. -/
def Open (pre : List JobEvent) (u : String) : Prop :=
  ∃ q p q', pre = q ++ p :: q' ∧ p.isMeta = false ∧ p.uuid = u ∧
    ∀ x ∈ q', x.isMeta = false → p.level < x.level

/-- The event has no parent, or one that is open when it comes. -/
def Fits (es : List JobEvent) (e : JobEvent) : Prop :=
  e.parentUuid = "" ∨ Open (before es e ++ [e]) e.parentUuid

variable {es pre post : List JobEvent} {e : JobEvent}

/-! ### Around an event -/

theorem not_mem_of_split (hnd : es.Nodup) (h : es = pre ++ e :: post) : e ∉ pre := by
  subst h
  exact fun he => (List.nodup_append.mp hnd).2.2 e he e List.mem_cons_self rfl

theorem before_of_split (hnd : es.Nodup) (h : es = pre ++ e :: post) : before es e = pre := by
  have hne : ∀ x ∈ pre, decide (x ≠ e) = true := fun x hx =>
    decide_eq_true fun hxe => not_mem_of_split hnd h (hxe ▸ hx)
  rw [before, h, List.takeWhile_append_of_pos hne, List.takeWhile_cons_of_neg (by simp),
    List.append_nil]

theorem after_of_split (hnd : es.Nodup) (h : es = pre ++ e :: post) : after es e = post := by
  have hne : ∀ x ∈ pre, decide (x ≠ e) = true := fun x hx =>
    decide_eq_true fun hxe => not_mem_of_split hnd h (hxe ▸ hx)
  rw [after, h, List.dropWhile_append_of_pos hne, List.dropWhile_cons_of_neg (by simp),
    List.tail_cons]

theorem split_of_mem (he : e ∈ es) (hnd : es.Nodup) : es = before es e ++ e :: after es e := by
  obtain ⟨pre, post, h⟩ := List.append_of_mem he
  rw [before_of_split hnd h, after_of_split hnd h]
  exact h

theorem above_of_ordinary (he : e.isMeta = false) : above es e = e.parentUuid := by
  rw [above, if_neg (by rw [he]; exact Bool.false_ne_true)]

/-- A meta event with an ordinary event before it. -/
theorem prevNonMeta_eq (hnd : es.Nodup) {q : List JobEvent} {p : JobEvent} {ms : List JobEvent}
    (h : es = q ++ p :: (ms ++ e :: post)) (hp : p.isMeta = false)
    (hms : ∀ m ∈ ms, m.isMeta = true) : prevNonMeta es e = p := by
  have hsplit : es = (q ++ p :: ms) ++ e :: post := by rw [h]; simp
  have hfind : (q ++ p :: ms).reverse.find? (fun x => !x.isMeta) = some p := by
    rw [List.reverse_append, List.reverse_cons, List.append_assoc, List.singleton_append]
    refine List.find?_eq_some_iff_append.mpr ⟨by simp [hp], ms.reverse, q.reverse, rfl, ?_⟩
    intro m hm
    rw [hms m (List.mem_reverse.mp hm)]
    rfl
  rw [prevNonMeta, before_of_split hnd hsplit, hfind, Option.getD_some]

theorem nextNonMeta_eq (hnd : es.Nodup) {q : List JobEvent} {p : JobEvent} {ms : List JobEvent}
    (h : es = pre ++ e :: (ms ++ p :: q)) (hp : p.isMeta = false)
    (hms : ∀ m ∈ ms, m.isMeta = true) : nextNonMeta es e = p := by
  have hfind : (ms ++ p :: q).find? (fun x => !x.isMeta) = some p := by
    refine List.find?_eq_some_iff_append.mpr ⟨by simp [hp], ms, q, rfl, ?_⟩
    intro m hm
    rw [hms m hm]
    rfl
  rw [nextNonMeta, after_of_split hnd h, hfind, Option.getD_some]

/-- Either an ordinary event is the last one before, or there is none. -/
theorem prevNonMeta_cases (hnd : es.Nodup) (h : es = pre ++ e :: post) :
    (∃ q p ms, pre = q ++ p :: ms ∧ p.isMeta = false ∧ (∀ m ∈ ms, m.isMeta = true) ∧
      prevNonMeta es e = p) ∨
    (∀ m ∈ pre, m.isMeta = true) ∧ prevNonMeta es e = es.headD e := by
  cases hfind : pre.reverse.find? (fun x => !x.isMeta) with
  | some p =>
    obtain ⟨hp, ms, q, hpre, hms⟩ := List.find?_eq_some_iff_append.mp hfind
    have hpre' : pre = q.reverse ++ p :: ms.reverse := by
      rw [← List.reverse_reverse pre, hpre]
      simp
    refine .inl ⟨q.reverse, p, ms.reverse, hpre', by simpa using hp, fun m hm => ?_, ?_⟩
    · simpa using hms m (List.mem_reverse.mp hm)
    · rw [prevNonMeta, before_of_split hnd h, hfind, Option.getD_some]
  | none =>
    refine .inr ⟨fun m hm => ?_, ?_⟩
    · simpa using List.find?_eq_none.mp hfind m (List.mem_reverse.mpr hm)
    · rw [prevNonMeta, before_of_split hnd h, hfind, Option.getD_none]

theorem nextNonMeta_cases (hnd : es.Nodup) (h : es = pre ++ e :: post) :
    (∃ ms p q, post = ms ++ p :: q ∧ p.isMeta = false ∧ (∀ m ∈ ms, m.isMeta = true) ∧
      nextNonMeta es e = p) ∨
    (∀ m ∈ post, m.isMeta = true) ∧ nextNonMeta es e = (e :: post).getLastD e := by
  cases hfind : post.find? (fun x => !x.isMeta) with
  | some p =>
    obtain ⟨hp, ms, q, hpost, hms⟩ := List.find?_eq_some_iff_append.mp hfind
    refine .inl ⟨ms, p, q, hpost, by simpa using hp, fun m hm => by simpa using hms m hm, ?_⟩
    rw [nextNonMeta, after_of_split hnd h, hfind, Option.getD_some]
  | none =>
    refine .inr ⟨fun m hm => by simpa using List.find?_eq_none.mp hfind m hm, ?_⟩
    rw [nextNonMeta, after_of_split hnd h, hfind, Option.getD_none, h,
      List.getLastD_eq_getLast?, List.getLastD_eq_getLast?, List.getLast?_append]
    cases hlast : (e :: post).getLast? with
    | none => exact absurd (List.getLast?_eq_none_iff.mp hlast) (List.cons_ne_nil e post)
    | some x => rfl

theorem EventType.level_of_isMeta {t : EventType} (h : t.isMeta = true) : t.level = 0 := by
  cases t <;> first | rfl | cases h

theorem EventType.level_lt (t : EventType) : t.level < 4 := by
  cases t <;> decide

/-- Where the level rises behind a meta event, an ordinary event follows. -/
theorem next_of_level_lt (hnd : es.Nodup) (h : es = pre ++ e :: post) (he : e.isMeta = true) {n : ℕ}
    (hn : n < (nextNonMeta es e).level) :
    ∃ ms p q, post = ms ++ p :: q ∧ p.isMeta = false ∧ (∀ m ∈ ms, m.isMeta = true) ∧
      nextNonMeta es e = p := by
  rcases nextNonMeta_cases hnd h with hex | ⟨hall, heq⟩
  · exact hex
  · have hmeta : (nextNonMeta es e).isMeta = true := by
      rw [heq, List.getLastD_cons]
      cases hpost : post.getLast? with
      | none =>
        rw [List.getLastD_eq_getLast?, hpost]
        exact he
      | some m =>
        rw [List.getLastD_eq_getLast?, hpost]
        exact hall m (List.mem_of_getLast? hpost)
    rw [JobEvent.level, EventType.level_of_isMeta hmeta] at hn
    exact absurd hn (Nat.not_lt_zero n)

/-! ### The levels -/

/-- The level of the open event is told as well. -/
def OpenAt (pre : List JobEvent) (l : ℕ) (u : String) : Prop :=
  ∃ q p q', pre = q ++ p :: q' ∧ p.isMeta = false ∧ p.level = l ∧ p.uuid = u ∧
    ∀ x ∈ q', x.isMeta = false → l < x.level

theorem open_iff {u : String} : Open pre u ↔ ∃ l, OpenAt pre l u := by
  constructor
  · rintro ⟨q, p, q', h, hp, hu, hlow⟩
    exact ⟨p.level, q, p, q', h, hp, rfl, hu, hlow⟩
  · rintro ⟨l, q, p, q', h, hp, rfl, hu, hlow⟩
    exact ⟨q, p, q', h, hp, hu, hlow⟩

theorem append_singleton_eq {α : Type*} {pre q q' : List α} {e p : α}
    (h : pre ++ [e] = q ++ p :: q') :
    (q' = [] ∧ e = p ∧ pre = q) ∨ ∃ q'', q' = q'' ++ [e] ∧ pre = q ++ p :: q'' := by
  rcases List.eq_nil_or_concat q' with rfl | ⟨q'', x, rfl⟩
  · obtain ⟨hpre, he⟩ := List.append_inj' h rfl
    exact .inl ⟨rfl, (List.cons.inj he).1, hpre⟩
  · rw [List.concat_eq_append, ← List.cons_append, ← List.append_assoc] at h
    obtain ⟨hpre, he⟩ := List.append_inj' h rfl
    exact .inr ⟨q'', by rw [List.concat_eq_append, (List.cons.inj he).1], hpre⟩

theorem openAt_append_meta (he : e.isMeta = true) {l : ℕ} {u : String} :
    OpenAt (pre ++ [e]) l u ↔ OpenAt pre l u := by
  constructor
  · rintro ⟨q, p, q', h, hp, hl, hu, hlow⟩
    rcases append_singleton_eq h with ⟨-, rfl, -⟩ | ⟨q'', rfl, hpre⟩
    · rw [he] at hp
      cases hp
    · exact ⟨q, p, q'', hpre, hp, hl, hu, fun x hx => hlow x (List.mem_append_left _ hx)⟩
  · rintro ⟨q, p, q', rfl, hp, hl, hu, hlow⟩
    refine ⟨q, p, q' ++ [e], by simp, hp, hl, hu, fun x hx hxm => ?_⟩
    rcases List.mem_append.mp hx with hx | hx
    · exact hlow x hx hxm
    · rw [List.mem_singleton.mp hx, he] at hxm
      cases hxm

theorem openAt_append (he : e.isMeta = false) {l : ℕ} {u : String} :
    OpenAt (pre ++ [e]) l u ↔ l = e.level ∧ u = e.uuid ∨ l < e.level ∧ OpenAt pre l u := by
  constructor
  · rintro ⟨q, p, q', h, hp, rfl, rfl, hlow⟩
    rcases append_singleton_eq h with ⟨-, rfl, -⟩ | ⟨q'', rfl, hpre⟩
    · exact .inl ⟨rfl, rfl⟩
    · exact .inr ⟨hlow e (by simp) he, q, p, q'', hpre, hp, rfl, rfl,
        fun x hx => hlow x (List.mem_append_left _ hx)⟩
  · rintro (⟨rfl, rfl⟩ | ⟨hl, q, p, q', rfl, hp, rfl, rfl, hlow⟩)
    · exact ⟨pre, e, [], rfl, he, rfl, rfl, fun x hx => absurd hx List.not_mem_nil⟩
    · refine ⟨q, p, q' ++ [e], by simp, hp, rfl, rfl, fun x hx hxm => ?_⟩
      rcases List.mem_append.mp hx with hx | hx
      · exact hlow x hx hxm
      · rw [List.mem_singleton.mp hx]
        exact hl

/-- The levels after some events, as the loop keeps them. -/
def levelsOf (pre : List JobEvent) : List (Option String) :=
  pre.foldl (fun levels e => if e.isMeta then levels else openLevel levels e)
    [none, none, none, none]

theorem levelsOf_append (pre : List JobEvent) (e : JobEvent) :
    levelsOf (pre ++ [e]) = if e.isMeta then levelsOf pre else openLevel (levelsOf pre) e := by
  rw [levelsOf, List.foldl_append]
  rfl

theorem length_levelsOf (pre : List JobEvent) : (levelsOf pre).length = 4 := by
  induction pre using List.reverseRecOn with
  | nil => rfl
  | append_singleton pre e ih =>
    rw [levelsOf_append]
    split_ifs
    · exact ih
    · rw [openLevel, List.length_mapIdx, ih]

/-- A level holds the uuid of the event that is open on it. -/
theorem getElem?_levelsOf (pre : List JobEvent) (l : ℕ) (u : String) :
    (levelsOf pre)[l]? = some (some u) ↔ OpenAt pre l u := by
  induction pre using List.reverseRecOn with
  | nil =>
    constructor
    · intro h
      have hmem := List.mem_of_getElem? h
      exact absurd hmem (by simp [levelsOf])
    · rintro ⟨q, p, q', h, -⟩
      exact absurd h (by simp)
  | append_singleton pre e ih =>
    rw [levelsOf_append]
    by_cases he : e.isMeta = true
    · rw [if_pos he, openAt_append_meta he, ih]
    · rw [if_neg he, openAt_append (Bool.eq_false_iff.mpr he), openLevel, List.getElem?_mapIdx]
      by_cases hl : l = e.level
      · have hlt : l < (levelsOf pre).length := by
          rw [length_levelsOf, hl]
          exact e.event.level_lt
        rw [List.getElem?_eq_getElem hlt, Option.map_some, if_pos hl]
        simp [hl, eq_comm]
      · by_cases hlt : l < e.level
        · simp only [hl, if_false, Nat.lt_asymm hlt, hlt, true_and, false_and, false_or, ← ih,
            Option.map_id_fun', id]
        · have hlt' : e.level < l := by omega
          simp [hl, hlt, hlt']

theorem mem_levelsOf {u : String} : some u ∈ levelsOf pre ↔ Open pre u := by
  rw [open_iff, List.mem_iff_getElem?]
  exact exists_congr fun l => getElem?_levelsOf pre l u

end Forail.JobEvents
