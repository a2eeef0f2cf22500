import Mathlib.Data.List.Nodup

/-! Lists of records with a key: change or remove the record of a key, and what that does
to the number of records with a property when the keys are distinct. -/

namespace Forail.Keyed

variable {α κ : Type*} [DecidableEq κ] (key : α → κ)

def find (l : List α) (k : κ) : Option α := l.find? fun x => key x = k

def modify (l : List α) (k : κ) (f : α → α) : List α := l.map fun x => if key x = k then f x else x

def remove (l : List α) (k : κ) : List α := l.filter fun x => key x ≠ k

variable {key}

theorem find_some {l : List α} {k : κ} {x : α} (h : find key l k = some x) : x ∈ l ∧ key x = k := by
  refine ⟨List.mem_of_find?_eq_some h, ?_⟩
  simpa using List.find?_some h

theorem find_of_mem {l : List α} (h : (l.map key).Nodup) {x : α} (hx : x ∈ l) :
    find key l (key x) = some x := by
  cases hf : find key l (key x) with
  | none =>
    have hne := List.find?_eq_none.mp hf x hx
    simp at hne
  | some y =>
    obtain ⟨hy, hk⟩ := find_some hf
    rw [List.inj_on_of_nodup_map h hy hx hk]

theorem mem_modify {l : List α} {k : κ} {f : α → α} {y : α} :
    y ∈ modify key l k f ↔ ∃ x ∈ l, y = if key x = k then f x else x := by
  simp only [modify, List.mem_map, eq_comm]

theorem mem_remove {l : List α} {k : κ} {x : α} : x ∈ remove key l k ↔ x ∈ l ∧ key x ≠ k := by
  simp [remove]

theorem keys_modify {l : List α} {k : κ} {f : α → α} (hf : ∀ x, key (f x) = key x) :
    (modify key l k f).map key = l.map key := by
  rw [modify, List.map_map]
  apply List.map_congr_left
  intro x _
  rw [Function.comp_apply]
  split_ifs
  · exact hf x
  · rfl

theorem nodup_remove {l : List α} (h : (l.map key).Nodup) (k : κ) :
    ((remove key l k).map key).Nodup :=
  h.sublist (List.filter_sublist.map key)

omit [DecidableEq κ] in
/-- Distinct keys: the record found is the only one with its key. -/
theorem eq_of_key {l : List α} (h : (l.map key).Nodup) {x y : α} (hx : x ∈ l) (hy : y ∈ l)
    (hk : key x = key y) : x = y :=
  List.inj_on_of_nodup_map h hx hy hk

theorem modify_of_not_mem {l : List α} {k : κ} (h : k ∉ l.map key) (f : α → α) :
    modify key l k f = l := by
  have hid : ∀ x ∈ l, (if key x = k then f x else x) = id x := fun x hx =>
    if_neg fun he : key x = k => h (he ▸ List.mem_map_of_mem hx)
  rw [modify, List.map_congr_left hid, List.map_id]

theorem remove_of_not_mem {l : List α} {k : κ} (h : k ∉ l.map key) : remove key l k = l := by
  rw [remove, List.filter_eq_self]
  intro x hx
  simpa using fun he : key x = k => h (he ▸ List.mem_map_of_mem hx)

/-- Distinct keys: the list around one of its records, which is all that `modify` and
`remove` at the key of the record change. -/
theorem split_of_mem {l : List α} (h : (l.map key).Nodup) {x : α} (hx : x ∈ l) :
    ∃ l₁ l₂, l = l₁ ++ x :: l₂ ∧ (∀ f, modify key l (key x) f = l₁ ++ f x :: l₂) ∧
      remove key l (key x) = l₁ ++ l₂ := by
  obtain ⟨l₁, l₂, rfl⟩ := List.append_of_mem hx
  rw [List.map_append, List.map_cons, List.nodup_append, List.nodup_cons] at h
  obtain ⟨-, ⟨h₂, -⟩, hd⟩ := h
  have h₁ : key x ∉ l₁.map key := fun hm => hd _ hm _ List.mem_cons_self rfl
  have hm := fun f => modify_of_not_mem h₁ f
  have hm₂ := fun f => modify_of_not_mem h₂ f
  have hr := remove_of_not_mem h₁
  have hr₂ := remove_of_not_mem h₂
  simp only [modify, remove] at hm hm₂ hr hr₂ ⊢
  refine ⟨l₁, l₂, rfl, fun f => ?_, ?_⟩
  · rw [List.map_append, List.map_cons, hm, hm₂, if_pos rfl]
  · rw [List.filter_append, List.filter_cons_of_neg (by simp), hr, hr₂]

theorem countP_modify {l : List α} (h : (l.map key).Nodup) {x : α} (hx : x ∈ l) (f : α → α)
    (p : α → Bool) : (modify key l (key x) f).countP p + (if p x then 1 else 0) =
      l.countP p + if p (f x) then 1 else 0 := by
  obtain ⟨l₁, l₂, rfl, hm, -⟩ := split_of_mem h hx
  rw [hm, List.countP_append, List.countP_append, List.countP_cons, List.countP_cons]
  omega

theorem countP_remove {l : List α} (h : (l.map key).Nodup) {x : α} (hx : x ∈ l) (p : α → Bool) :
    (remove key l (key x)).countP p + (if p x then 1 else 0) = l.countP p := by
  obtain ⟨l₁, l₂, rfl, -, hr⟩ := split_of_mem h hx
  rw [hr, List.countP_append, List.countP_append, List.countP_cons]
  omega

theorem modify_append (l l' : List α) (k : κ) (f : α → α) :
    modify key (l ++ l') k f = modify key l k f ++ modify key l' k f := List.map_append

theorem modify_modify {l : List α} {k : κ} {f g : α → α} (hf : ∀ x, key (f x) = key x) :
    modify key (modify key l k f) k g = modify key l k fun x => g (f x) := by
  rw [modify, modify, modify, List.map_map]
  refine List.map_congr_left fun x _ => ?_
  rw [Function.comp_apply]
  by_cases hx : key x = k
  · rw [if_pos hx, if_pos ((hf x).trans hx), if_pos hx]
  · rw [if_neg hx, if_neg hx, if_neg hx]

/-- A loop that changes one record each of some new ones, behind others. -/
theorem foldl_modify {ν : Type*} {ns : List ν} {k : ν → κ} {f : ν → α → α} {g : ν → α} {before : List α}
    (hk : (ns.map k).Nodup) (hg : ∀ n ∈ ns, key (g n) = k n) (hf : ∀ n ∈ ns, key (f n (g n)) = k n)
    (hbefore : ∀ x ∈ before, key x ∉ ns.map k) :
    ns.foldl (fun l n => modify key l (k n) (f n)) (before ++ ns.map g) =
      before ++ ns.map fun n => f n (g n) := by
  induction ns generalizing before with
  | nil => rfl
  | cons n ns ih =>
    rw [List.map_cons, List.nodup_cons] at hk
    have hfirst : modify key before (k n) (f n) = before := by
      refine modify_of_not_mem (fun hmem => ?_) _
      obtain ⟨x, hx, heq⟩ := List.mem_map.mp hmem
      exact hbefore x hx (heq ▸ List.mem_cons_self)
    have hrest : modify key (ns.map g) (k n) (f n) = ns.map g := by
      refine modify_of_not_mem (fun hmem => hk.1 ?_) _
      rw [List.map_map] at hmem
      obtain ⟨m, hm, heq⟩ := List.mem_map.mp hmem
      exact List.mem_map.mpr ⟨m, hm, (hg m (List.mem_cons_of_mem n hm)).symm.trans heq⟩
    have hhead : modify key [g n] (k n) (f n) = [f n (g n)] := by
      simp [modify, hg n List.mem_cons_self]
    have hstep : modify key (before ++ g n :: ns.map g) (k n) (f n) =
        (before ++ [f n (g n)]) ++ ns.map g := by
      rw [← List.singleton_append, modify_append, modify_append, hfirst, hhead, hrest, List.append_assoc]
    rw [List.foldl_cons, List.map_cons, hstep, ih hk.2 (fun m hm => hg m (List.mem_cons_of_mem n hm))
      (fun m hm => hf m (List.mem_cons_of_mem n hm)), List.map_cons, List.append_assoc,
      List.singleton_append]
    intro x hx
    rcases List.mem_append.mp hx with hx | hx
    · exact fun hmem => hbefore x hx (List.mem_cons_of_mem _ hmem)
    · rw [List.mem_singleton.mp hx, hf n List.mem_cons_self]
      exact hk.1

end Forail.Keyed

/-! The related objects of a many-to-many field: distinct ids in the order in which they were added. -/

namespace Forail

@[ext]
structure Related (κ : Type*) where
  ids : List κ
  nodup : ids.Nodup

namespace Related

variable {κ ι : Type*} [DecidableEq κ]

instance : Membership κ (Related κ) := ⟨fun r k => k ∈ r.ids⟩

omit [DecidableEq κ] in
theorem mem_def {r : Related κ} {k : κ} : k ∈ r ↔ k ∈ r.ids := Iff.rfl

instance (k : κ) (r : Related κ) : Decidable (k ∈ r) := inferInstanceAs (Decidable (k ∈ r.ids))

def empty : Related κ := ⟨[], List.nodup_nil⟩

/-- An object that is related already is not added again. -/
def add (r : Related κ) (k : κ) : Related κ :=
  if h : k ∈ r.ids then r
  else ⟨r.ids ++ [k], List.nodup_append'.mpr ⟨r.nodup, List.nodup_singleton k, by simpa using h⟩⟩

theorem ids_add (r : Related κ) (k : κ) : (r.add k).ids = if k ∈ r.ids then r.ids else r.ids ++ [k] := by
  unfold add
  split_ifs <;> rfl

@[simp] theorem mem_add {r : Related κ} {k k' : κ} : k' ∈ r.add k ↔ k' ∈ r ∨ k' = k := by
  rw [mem_def, mem_def, ids_add]
  split_ifs with h
  · exact (or_iff_left_of_imp fun heq => heq ▸ h).symm
  · simp

/-- One object after the other, as a loop adds them. -/
def addAll (r : Related κ) (ks : List κ) : Related κ := ks.foldl add r

theorem ids_addAll {r : Related κ} {ks : List κ} (h : (r.ids ++ ks).Nodup) :
    (r.addAll ks).ids = r.ids ++ ks := by
  induction ks generalizing r with
  | nil => simp [addAll]
  | cons k ks ih =>
    have hk : k ∉ r.ids := fun hmem => (List.disjoint_of_nodup_append h) hmem List.mem_cons_self
    have hids : (r.add k).ids = r.ids ++ [k] := by rw [ids_add, if_neg hk]
    have hrest : ((r.add k).ids ++ ks).Nodup := by
      rw [hids, List.append_assoc]
      exact h
    rw [addAll, List.foldl_cons]
    have hall := ih hrest
    rw [addAll, hids, List.append_assoc] at hall
    exact hall

/-- A copy that adds the objects of another. -/
@[simp] theorem addAll_empty (r : Related κ) : empty.addAll r.ids = r := by
  ext1
  rw [ids_addAll (by simpa [empty] using r.nodup)]
  rfl

/-- The objects that correspond to those of another, under a correspondence of objects. -/
theorem ids_addAll_map [DecidableEq ι] {f : ι → κ} {r : Related ι}
    (h : ∀ a ∈ r.ids, ∀ b ∈ r.ids, f a = f b → a = b) :
    ((empty : Related κ).addAll (r.ids.map f)).ids = r.ids.map f := by
  rw [ids_addAll]
  · rfl
  · exact (List.nodup_map_iff_inj_on r.nodup).mpr h

end Related

end Forail
