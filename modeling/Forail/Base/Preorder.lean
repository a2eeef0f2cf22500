import Mathlib.Data.List.Induction
import Mathlib.Data.List.Nodup
import Mathlib.Logic.Relation

/-! Forests laid out in a list, every node somewhere after its parent. The descendants of each
node stand right behind it exactly when the parent of every node is the node before it or one of
that node's ancestors. -/

namespace Forail.Preorder

variable {α : Type*} {l : List α} {Parent : α → α → Prop}

/-- The second node is above the first. -/
def Below (Parent : α → α → Prop) : α → α → Prop := Relation.TransGen Parent

/-- The parent of a node is the one before it or above that one. -/
def Adjacent (Parent : α → α → Prop) (l : List α) : Prop :=
  ∀ pre x d post, l = pre ++ x :: d :: post → ∀ a, Parent d a → a = x ∨ Below Parent x a

/-- What holds of a node and with each node also of the one before it holds of all before. -/
theorem forall_mem_of_adjacent {D : α → Prop} {rest : List α}
    (hD : ∀ pre x d post, rest = pre ++ x :: d :: post → D d → D x) {pre post : List α} {d : α}
    (hrest : rest = pre ++ d :: post) (hd : D d) : ∀ x ∈ pre, D x := by
  induction pre using List.reverseRecOn generalizing d post with
  | nil => exact fun x hx => absurd hx List.not_mem_nil
  | append_singleton pre x ih =>
    rw [List.append_assoc, List.singleton_append] at hrest
    have hx := hD pre x d post hrest hd
    intro y hy
    rcases List.mem_append.mp hy with hy | hy
    · exact ih hrest hx y hy
    · rw [List.mem_singleton.mp hy]
      exact hx

variable [DecidableEq α]

theorem idxOf_split {pre post : List α} {a : α} (hl : l.Nodup) (h : l = pre ++ a :: post) :
    l.idxOf a = pre.length := by
  subst h
  have ha : a ∉ pre := fun ha =>
    (List.nodup_append.mp hl).2.2 a ha a List.mem_cons_self rfl
  rw [List.idxOf_append_of_notMem ha, List.idxOf_cons_self, Nat.add_zero]

/-- The nodes after a node that have a property are the first ones, as many as there are. -/
theorem mem_iff_le_countP (hl : l.Nodup) {pre rest : List α} {a : α} (h : l = pre ++ a :: rest)
    (D : α → Prop) [DecidablePred D] (hpre : ∀ x ∈ pre, ¬ D x) (ha : ¬ D a)
    (hD : ∀ p x d q, rest = p ++ x :: d :: q → D d → D x) {d : α} (hd : d ∈ l) :
    D d ↔ l.idxOf a < l.idxOf d ∧ l.idxOf d ≤ l.idxOf a + l.countP (fun x => D x) := by
  have hcount : l.countP (fun x => D x) = rest.countP (fun x => D x) := by
    rw [h, List.countP_append, List.countP_cons, List.countP_eq_zero.mpr (by simpa using hpre)]
    simp [ha]
  rw [hcount, idxOf_split hl h]
  have hcases : d ∈ pre ∨ d = a ∨ d ∈ rest := by
    rw [h] at hd
    rcases List.mem_append.mp hd with hd | hd
    · exact .inl hd
    · exact .inr (List.mem_cons.mp hd)
  rcases hcases with hd | rfl | hd
  · have hlt : l.idxOf d < pre.length := by
      rw [h, List.idxOf_append_of_mem hd]
      exact List.idxOf_lt_length_of_mem hd
    exact ⟨fun hdd => absurd hdd (hpre d hd), fun hi => by omega⟩
  · rw [idxOf_split hl h]
    exact ⟨fun hdd => absurd hdd ha, fun hi => by omega⟩
  · obtain ⟨p, q, rfl⟩ := List.append_of_mem hd
    have hidx : l.idxOf d = pre.length + 1 + p.length := by
      rw [idxOf_split hl (h.trans (by simp : _ = (pre ++ a :: p) ++ d :: q)), List.length_append,
        List.length_cons]
      omega
    rw [hidx, List.countP_append, List.countP_cons]
    constructor
    · intro hdd
      have hp : p.countP (fun x => D x) = p.length :=
        List.countP_eq_length.mpr fun x hx =>
          decide_eq_true (forall_mem_of_adjacent hD rfl hdd x hx)
      simp only [hp, hdd, decide_true, if_true]
      omega
    · intro hi
      by_contra hdd
      -- none of the later ones has it either
      have hq : q.countP (fun x => D x) = 0 := by
        refine List.countP_eq_zero.mpr fun x hx hDx => hdd ?_
        obtain ⟨q₁, q₂, rfl⟩ := List.append_of_mem hx
        have hrest : p ++ d :: (q₁ ++ x :: q₂) = (p ++ d :: q₁) ++ x :: q₂ := by simp
        exact forall_mem_of_adjacent hD hrest (of_decide_eq_true hDx) d (by simp)
      have hle : p.countP (fun x => D x) ≤ p.length := List.countP_le_length
      simp only [hq, hdd, decide_false] at hi
      simp only [Bool.false_eq_true, if_false] at hi
      omega

variable (hl : l.Nodup) (hbefore : ∀ d a, d ∈ l → Parent d a → a ∈ l ∧ l.idxOf a < l.idxOf d)
include hl hbefore

omit hl in
theorem idxOf_lt_of_below {d a : α} (hd : d ∈ l) (h : Below Parent d a) :
    a ∈ l ∧ l.idxOf a < l.idxOf d := by
  induction h with
  | single hp => exact hbefore d _ hd hp
  | tail _ hp ih => exact ⟨(hbefore _ _ ih.1 hp).1, Nat.lt_trans (hbefore _ _ ih.1 hp).2 ih.2⟩

theorem Adjacent.below_iff [∀ a, DecidablePred fun d => Below Parent d a]
    (h : Adjacent Parent l) {a d : α} (ha : a ∈ l) (hd : d ∈ l) :
    Below Parent d a ↔
      l.idxOf a < l.idxOf d ∧ l.idxOf d ≤ l.idxOf a + l.countP (fun d => Below Parent d a) := by
  obtain ⟨pre, rest, hsplit⟩ := List.append_of_mem ha
  have hlow : ∀ x ∈ l, l.idxOf x ≤ pre.length → ¬ Below Parent x a := by
    intro x hx hle hb
    have hlt := (idxOf_lt_of_below hbefore hx hb).2
    rw [idxOf_split hl hsplit] at hlt
    omega
  refine mem_iff_le_countP hl hsplit (fun d => Below Parent d a) (fun x hx => ?_) ?_ ?_ hd
  · refine hlow x (by rw [hsplit]; exact List.mem_append_left _ hx) ?_
    rw [hsplit, List.idxOf_append_of_mem hx]
    exact Nat.le_of_lt (List.idxOf_lt_length_of_mem hx)
  · exact hlow a ha (Nat.le_of_eq (idxOf_split hl hsplit))
  · intro p x d q hrest hda
    have hadj : l = (pre ++ a :: p) ++ x :: d :: q := by
      rw [hsplit, hrest]
      simp
    have hxa : a ≠ x := by
      rintro rfl
      have hx := idxOf_split hl hadj
      rw [idxOf_split hl hsplit, List.length_append, List.length_cons] at hx
      omega
    obtain ⟨b, hdb, hba⟩ := Relation.TransGen.head'_iff.mp hda
    rcases h _ x d q hadj b hdb with rfl | hxb
    · rcases Relation.reflTransGen_iff_eq_or_transGen.mp hba with heq | hba
      · exact absurd heq hxa
      · exact hba
    · exact Relation.TransGen.trans_left hxb hba

theorem adjacent_of_below [∀ a, DecidablePred fun d => Below Parent d a]
    (h : ∀ a ∈ l, ∀ d ∈ l, l.idxOf a < l.idxOf d →
      l.idxOf d ≤ l.idxOf a + l.countP (fun d => Below Parent d a) → Below Parent d a)
    (h' : ∀ a ∈ l, ∀ d ∈ l, Below Parent d a →
      l.idxOf d ≤ l.idxOf a + l.countP (fun d => Below Parent d a)) :
    Adjacent Parent l := by
  intro pre x d post hsplit a hda
  have hd : d ∈ l := by simp [hsplit]
  have hx : x ∈ l := by simp [hsplit]
  obtain ⟨ha, hlt⟩ := hbefore d a hd hda
  by_cases hax : a = x
  · exact .inl hax
  · right
    have hxi := idxOf_split hl hsplit
    have hdi := idxOf_split hl (hsplit.trans (by simp : _ = (pre ++ [x]) ++ d :: post))
    rw [List.length_append, List.length_singleton] at hdi
    have hne : l.idxOf a ≠ l.idxOf x := fun hi => hax (List.idxOf_inj ha |>.mp hi)
    have hle := h' a ha d hd (.single hda)
    exact h a ha x hx (by omega) (by omega)

/-- The descendants of every node are the nodes right behind it, as many as it has. -/
theorem adjacent_iff [∀ a, DecidablePred fun d => Below Parent d a] :
    Adjacent Parent l ↔ ∀ a ∈ l, ∀ d ∈ l, Below Parent d a ↔
      l.idxOf a < l.idxOf d ∧ l.idxOf d ≤ l.idxOf a + l.countP (fun d => Below Parent d a) :=
  ⟨fun h _ ha _ hd => h.below_iff hl hbefore ha hd, fun h =>
    adjacent_of_below hl hbefore (fun a ha d hd hlt hle => (h a ha d hd).mpr ⟨hlt, hle⟩)
      fun a ha d hd hda => ((h a ha d hd).mp hda).2⟩

end Forail.Preorder
