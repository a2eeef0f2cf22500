import Mathlib.Data.Finset.Card
import Mathlib.Data.List.Basic
import Mathlib.Data.List.Chain
import Mathlib.Data.List.Nodup
import Mathlib.Logic.Relation
import Mathlib.Order.WellFounded

/-! Acyclic relations on a finite carrier. The number of listed vertices below a
vertex is a strictly decreasing height, which bounds recursion depths and makes
both the relation and its converse well founded. -/

namespace Forail.Acyclicity

open Relation

variable {α : Type*} {R : α → α → Prop}

/-- No vertex reaches itself by a nonempty path. -/
def Acyclic (R : α → α → Prop) : Prop := ∀ a, ¬ TransGen R a a

theorem Acyclic.irrefl (h : Acyclic R) (a : α) : ¬ R a a := fun ha => h a (.single ha)

theorem Acyclic.swap (h : Acyclic R) : Acyclic (Function.swap R) :=
  fun a ha => h a (transGen_swap.mp ha)

theorem Acyclic.mono {S : α → α → Prop} (h : Acyclic R) (hs : ∀ a b, S a b → R a b) : Acyclic S :=
  fun a ha => h a (TransGen.mono (p := R) hs a a ha)

/-- Edges that raise a rank form no cycle. -/
theorem acyclic_of_rank (f : α → ℕ) (h : ∀ a b, R a b → f a < f b) : Acyclic R := by
  have hlt : ∀ a b, TransGen R a b → f a < f b := fun a b hab => by
    induction hab with
    | single hab => exact h _ _ hab
    | tail _ hbc ih => exact ih.trans (h _ _ hbc)
  exact fun a ha => (hlt a a ha).false

open Classical in
/-- The listed vertices strictly below `a`. -/
noncomputable def below (R : α → α → Prop) (nodes : List α) (a : α) : Finset α :=
  nodes.toFinset.filter (fun b => TransGen R a b)

/-- The number of listed vertices strictly below `a`. -/
noncomputable def height (R : α → α → Prop) (nodes : List α) (a : α) : ℕ := (below R nodes a).card

theorem mem_below {nodes : List α} {a b : α} : b ∈ below R nodes a ↔ b ∈ nodes ∧ TransGen R a b := by
  simp [below]

theorem height_lt (h : Acyclic R) {nodes : List α} {a b : α} (hb : b ∈ nodes) (hab : R a b) :
    height R nodes b < height R nodes a := by
  refine Finset.card_lt_card ⟨fun c hc => ?_, fun hsub => ?_⟩
  · obtain ⟨hn, hc⟩ := mem_below.mp hc
    exact mem_below.mpr ⟨hn, .head hab hc⟩
  · exact h b (mem_below.mp (hsub (mem_below.mpr ⟨hb, .single hab⟩))).2

theorem height_le_length (nodes : List α) (a : α) : height R nodes a ≤ nodes.length := by
  classical
  exact (Finset.card_filter_le _ _).trans (List.toFinset_card_le nodes)

/-- A listed vertex is not below itself, so heights stay under the carrier's length. -/
theorem height_lt_length (h : Acyclic R) {nodes : List α} {a : α} (ha : a ∈ nodes) :
    height R nodes a < nodes.length := by
  classical
  refine lt_of_lt_of_le (Finset.card_lt_card (t := nodes.toFinset) ⟨fun c hc => ?_, fun hsub => ?_⟩)
    (List.toFinset_card_le nodes)
  · exact List.mem_toFinset.mpr (mem_below.mp hc).1
  · exact h a (mem_below.mp (hsub (List.mem_toFinset.mpr ha))).2

/-- An acyclic relation whose targets are listed is well founded towards its targets. -/
theorem Acyclic.wellFounded_swap (h : Acyclic R) (nodes : List α) (hn : ∀ a b, R a b → b ∈ nodes) :
    WellFounded (Function.swap R) :=
  Subrelation.wf (fun {_ _} hab => height_lt h (hn _ _ hab) hab)
    (measure (height R nodes)).wf

/-- An acyclic relation whose sources are listed is well founded. -/
theorem Acyclic.wellFounded (h : Acyclic R) (nodes : List α) (hn : ∀ a b, R a b → a ∈ nodes) :
    WellFounded R :=
  h.swap.wellFounded_swap nodes (fun a b hab => hn b a hab)

/-- In a finite nonempty carrier closed under taking sources, some vertex has no source,
or the relation has a cycle. -/
theorem exists_source_free (h : Acyclic R) (nodes : List α) (hn : ∀ a b, R a b → a ∈ nodes)
    {P : α → Prop} {a : α} (ha : P a) (hP : ∀ a b, P b → R a b → P a) :
    ∃ b, P b ∧ ∀ c, ¬ R c b := by
  obtain ⟨b, hb, hmin⟩ := (h.wellFounded nodes hn).has_min {b | P b} ⟨a, ha⟩
  exact ⟨b, hb, fun c hc => hmin c (hP c b hb hc) hc⟩

/-! ### One more edge -/

/-- `R` with an edge from `p` to `c`. -/
def withEdge (R : α → α → Prop) (p c : α) : α → α → Prop := fun a b => R a b ∨ (a = p ∧ b = c)

theorem reach_mono {S : α → α → Prop} (hs : ∀ a b, R a b → S a b) {a b : α}
    (h : ReflTransGen R a b) : ReflTransGen S a b := ReflTransGen.mono (p := S) hs a b h

/-- A path through the new edge splits at its first and last use. -/
theorem reach_withEdge {p c a b : α} : ReflTransGen (withEdge R p c) a b ↔
    ReflTransGen R a b ∨ (ReflTransGen R a p ∧ ReflTransGen R c b) := by
  constructor
  · intro h
    induction h with
    | refl => exact .inl .refl
    | tail _ hbc ih =>
      rcases hbc with hbc | ⟨rfl, rfl⟩
      · exact ih.imp (fun h => h.tail hbc) fun h => ⟨h.1, h.2.tail hbc⟩
      · exact ih.elim (fun h => .inr ⟨h, .refl⟩) fun h => .inr ⟨h.1, .refl⟩
  · have hmono : ∀ {x y}, ReflTransGen R x y → ReflTransGen (withEdge R p c) x y :=
      fun h => reach_mono (fun _ _ => .inl) h
    rintro (h | ⟨h, h'⟩)
    · exact hmono h
    · exact ((hmono h).tail (.inr ⟨rfl, rfl⟩)).trans (hmono h')

theorem transGen_withEdge {p c a b : α} (h : TransGen (withEdge R p c) a b) :
    TransGen R a b ∨ (ReflTransGen R a p ∧ ReflTransGen R c b) := by
  obtain ⟨d, had, hdb⟩ := TransGen.tail'_iff.mp h
  rcases hdb with hdb | ⟨rfl, rfl⟩
  · exact (reach_withEdge.mp had).imp (fun h => TransGen.tail' h hdb) fun h => ⟨h.1, h.2.tail hdb⟩
  · exact .inr ⟨(reach_withEdge.mp had).elim id And.left, .refl⟩

/-- The new edge closes a cycle exactly when its target reaches its source. -/
theorem acyclic_withEdge (h : Acyclic R) {p c : α} :
    Acyclic (withEdge R p c) ↔ ¬ ReflTransGen R c p := by
  constructor
  · exact fun hac hcp => hac p (TransGen.head' (.inr ⟨rfl, rfl⟩) (reach_mono (fun _ _ => .inl) hcp))
  · intro hcp a ha
    rcases transGen_withEdge ha with h' | ⟨hap, hca⟩
    · exact h a h'
    · exact hcp (hca.trans hap)

end Forail.Acyclicity

/-! Paths of a relation that visit nothing twice, and the number of steps they take. -/

namespace Forail

open Relation

variable {α : Type*} {R : α → α → Prop} {a b c : α} {l : List α} {n : ℕ}

def SimplePath (R : α → α → Prop) (path : List α) : Prop := path.IsChain R ∧ path.Nodup

/-- A number of steps from the one to the other. -/
inductive Steps (R : α → α → Prop) : ℕ → α → α → Prop
  | refl (a : α) : Steps R 0 a a
  | head {n : ℕ} {a b c : α} : R a b → Steps R n b c → Steps R (n + 1) a c

theorem Steps.reach (h : Steps R n a b) : ReflTransGen R a b := by
  induction h with
  | refl a => exact .refl
  | head hab _ ih => exact .head hab ih

theorem steps_of_chain (h : (a :: l).IsChain R) (hlast : (a :: l).getLast? = some b) :
    Steps R l.length a b := by
  induction l generalizing a with
  | nil =>
    obtain rfl := Option.some.inj hlast
    exact .refl a
  | cons c l ih =>
    obtain ⟨hac, hchain⟩ := List.isChain_cons_cons.mp h
    rw [List.getLast?_cons_cons] at hlast
    exact .head hac (ih hchain hlast)

/-- Where there is a way there is one that visits nothing twice: from a place that is met again the
rest of the way is enough. -/
theorem exists_simplePath (h : ReflTransGen R a b) :
    ∃ l, SimplePath R (a :: l) ∧ (a :: l).getLast? = some b := by
  induction h using ReflTransGen.head_induction_on with
  | refl => exact ⟨[], ⟨.singleton b, List.nodup_singleton b⟩, rfl⟩
  | @head a c hac _ ih =>
    obtain ⟨l, ⟨hchain, hnodup⟩, hlast⟩ := ih
    by_cases ha : a ∈ c :: l
    · obtain ⟨before, after, hsplit⟩ := List.append_of_mem ha
      rw [hsplit] at hchain hnodup hlast
      rw [List.getLast?_append_cons] at hlast
      exact ⟨after, ⟨hchain.right_of_append, hnodup.of_append_right⟩, hlast⟩
    · refine ⟨c :: l, ⟨.cons_cons hac hchain, List.nodup_cons.mpr ⟨ha, hnodup⟩⟩, ?_⟩
      rw [List.getLast?_cons_cons]
      exact hlast

/-- With a bound on the paths that visit nothing twice every way can be made short. -/
theorem exists_steps_le (hshort : ∀ path, SimplePath R path → path.length ≤ n + 1)
    (h : ReflTransGen R a b) : ∃ m ≤ n, Steps R m a b := by
  obtain ⟨l, hpath, hlast⟩ := exists_simplePath h
  have hlength := hshort _ hpath
  rw [List.length_cons] at hlength
  exact ⟨l.length, by omega, steps_of_chain hpath.1 hlast⟩

/-- A path that meets no loop before its end visits nothing twice. -/
theorem nodup_of_chain (h : l.IsChain R) (hloop : ∀ x ∈ l.dropLast, ¬ TransGen R x x) : l.Nodup := by
  induction l with
  | nil => exact List.nodup_nil
  | cons a l ih =>
    cases l with
    | nil => exact List.nodup_singleton a
    | cons b l =>
      rw [List.dropLast_cons_cons] at hloop
      have hpairwise : (a :: b :: l).Pairwise (TransGen R) :=
        (h.imp fun _ _ => TransGen.single).pairwise
      refine List.nodup_cons.mpr ⟨fun ha => ?_, ih h.of_cons fun x hx => ?_⟩
      · exact hloop a List.mem_cons_self (List.rel_of_pairwise_cons hpairwise ha)
      · exact hloop x (List.mem_cons_of_mem a hx)

end Forail
