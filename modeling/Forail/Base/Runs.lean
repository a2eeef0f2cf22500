import Mathlib.Data.Nat.Init
import Mathlib.Logic.Relation
import Mathlib.Order.WellFounded

/-! Labelled transition systems: reachable states, the invariant rule, and the
restriction of a system to steps that meet a condition. -/

namespace Forail

/-- Initial states and labelled steps. -/
structure System (σ ε : Type*) where
  init : σ → Prop
  step : σ → ε → σ → Prop

namespace System

variable {σ ε : Type*} (S : System σ ε)

/-- Some run from an initial state ends here. -/
inductive Reachable : σ → Prop
  | init {s : σ} : S.init s → Reachable s
  | step {s s' : σ} {e : ε} : Reachable s → S.step s e s' → Reachable s'

/-- Some run leads from the one state to the other. -/
def Steps : σ → σ → Prop := Relation.ReflTransGen fun s s' => ∃ e, S.step s e s'

/-- Only the steps that meet a condition on the state before and the event. -/
def restrict (ok : σ → ε → Prop) : System σ ε where
  init := S.init
  step s e s' := S.step s e s' ∧ ok s e

variable {S}

/-- The invariant rule; the step may use that its source is reachable. -/
theorem Reachable.invariant {I : σ → Prop} (hi : ∀ s, S.init s → I s)
    (hs : ∀ s e s', S.Reachable s → I s → S.step s e s' → I s') {s : σ} (h : S.Reachable s) :
    I s := by
  induction h with
  | init h => exact hi _ h
  | step hr hstep ih => exact hs _ _ _ hr ih hstep

theorem Reachable.steps {s s' : σ} (h : S.Reachable s) (hs : S.Steps s s') : S.Reachable s' := by
  induction hs with
  | refl => exact h
  | tail _ hstep ih => exact .step ih hstep.choose_spec

theorem Steps.one {s s' : σ} {e : ε} (h : S.step s e s') : S.Steps s s' := .single ⟨e, h⟩

theorem Steps.trans {s₁ s₂ s₃ : σ} (h : S.Steps s₁ s₂) (h' : S.Steps s₂ s₃) : S.Steps s₁ s₃ :=
  Relation.ReflTransGen.trans h h'

theorem Reachable.of_restrict {ok : σ → ε → Prop} {s : σ} (h : (S.restrict ok).Reachable s) :
    S.Reachable s := by
  induction h with
  | init h => exact .init h
  | step _ hstep ih => exact .step ih hstep.1

/-- A condition that every step from a reachable state meets restricts nothing. -/
theorem Reachable.restrict {ok : σ → ε → Prop}
    (hok : ∀ s e s', S.Reachable s → S.step s e s' → ok s e) {s : σ} (h : S.Reachable s) :
    (S.restrict ok).Reachable s := by
  induction h with
  | init h => exact .init h
  | step hr hstep ih => exact .step ih ⟨hstep, hok _ _ _ hr hstep⟩

/-- The state after some events, when each of them has a result. -/
def runAll (exec : σ → ε → Option σ) (s : σ) : List ε → Option σ
  | [] => some s
  | e :: es => (exec s e).bind fun s' => runAll exec s' es

theorem Reachable.runAll {exec : σ → ε → Option σ} {es : List ε}
    (he : ∀ e ∈ es, ∀ s s', exec s e = some s' → S.step s e s') {s s' : σ} (hs : S.Reachable s)
    (h : runAll exec s es = some s') : S.Reachable s' := by
  induction es generalizing s with
  | nil => exact Option.some.inj h ▸ hs
  | cons e es ih =>
    obtain ⟨t, ht, h⟩ := Option.bind_eq_some_iff.mp h
    exact ih (fun e' he' => he e' (List.mem_cons_of_mem _ he'))
      (.step hs (he e List.mem_cons_self s t ht)) h

theorem Steps.runAll {exec : σ → ε → Option σ} {es : List ε}
    (he : ∀ e ∈ es, ∀ s s', exec s e = some s' → S.step s e s') {s s' : σ} (h : System.runAll exec s es = some s') :
    S.Steps s s' := by
  induction es generalizing s with
  | nil => exact Option.some.inj h ▸ .refl
  | cons e es ih =>
    obtain ⟨t, ht, h⟩ := Option.bind_eq_some_iff.mp h
    exact (Steps.one (he e List.mem_cons_self s t ht)).trans (ih (fun e' he' => he e' (List.mem_cons_of_mem _ he')) h)

/-- A step, where it meets the condition. -/
def guarded (exec : σ → ε → Option σ) (ok : σ → ε → Prop) [∀ s e, Decidable (ok s e)] (s : σ)
    (e : ε) : Option σ :=
  if ok s e then exec s e else none

/-- A run whose events meet the condition in their states. -/
theorem Reachable.runAll_guarded {exec : σ → ε → Option σ} {ok : σ → ε → Prop}
    [∀ s e, Decidable (ok s e)] {es : List ε} (hstep : ∀ s e s', exec s e = some s' → S.step s e s')
    {s s' : σ} (hs : (S.restrict ok).Reachable s) (h : System.runAll (guarded exec ok) s es = some s') :
    (S.restrict ok).Reachable s' := by
  refine Reachable.runAll (S := S.restrict ok) (fun e _ t t' ht => ?_) hs h
  obtain ⟨hok, ht⟩ := Option.ite_none_right_eq_some.mp ht
  exact ⟨hstep t e t' ht, hok⟩

/-- A run that can be computed, with what can be decided of its last state. -/
theorem exists_of_runAll {f : σ → ε → Option σ} {s : σ} {l : List ε} {P : σ → Prop}
    [DecidablePred P] (h : (runAll f s l).any (fun s => P s) = true) :
    ∃ s', runAll f s l = some s' ∧ P s' := by
  obtain ⟨s', hs', hP⟩ := (Option.any_eq_true _ _).mp h
  exact ⟨s', hs', of_decide_eq_true hP⟩

end System

end Forail

/-! What every run comes to, whichever of its possible steps it takes. -/

namespace Forail.System

variable {σ ε : Type*} (S : System σ ε)

/-- Every run from here gets to `P`: it is there, or it can go on, and gets there by every step. -/
inductive Inevitable (P : σ → Prop) : σ → Prop
  | now {s : σ} : P s → Inevitable P s
  | later {s : σ} : (∃ e s', S.step s e s') → (∀ e s', S.step s e s' → Inevitable P s') →
      Inevitable P s

variable {S} {P : σ → Prop}

theorem Inevitable.exists_steps {s : σ} (h : S.Inevitable P s) : ∃ s', S.Steps s s' ∧ P s' := by
  induction h with
  | now hp => exact ⟨_, .refl, hp⟩
  | later hex _ ih =>
    obtain ⟨e, s', hstep⟩ := hex
    obtain ⟨t, ht, hp⟩ := ih e s' hstep
    exact ⟨t, .trans (.one hstep) ht, hp⟩

/-- A set of states that the runs do not leave and that does not meet `P`. -/
theorem not_inevitable {J : σ → Prop} (hj : ∀ s e s', J s → S.step s e s' → J s')
    (hp : ∀ s, J s → ¬ P s) {s : σ} (hs : J s) : ¬ S.Inevitable P s := by
  intro h
  obtain ⟨t, ht, hpt⟩ := h.exists_steps
  have hjt : J t := by
    clear hpt
    induction ht with
    | refl => exact hs
    | tail _ hstep ih =>
      obtain ⟨e, hstep⟩ := hstep
      exact hj _ e _ ih hstep
  exact hp t hjt hpt

/-- An invariant under which a run can go on until it is there, and gets closer by every step. -/
theorem Inevitable.of_measure {α : Type*} [Preorder α] [WellFoundedLT α] (m : σ → α) {I : σ → Prop}
    (hprogress : ∀ s, I s → ¬ P s → ∃ e s', S.step s e s')
    (hstep : ∀ s e s', I s → S.step s e s' → I s' ∧ m s' < m s) {s : σ} (hs : I s) :
    S.Inevitable P s := by
  induction hk : m s using WellFoundedLT.induction generalizing s with
  | ind k ih =>
    subst hk
    by_cases hp : P s
    · exact .now hp
    · refine .later (hprogress s hs hp) fun e s' h => ?_
      obtain ⟨hs', hlt⟩ := hstep s e s' hs h
      exact ih (m s') hlt hs' rfl

end Forail.System

/-! While loops as step functions: a step goes on with a new state or returns. Loops run with
fuel; `Leads` and `Returns` say what happens with enough of it. -/

namespace Forail.Loop

variable {σ ρ : Type*}

def loop (step : σ → σ ⊕ ρ) : ℕ → σ → Option ρ
  | 0, _ => none
  | fuel + 1, s =>
    match step s with
    | .inl s' => loop step fuel s'
    | .inr r => some r

variable {step : σ → σ ⊕ ρ} {s s' s'' : σ} {r : ρ}

/-- Some steps lead from the one state to the other. -/
def Leads (step : σ → σ ⊕ ρ) (s s' : σ) : Prop := ∃ n, ∀ k, loop step (k + n) s = loop step k s'

def Returns (step : σ → σ ⊕ ρ) (s : σ) (r : ρ) : Prop := ∃ n, ∀ k, loop step (k + n) s = some r

theorem Leads.refl (s : σ) : Leads step s s := ⟨0, fun _ => rfl⟩

theorem Leads.one (h : step s = .inl s') : Leads step s s' := ⟨1, fun k => by rw [loop, h]⟩

theorem Leads.trans (h : Leads step s s') (h' : Leads step s' s'') : Leads step s s'' := by
  obtain ⟨n, hn⟩ := h
  obtain ⟨m, hm⟩ := h'
  exact ⟨m + n, fun k => by rw [← Nat.add_assoc, hn, hm]⟩

theorem Leads.head (h : step s = .inl s') (h' : Leads step s' s'') : Leads step s s'' :=
  (Leads.one h).trans h'

theorem Leads.returns (h : Leads step s s') (hr : step s' = .inr r) : Returns step s r := by
  obtain ⟨n, hn⟩ := h
  refine ⟨1 + n, fun k => ?_⟩
  rw [← Nat.add_assoc, hn, loop, hr]

theorem Leads.trans_returns (h : Leads step s s') (hr : Returns step s' r) : Returns step s r := by
  obtain ⟨n, hn⟩ := h
  obtain ⟨m, hm⟩ := hr
  exact ⟨m + n, fun k => by rw [← Nat.add_assoc, hn, hm]⟩

theorem Leads.head_returns (h : step s = .inl s') (hr : Returns step s' r) : Returns step s r :=
  (Leads.one h).trans_returns hr

theorem Returns.eventually (h : Returns step s r) : ∃ n, ∀ fuel, n ≤ fuel → loop step fuel s = some r := by
  obtain ⟨n, hn⟩ := h
  refine ⟨n, fun fuel hf => ?_⟩
  have hfuel := hn (fuel - n)
  rwa [Nat.sub_add_cancel hf] at hfuel

end Forail.Loop
