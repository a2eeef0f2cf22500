import Forail.Api.WorkflowNodes
import Mathlib.Data.List.Dedup

/-! The server as the visualizer sees it: the nodes and rows of one template, which of the nodes
have an approval template, and the next id of a node. Ids are not given out twice. -/

namespace Forail.Api

open Relation Acyclicity Scheduler

structure Server where
  template : Template
  isApproval : NodeId → Bool
  nextId : NodeId
  issued : ∀ n ∈ template.nodes, n < nextId

namespace Template

/-- The rows of a node go with it. -/
def destroy (w : Template) (n : NodeId) : Template where
  nodes := w.nodes.filter (· ≠ n)
  edges := fun l => (w.edges l).filter fun e => e.1 ≠ n ∧ e.2 ≠ n
  nodes_nodup := w.nodes_nodup.filter _
  edges_nodes := by
    intro l e he
    obtain ⟨he, hne⟩ := List.mem_filter.mp he
    obtain ⟨h₁, h₂⟩ := of_decide_eq_true hne
    obtain ⟨hp, hc⟩ := w.edges_nodes l e he
    exact ⟨List.mem_filter.mpr ⟨hp, decide_eq_true h₁⟩, List.mem_filter.mpr ⟨hc, decide_eq_true h₂⟩⟩

/-- The children of a node by one relationship. -/
def children (w : Template) (relationship : EdgeLabel) (n : NodeId) : List NodeId :=
  (((w.edges relationship).filter fun e => e.1 = n).map Prod.snd).dedup

theorem mem_children {w : Template} {l : EdgeLabel} {p c : NodeId} :
    c ∈ w.children l p ↔ w.Edge l p c := by
  rw [children, List.mem_dedup, WorkflowGraph.Edge, List.mem_map]
  constructor
  · rintro ⟨⟨a, b⟩, he, rfl⟩
    obtain ⟨he, ha⟩ := List.mem_filter.mp he
    exact of_decide_eq_true ha ▸ he
  · intro he
    exact ⟨(p, c), List.mem_filter.mpr ⟨he, decide_eq_true rfl⟩, rfl⟩

theorem nodup_children (w : Template) (l : EdgeLabel) (n : NodeId) : (w.children l n).Nodup :=
  List.nodup_dedup _

theorem mem_destroy {w : Template} {n m : NodeId} :
    m ∈ (w.destroy n).nodes ↔ m ∈ w.nodes ∧ m ≠ n := by
  rw [destroy, List.mem_filter, decide_eq_true_eq]

theorem destroy_edge {w : Template} {n : NodeId} {l : EdgeLabel} {a b : NodeId} :
    (w.destroy n).Edge l a b ↔ w.Edge l a b ∧ a ≠ n ∧ b ≠ n := by
  rw [WorkflowGraph.Edge, destroy, List.mem_filter, decide_eq_true_eq]
  rfl

end Template

namespace Server

/-- Without a node of this id the answer is 404. -/
def destroy (s : Server) (id : NodeId) : Option Server :=
  if id ∈ s.template.nodes then some
    { s with
      template := s.template.destroy id
      issued := fun n hn => s.issued n (Template.mem_destroy.mp hn).1 }
  else none

/-- `post` on the nodes of the template. -/
def createNode (s : Server) : Server where
  template := s.template.addNode s.nextId fun h => Nat.lt_irrefl _ (s.issued _ h)
  isApproval := Function.update s.isApproval s.nextId false
  nextId := s.nextId + 1
  issued := by
    intro n hn
    rcases List.mem_append.mp hn with hn | hn
    · exact Nat.lt_succ_of_lt (s.issued n hn)
    · rw [List.mem_singleton.mp hn]
      exact Nat.lt_succ_self _

/-- `patch` on a node; with a `unified_job_template` among the data, the node takes this one. -/
def update (s : Server) (id : NodeId) (unifiedJobTemplate : Bool) : Option Server :=
  if id ∈ s.template.nodes then some
    { s with
      isApproval := if unifiedJobTemplate then Function.update s.isApproval id false
        else s.isApproval }
  else none

def createApprovalTemplate (s : Server) (id : NodeId) : Option Server :=
  if id ∈ s.template.nodes then some { s with isApproval := Function.update s.isApproval id true }
  else none

/-- `patch` on the approval template of a node. -/
def updateApprovalTemplate (s : Server) (id : NodeId) : Option Server :=
  if id ∈ s.template.nodes ∧ s.isApproval id then some s else none

/-- `unattach`. -/
def disassociate (s : Server) (relationship : EdgeLabel) (parent sub : NodeId) : Option Server :=
  if parent ∈ s.template.nodes ∧ sub ∈ s.template.nodes then some
    { s with template := s.template.remove relationship parent sub }
  else none

end Server

namespace Template

theorem nodes_isValidRelation {w w' : Template} {l : EdgeLabel} {p c : NodeId} {created : Bool}
    {h : p ∈ w.nodes ∧ c ∈ w.nodes} {error : Option String}
    (h' : w.isValidRelation l p c h created = some (error, w')) : w'.nodes = w.nodes := by
  rw [isValidRelation] at h'
  split_ifs at h'
  · cases h'
    rfl
  · cases h'
    rfl
  · cases h'
    rfl
  · obtain ⟨b, -, hb⟩ := Option.map_eq_some_iff.mp h'
    cases hb
    rfl

/-- A request that attaches a child creates and deletes no node. -/
theorem nodes_attach {w w' : Template} {l : EdgeLabel} {p c : NodeId} {answer : Answer}
    (h : w.handle (.attach l p c) = some (answer, w')) : w'.nodes = w.nodes := by
  rw [handle] at h
  split_ifs at h with hmem
  · obtain ⟨⟨error, v⟩, hv, heq⟩ := Option.map_eq_some_iff.mp h
    have hnodes := nodes_isValidRelation hv
    cases error with
    | some error =>
      cases heq
      exact hnodes
    | none =>
      rw [finishAttach] at heq
      split_ifs at heq
      · cases heq
        exact hnodes
      · cases heq
        exact hnodes
  · cases h
    rfl

/-- In an acyclic graph a row is accepted that closes no cycle and joins nodes that no other
relationship joins. -/
theorem attach_accepted {w : Template} (hac : Acyclic w.Parent) {l : EdgeLabel} {p c : NodeId}
    (h : p ∈ w.nodes ∧ c ∈ w.nodes) (hother : ∀ r, r ≠ l → ¬ w.Edge r p c) (hcl : ¬ w.Closes p c) :
    ∃ w', w.handle (.attach l p c) = some (.noContent, w') ∧
      ∀ l' a b, w'.Edge l' a b ↔ w.Edge l' a b ∨ (l' = l ∧ a = p ∧ b = c) := by
  have hne : p ≠ c := fun he => hcl (he ▸ ReflTransGen.refl)
  have ho : ¬ w.hasOther l p c = true := by
    simp only [hasOther, List.any_eq_true, Bool.and_eq_true, decide_eq_true_eq]
    rintro ⟨r, -, hr, hedge⟩
    exact hother r hr hedge
  obtain ⟨b, hb, hiff⟩ := hasCycle_add hac (l := l) h
  have hfalse : b = false := Bool.eq_false_iff.mpr fun hbt => hcl (hiff.mp hbt).1
  have hmem : p ∈ ((w.add l p c h).remove l p c).nodes ∧
      c ∈ ((w.add l p c h).remove l p c).nodes := h
  refine ⟨((w.add l p c h).remove l p c).add l p c hmem, ?_, fun l' a b => ?_⟩
  · rw [handle, dif_pos h, isValidRelation, if_neg Bool.false_ne_true, if_neg hne, if_neg ho]
    dsimp only
    rw [hb, hfalse]
    simp [finishAttach, hmem]
  · rw [add_edge, remove_add_edge]
    tauto

end Template

namespace Server

/-- `attach`, and whether it was accepted. -/
def associate (s : Server) (relationship : EdgeLabel) (parent sub : NodeId) : Bool × Server :=
  match h : s.template.handle (.attach relationship parent sub) with
  | none => (false, s)
  | some (answer, w) => (decide (answer = .noContent),
    { s with template := w, issued := fun n hn => s.issued n (Template.nodes_attach h ▸ hn) })

variable {s : Server}

theorem associate_accepted (hac : Acyclic s.template.Parent) {l : EdgeLabel} {p c : NodeId}
    (h : p ∈ s.template.nodes ∧ c ∈ s.template.nodes)
    (hother : ∀ r, r ≠ l → ¬ s.template.Edge r p c) (hcl : ¬ s.template.Closes p c) :
    ∃ s', s.associate l p c = (true, s') ∧ s'.template.nodes = s.template.nodes ∧
      s'.isApproval = s.isApproval ∧ s'.nextId = s.nextId ∧
      ∀ l' a b, s'.template.Edge l' a b ↔ s.template.Edge l' a b ∨ (l' = l ∧ a = p ∧ b = c) := by
  obtain ⟨w, hw, hedge⟩ := Template.attach_accepted hac h hother hcl
  rw [associate]
  split
  · rename_i hnone
    exact nomatch hnone.symm.trans hw
  · rename_i answer w' hw'
    have heq := Option.some.inj (hw'.symm.trans hw)
    obtain ⟨rfl, rfl⟩ := Prod.mk.inj heq
    exact ⟨_, rfl, Template.nodes_attach hw, rfl, rfl, hedge⟩

end Server

end Forail.Api
