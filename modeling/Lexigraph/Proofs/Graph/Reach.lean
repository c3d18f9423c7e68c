/-
# Lexigraph.Proofs.Graph.Reach -- which states lead to which

A state names its child and its branches, and reaches all that a chain of names leads to,
itself among them.
-/

import Mathlib.Logic.Relation
import Lexigraph.Graph

namespace Lexigraph

namespace Node

theorem child_mem_successors {node : Node} {child : StateId} {min : UInt32} {max : Option UInt32}
    (h : node.kind = .repetition child min max) : child ∈ node.successors := by
  unfold successors child?
  rw [h]
  exact List.mem_cons_self

theorem branch_mem_successors {node : Node} {id : StateId} (h : id ∈ node.branches) :
    id ∈ node.successors :=
  List.mem_append_right _ h

end Node

namespace Graph

/-- State `i` names state `j`, as its child or as one of its branches. -/
def Names (g : Graph) (i j : StateId) : Prop :=
  ∃ node, g.node? i = some node ∧ j ∈ node.successors

/-- A chain of names leads from one state to the other. -/
def Reaches (g : Graph) : StateId → StateId → Prop := Relation.ReflTransGen g.Names

/-- Every chain of names from the state on has at most `n` states, so none of them leads in a
circle. -/
def Within (g : Graph) : Nat → StateId → Prop
  | 0, _ => False
  | n + 1, id => ∀ node, g.node? id = some node → ∀ j ∈ node.successors, g.Within n j

theorem node_eq_ok_iff {g : Graph} {id : StateId} {node : Node} :
    g.node id = .ok node ↔ g.node? id = some node := by
  unfold Graph.node
  cases g.node? id with
  | none => simp
  | some node' => simp

theorem node_eq_error_iff {g : Graph} {id : StateId} {e : GrammarError} :
    g.node id = .error e ↔ g.node? id = none ∧ e = .unknownState id := by
  unfold Graph.node
  cases g.node? id with
  | none => simp [eq_comm]
  | some node => simp

/-- To ask for a state or to look for one is the same as elsewhere if the state is. -/
theorem node_congr {g h : Graph} {id : StateId} (hid : h.node? id = g.node? id) :
    h.node id = g.node id := by
  unfold Graph.node
  rw [hid]

end Graph

end Lexigraph
