/-
# Lexigraph.Proofs.Graph.Proper -- what every state of a graph is like

A terminal has its annotations in its rule and none of its own, and the bounds of a
repetition are in order. All edits of a graph keep this, also those that fail half way
(`Keeps`), and a copied state is like the one it was copied from.
-/

import Lexigraph.Graph.Copy
import Lexigraph.Proofs.Attempt
import Lexigraph.Proofs.Graph.Edit
import Lexigraph.Proofs.Graph.Reach

namespace Lexigraph

open Attempt

/-- A terminal without annotations of its own, a repetition with bounds in order, or a choice. -/
def Node.Proper (n : Node) : Prop :=
  match n.kind with
  | .terminal _ => n.annotations = {}
  | .repetition _ min max => checkBounds min max = .ok ()
  | .choice => True

namespace Graph

/-- Every state is proper. -/
def Proper (g : Graph) : Prop := ∀ id node, g.node? id = some node → node.Proper

variable {g : Graph} {id : StateId}

theorem Proper.alloc (hg : g.Proper) {node : Node} (hnode : node.Proper) :
    (alloc node g).2.Proper := by
  intro id n hn
  rcases eq_or_eq_of_node?_alloc hn with hn | rfl
  · exact hg id n hn
  · exact hnode

theorem Proper.edit (hg : g.Proper) {f : Node → Node}
    (hf : ∀ node, g.node? id = some node → (f node).Proper) : (edit id f g).2.Proper := by
  intro j n hn
  rcases eq_or_eq_of_node?_edit hn with hn | ⟨node, hnode, rfl⟩
  · exact hg j n hn
  · exact hf node hnode

/-! ## Edits that can fail -/

theorem require_keeps (id : StateId) : Keeps Proper (require id) := by
  refine .get_bind fun g _ => ?_
  by_cases h : g.contains id = true
  · rw [if_pos h]
    exact .pure _
  · rw [if_neg h]
    exact .throw trivial

theorem update_keeps {f : Node → Node} (hf : ∀ node : Node, node.Proper → (f node).Proper) :
    Keeps Proper (update id f) :=
  (require_keeps id).bind fun _ => .modify fun _ hg =>
    hg.edit fun node hnode => hf node (hg id node hnode)

/-- What a state is linked to is of no account. -/
theorem proper_withBranches {node : Node} (h : node.Proper) (branches : List StateId) :
    { node with branches }.Proper := h

theorem repetition_keeps (child : StateId) (min : UInt32) (max : Option UInt32) :
    Keeps Proper (repetition child min max) := by
  refine (require_keeps child).bind fun _ => .ofExcept_bind (fun _ _ => trivial) ?_
  exact fun _ hbounds => .lift fun _ hg => hg.alloc hbounds

theorem link_keeps (source target : StateId) : Keeps Proper (link source target) :=
  (require_keeps target).bind fun _ => update_keeps fun _ hnode => proper_withBranches hnode _

theorem choice_keeps (branches : List StateId) : Keeps Proper (choice branches) := by
  refine (Stays.lift fun g hg => hg.alloc trivial).bind fun id => .get_bind fun g _ => ?_
  refine (update_keeps fun _ hnode => proper_withBranches hnode _).bind fun _ => ?_
  split
  · exact .pure _
  · exact .throw trivial

theorem setToken_keeps (id : StateId) (token : Option TokenId) :
    Keeps Proper (setToken id token) :=
  update_keeps fun _ hnode => hnode

/-! ## Copies -/

theorem proper_rename {node : Node} (h : node.Proper) (f : StateId → StateId) :
    (node.rename f).Proper := by
  rcases node with ⟨kind, token, annotations, branches⟩
  cases kind with
  | terminal rule => exact h
  | repetition child min max => exact h
  | choice => exact h

/-- A walk meets no other states than those of the graph. -/
theorem walkFrom_met (hg : g.Proper) (fuel : Nat) {pending : List StateId} {w w' : Walk}
    (hw : ∀ node ∈ w.met, node.Proper) (h : g.walkFrom fuel pending w = .ok w') :
    ∀ node ∈ w'.met, node.Proper := by
  induction fuel generalizing pending w with
  | zero =>
    cases h
    exact hw
  | succ fuel ih =>
    unfold walkFrom at h
    split at h
    · cases h
      exact hw
    · next id pending' _ =>
      obtain ⟨node, hnode, h⟩ := bind_eq_ok_iff.1 h
      refine ih ?_ h
      intro n hn
      rcases Array.mem_push.1 hn with hn | rfl
      · exact hw n hn
      · exact hg id n (node_eq_ok_iff.1 hnode)

theorem copy_keeps (root : StateId) : Keeps Proper (copy root) := by
  refine .of_keeps fun g hg => ?_
  show Proper ((ofExcept (g.walk root) >>= _) g).2
  rw [bind_apply, ofExcept_apply]
  cases hw : g.walk root with
  | error e => exact hg
  | ok w =>
    have hmet := walkFrom_met hg _ (by simp) hw
    intro id node hnode
    have hmem := Array.mem_of_getElem? hnode
    rcases Array.mem_append.1 hmem with h | h
    · obtain ⟨i, hi⟩ := Array.mem_iff_getElem?.1 h
      exact hg ⟨i⟩ node hi
    · obtain ⟨n, hn, rfl⟩ := Array.mem_map.1 h
      exact proper_rename (hmet n hn) _

end Graph

end Lexigraph
