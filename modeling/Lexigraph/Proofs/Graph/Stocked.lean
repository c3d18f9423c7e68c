/-
# Lexigraph.Proofs.Graph.Stocked -- edits give states no token that is not known

An edit of a graph gives a state no token other than the one it is told, and takes no state
away, whether or not it succeeds. A copied state has the token of its original.
-/

import Lexigraph.Proofs.Graph.Copy

namespace Lexigraph

open Attempt

/-- The node has no token of its own, or one of the first `tokens`. -/
def Node.Spelled (tokens : Nat) (n : Node) : Prop := ∀ token ∈ n.token, token.index < tokens

namespace Graph

theorem spelled_none {tokens : Nat} {node : Node} (h : node.token = none) : node.Spelled tokens := by
  unfold Node.Spelled
  rw [h]
  nofun

/-- What a state goes on with has nothing to do with its token. -/
theorem spelled_withBranches {tokens : Nat} {node : Node} (branches : List StateId)
    (h : node.Spelled tokens) : { node with branches }.Spelled tokens := h

/-- The tokens of states are among the first `tokens`, and there are `least` states or more. -/
structure Stocked (tokens least : Nat) (g : Graph) : Prop where
  spelled : ∀ id node, g.node? id = some node → node.Spelled tokens
  least : least ≤ g.size

variable {g : Graph} {tokens least : Nat}

theorem Stocked.alloc (hg : g.Stocked tokens least) {node : Node} (hnode : node.Spelled tokens) :
    (alloc node g).2.Stocked tokens least where
  spelled i n hn := by
    rcases eq_or_eq_of_node?_alloc hn with hn | rfl
    · exact hg.spelled i n hn
    · exact hnode
  least := by
    rw [size_alloc]
    exact Nat.le_succ_of_le hg.least

theorem Stocked.edit (hg : g.Stocked tokens least) (id : StateId) {f : Node → Node}
    (hf : ∀ node : Node, node.Spelled tokens → (f node).Spelled tokens) :
    (edit id f g).2.Stocked tokens least where
  spelled i n hn := by
    rcases eq_or_eq_of_node?_edit hn with hn | ⟨node, hnode, rfl⟩
    · exact hg.spelled i n hn
    · exact hf node (hg.spelled id node hnode)
  least := by
    rw [size_edit]
    exact hg.least

theorem update_stocked (id : StateId) {f : Node → Node}
    (hf : ∀ node : Node, node.Spelled tokens → (f node).Spelled tokens) :
    Keeps (Stocked tokens least) (update id f) :=
  require_bind_keeps fun _ hg _ => hg.edit id hf

theorem repetition_stocked (child : StateId) (min : UInt32) (max : Option UInt32) :
    Keeps (Stocked tokens least) (repetition child min max) := by
  refine require_bind_keeps fun g hg _ => ?_
  rw [bind_apply, ofExcept_apply]
  cases checkBounds min max with
  | error e => exact hg
  | ok bounds => exact hg.alloc (spelled_none rfl)

theorem link_stocked (source target : StateId) :
    Keeps (Stocked tokens least) (link source target) :=
  require_bind_keeps fun g hg _ => (update_stocked source (fun _ => spelled_withBranches _) g hg).2

theorem choice_stocked (branches : List StateId) :
    Keeps (Stocked tokens least) (choice branches) := by
  refine .of_keeps fun g hg => ?_
  rw [choice_snd]
  exact (update_stocked _ (fun _ => spelled_withBranches _) _ (hg.alloc (spelled_none rfl))).2

/-- A token that is known may be set. -/
theorem setToken_stocked (id : StateId) {token : Option TokenId}
    (htoken : ∀ t ∈ token, t.index < tokens) :
    Keeps (Stocked tokens least) (setToken id token) :=
  update_stocked id fun _ _ => htoken

theorem copy_stocked (root : StateId) : Keeps (Stocked tokens least) (copy root) := by
  refine .of_keeps fun g hg => ?_
  have hcopied := copy_copied g root
  revert hcopied
  generalize copy root g = outcome
  intro hcopied
  cases hcopied with
  | refused => exact hg
  | made there isCopy =>
    obtain ⟨hle, hlt⟩ := isCopy.bijOn.mapsTo .refl
    refine ⟨fun i node hnode => ?_, Nat.le_trans hg.least (Nat.le_trans hle (Nat.le_of_lt hlt))⟩
    by_cases hold : i.index < g.size
    · rw [isCopy.old i hold] at hnode
      exact hg.spelled i node hnode
    · -- a new state is the copy of one that is there
      obtain ⟨j, hj, rfl⟩ := isCopy.bijOn.surjOn ⟨Nat.le_of_not_lt hold, lt_size_of_node? hnode⟩
      obtain ⟨original, horiginal⟩ := there j hj
      rw [isCopy.copied j original hj horiginal] at hnode
      obtain rfl := Option.some.inj hnode
      exact hg.spelled j original horiginal

end Graph

end Lexigraph
