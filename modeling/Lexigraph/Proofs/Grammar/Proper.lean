/-
# Lexigraph.Proofs.Grammar.Proper -- what every state of a built grammar is like

Every call keeps the states proper (`Built.proper`): the calls that build, since a terminal
is annotated through its rule and bounds are checked first; reading, since the reader
checks bounds also, and plants terminals whose rules have the annotations.

So unfolding finds the pattern of every state that depicts one, and all these patterns are
ordered.
-/

import Lexigraph.Grammar.Call
import Lexigraph.Proofs.Graph.Proper
import Lexigraph.Proofs.Grammar.Build
import Lexigraph.Proofs.Grammar.Unfold

namespace Lexigraph

open Attempt

/-! ## Planting -/

namespace Pattern

mutual

theorem plant_proper {p : Pattern} (hp : p.Ordered) {g : Grammar} (hg : g.graph.Proper) :
    (p.plant g).2.graph.Proper := by
  match p with
  | .terminal annotations choices token branches =>
    rw [plant]
    exact plantBranches_proper _ _ hp (hg.alloc rfl)
  | .repetition annotations child min max token branches =>
    obtain ⟨hbounds, hchild, hbranches⟩ := hp
    have hg' := plant_proper hchild hg
    rw [plant]
    cases token with
    | none => exact plantBranches_proper _ _ hbranches (hg'.alloc hbounds)
    | some token => exact plantBranches_proper _ _ hbranches (hg'.alloc hbounds)
  | .choice annotations token branches =>
    rw [plant]
    cases token with
    | none => exact plantBranches_proper _ _ hp (hg.alloc trivial)
    | some token => exact plantBranches_proper _ _ hp (hg.alloc trivial)

theorem plantBranches_proper (id : StateId) (planted : List StateId) {ps : List Pattern}
    (hps : OrderedAll ps) {g : Grammar} (hg : g.graph.Proper) :
    (plantBranches id planted ps g).2.graph.Proper := by
  match ps with
  | [] =>
    rw [plantBranches]
    exact hg.edit fun node hnode => Graph.proper_withBranches (hg id node hnode) _
  | p :: ps =>
    rw [plantBranches]
    exact plantBranches_proper _ _ hps.2 (plant_proper hps.1 hg)

end

end Pattern

/-! ## Calls -/

namespace Grammar

/-- The states of the grammar are proper. -/
def Proper (g : Grammar) : Prop := g.graph.Proper

theorem onGraph_keeps {α : Type} {edit : Attempt GrammarError Graph α}
    (h : Keeps Graph.Proper edit) : Keeps Proper (onGraph edit) :=
  .of_keeps fun g hg => (h g.graph hg).2

theorem oneOf_keeps (token : String) (choices : List String) :
    Keeps Proper (oneOf token choices) := by
  refine (Stays.lift fun _ hg => hg).bind fun token => ?_
  refine .ofExcept_bind (fun _ _ => trivial) fun rule _ => ?_
  refine (Stays.lift fun _ hg => hg).bind fun id => ?_
  exact .lift fun g hg => Graph.Proper.alloc hg rfl

theorem terminal_keeps (rule : RuleId) : Keeps Proper (terminal rule) :=
  .get_bind fun _ _ => .ofExcept_bind (fun _ _ => trivial) fun _ _ =>
    .lift fun _ hg => Graph.Proper.alloc hg rfl

theorem sequence_keeps (states : List StateId) : Keeps Proper (sequence states) :=
  (Stays.forM fun _ _ => onGraph_keeps (Graph.link_keeps _ _)).bind fun _ => .pure _

theorem retoken_keeps (state : StateId) (token : Option String) :
    Keeps Proper (retoken state token) := by
  have hset : ∀ token, Keeps Proper (onGraph (Graph.setToken state token)) := fun token =>
    onGraph_keeps (Graph.setToken_keeps state token)
  cases token with
  | none => exact hset none
  | some name => exact fun g hg => hset (some (intern name g).1) (intern name g).2 hg

theorem annotate_keeps (state : StateId) (annotations : Annotations) :
    Keeps Proper (annotate state annotations) := by
  refine .of_keeps fun g hg => ?_
  show Proper ((ofExcept (g.graph.node state) >>= _) g).2
  rw [bind_apply, ofExcept_apply]
  cases hnode : g.graph.node state with
  | error e => exact hg
  | ok node =>
    have hfound := Graph.node_eq_ok_iff.1 hnode
    have hproper := hg state node hfound
    -- an edit of the state found is an edit of that one node
    have hedit : ∀ {f : Node → Node} {g' : Grammar}, g'.graph = g.graph → (f node).Proper →
        Proper (editNode state f g').2 := by
      intro f g' hgraph hf
      refine Graph.Proper.edit (hgraph ▸ hg) fun n hn => ?_
      rw [hgraph, hfound] at hn
      exact Option.some.inj hn ▸ hf
    rcases node with ⟨kind, token, own, branches⟩
    cases kind with
    | terminal id =>
      show Proper ((ofExcept (g.rules.get id) >>= _) g).2
      rw [bind_apply, ofExcept_apply]
      cases g.rules.get id with
      | error e => exact hg
      | ok rule => exact hedit rfl hproper
    | repetition child min max => exact hedit rfl hproper
    | choice => exact hedit rfl trivial

theorem read_keeps (text : String) : Keeps Proper (read text) :=
  read_keeps_of_plant (fun _ hp _ hg => Pattern.plant_proper hp hg) text

theorem setRoot_keeps (state : StateId) : Keeps Proper (setRoot state) :=
  .get_bind fun _ _ => .ofExcept_bind (fun _ _ => trivial) fun _ _ => .modify fun _ hg => hg

/-- Every call keeps the states proper. -/
theorem Proper.after {g : Grammar} (hg : g.Proper) (call : Call) : (g.after call).Proper := by
  cases call with
  | intern name => exact hg
  | addRule rule => exact hg
  | oneOf token choices => exact (oneOf_keeps token choices g hg).2
  | terminal rule => exact (terminal_keeps rule g hg).2
  | repetition child min max => exact (onGraph_keeps (Graph.repetition_keeps child min max) g hg).2
  | choice branches => exact (onGraph_keeps (Graph.choice_keeps branches) g hg).2
  | link source target => exact (onGraph_keeps (Graph.link_keeps source target) g hg).2
  | sequence states => exact (sequence_keeps states g hg).2
  | retoken state token => exact (retoken_keeps state token g hg).2
  | annotate state annotations => exact (annotate_keeps state annotations g hg).2
  | copy state => exact (onGraph_keeps (Graph.copy_keeps state) g hg).2
  | read text => exact (read_keeps text g hg).2
  | setRoot state => exact (setRoot_keeps state g hg).2

/-- **The states of a built grammar are proper.** -/
theorem Built.proper {g : Grammar} (h : Built g) : g.Proper := by
  induction h with
  | empty => exact fun _ _ hnode => absurd hnode (by simp [Grammar.empty, Graph.node?])
  | after _ call ih => exact ih.after call

/-! ## What proper states depict -/

theorem Proper.plainTerminals {g : Grammar} (hg : g.Proper) : g.PlainTerminals := by
  intro id node rule hnode hkind
  have hproper := hg id node hnode
  unfold Node.Proper at hproper
  rwa [hkind] at hproper

mutual

theorem Depicts.ordered {g : Grammar} (hg : g.Proper) {id : StateId} {p : Pattern}
    (h : g.Depicts id p) : p.Ordered := by
  match h with
  | .terminal _ _ _ _ _ _ _ hbranches => exact hbranches.ordered hg
  | .repetition hnode hkind _ hchild _ hbranches =>
    have hbounds := hg id _ hnode
    unfold Node.Proper at hbounds
    rw [hkind] at hbounds
    exact ⟨hbounds, hchild.ordered hg, hbranches.ordered hg⟩
  | .choice _ _ _ _ hbranches => exact hbranches.ordered hg

theorem DepictsAll.ordered {g : Grammar} (hg : g.Proper) {ids : List StateId} {ps : List Pattern}
    (h : g.DepictsAll ids ps) : Pattern.OrderedAll ps := by
  match h with
  | .nil => exact trivial
  | .cons head tail => exact ⟨head.ordered hg, tail.ordered hg⟩

end

end Grammar

end Lexigraph
