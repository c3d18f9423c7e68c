/-
# Lexigraph.Proofs.Grammar.Closed -- built grammars name what is there

Every call keeps a grammar closed (`Built.closed`): a state names only states and rules of
the grammar. So looking up what is named never fails while a source is scanned.
-/

import Lexigraph.Grammar.Call
import Lexigraph.Proofs.Grammar.Build
import Lexigraph.Proofs.Grammar.Unfold
import Lexigraph.Proofs.Graph.Closed

namespace Lexigraph

open Attempt

namespace Grammar

/-- States of the grammar name states and rules of the grammar. -/
def Closed (g : Grammar) : Prop := g.graph.Closed g.rules.size

variable {g : Grammar} {α : Type}

theorem closed_empty : Closed empty := fun _ _ hnode => absurd hnode (by simp [empty, Graph.node?])

theorem onGraph_closed {edit : Attempt GrammarError Graph α}
    (h : ∀ rules, Keeps (Graph.Closed rules) edit) : Keeps Closed (onGraph edit) :=
  .of_keeps fun g hg => (h g.rules.size g.graph hg).2

theorem size_addRule (rule : Rule) (g : Grammar) :
    (addRule rule g).2.rules.size = g.rules.size + 1 := Array.size_push rule

theorem Closed.addRule (hg : g.Closed) (rule : Rule) : (addRule rule g).2.Closed := by
  unfold Closed
  rw [size_addRule]
  exact Graph.Closed.mono hg (Nat.le_succ _)

theorem addRule_lt (rule : Rule) (g : Grammar) :
    (Grammar.addRule rule g).1.index < (Grammar.addRule rule g).2.rules.size := by
  rw [size_addRule]
  exact Nat.lt_succ_self g.rules.size

theorem Closed.addNode (hg : g.Closed) {node : Node}
    (hnode : node.Bounded (g.graph.size + 1) g.rules.size) : (addNode node g).2.Closed :=
  Graph.Closed.alloc hg hnode

theorem bounded_terminal {size rules : Nat} {rule : RuleId} (h : rule.index < rules) :
    ({ kind := .terminal rule } : Node).Bounded size rules where
  states := nofun
  rule _ hid := NodeKind.terminal.inj hid ▸ h

theorem rule_lt {id : RuleId} {rule : Rule} (h : g.rules.get id = .ok rule) :
    id.index < g.rules.size :=
  (Array.getElem?_eq_some_iff.1 (RuleTable.get_eq_ok_iff.1 h)).1

end Grammar

/-! ## Planting -/

namespace Pattern

open Grammar

theorem plant_lt_size (p : Pattern) (g : Grammar) :
    (p.plant g).1.index < (p.plant g).2.graph.size :=
  ((plant_sprouts p g).fresh _ (List.mem_singleton.2 rfl)).2

mutual

theorem plant_closed (p : Pattern) {g : Grammar} (hg : g.Closed) : (p.plant g).2.Closed := by
  match p with
  | .terminal annotations choices token branches =>
    rw [plant]
    have hrule := hg.addRule { token := (intern token g).1, choices, annotations }
    exact plantBranches_closed _ branches (hrule.addNode (bounded_terminal (addRule_lt _ _))) nofun
  | .repetition annotations child min max token branches =>
    have hchild := plant_closed child hg
    have hlt := plant_lt_size child g
    have hbounded : ∀ token, Node.Bounded ((child.plant g).2.graph.size + 1)
        (child.plant g).2.rules.size
        { kind := .repetition (child.plant g).1 min max, token, annotations } := by
      refine fun token => ⟨fun j hj => ?_, nofun⟩
      rw [List.mem_singleton.1 hj]
      exact Nat.lt_succ_of_lt hlt
    rw [plant]
    cases token with
    | none => exact plantBranches_closed _ branches (hchild.addNode (hbounded _)) nofun
    | some token => exact plantBranches_closed _ branches (hchild.addNode (hbounded _)) nofun
  | .choice annotations token branches =>
    rw [plant]
    cases token with
    | none => exact plantBranches_closed _ branches (hg.addNode ⟨nofun, nofun⟩) nofun
    | some token => exact plantBranches_closed _ branches (hg.addNode ⟨nofun, nofun⟩) nofun

theorem plantBranches_closed (id : StateId) {planted : List StateId} (ps : List Pattern)
    {g : Grammar} (hg : g.Closed) (hplanted : ∀ j ∈ planted, j.index < g.graph.size) :
    (plantBranches id planted ps g).2.Closed := by
  match ps with
  | [] =>
    rw [plantBranches]
    exact Graph.Closed.edit hg fun node hnode => (hg id node hnode).withBranches fun j hj =>
      hplanted j (List.mem_reverse.1 hj)
  | p :: ps =>
    rw [plantBranches]
    refine plantBranches_closed _ ps (plant_closed p hg) fun j hj => ?_
    rcases List.mem_cons.1 hj with rfl | hj
    · exact plant_lt_size p g
    · exact Nat.lt_of_lt_of_le (hplanted j hj) (plant_sprouts p g).size

end

end Pattern

/-! ## Calls -/

namespace Grammar

theorem oneOf_closed (token : String) (choices : List String) :
    Keeps Closed (oneOf token choices) := by
  refine (Stays.lift fun _ hg => hg).bind fun token => ?_
  refine .ofExcept_bind (fun _ _ => trivial) fun rule _ => ?_
  refine .of_keeps fun g hg => ?_
  exact (hg.addRule rule).addNode (bounded_terminal (addRule_lt rule g))

theorem terminal_closed (rule : RuleId) : Keeps Closed (terminal rule) := by
  refine .of_keeps fun g hg => ?_
  show Closed ((ofExcept (g.rules.get rule) >>= _) g).2
  rw [bind_apply, ofExcept_apply]
  cases hrule : g.rules.get rule with
  | error e => exact hg
  | ok found => exact hg.addNode (bounded_terminal (rule_lt hrule))

theorem sequence_closed (states : List StateId) : Keeps Closed (sequence states) :=
  (Stays.forM fun _ _ => onGraph_closed fun _ => Graph.link_closed _ _).bind fun _ => .pure _

theorem retoken_closed (state : StateId) (token : Option String) :
    Keeps Closed (retoken state token) := by
  have hset : ∀ token, Keeps Closed (onGraph (Graph.setToken state token)) := fun token =>
    onGraph_closed fun _ => Graph.setToken_closed state token
  cases token with
  | none => exact hset none
  | some name => exact fun g hg => hset (some (intern name g).1) (intern name g).2 hg

theorem annotate_closed (state : StateId) (annotations : Annotations) :
    Keeps Closed (annotate state annotations) := by
  refine .of_keeps fun g hg => ?_
  show Closed ((ofExcept (g.graph.node state) >>= _) g).2
  rw [bind_apply, ofExcept_apply]
  cases hnode : g.graph.node state with
  | error e => exact hg
  | ok node =>
    have hbounded := hg state node (Graph.node_eq_ok_iff.1 hnode)
    -- an edit of the state found is an edit of that one node
    have hedit : ∀ {f : Node → Node} {g' : Grammar}, g'.Closed → g'.graph = g.graph →
        (f node).Bounded g.graph.size g'.rules.size → (editNode state f g').2.Closed := by
      intro f g' hg' hgraph hf
      refine Graph.Closed.edit hg' fun n hn => ?_
      rw [hgraph, Graph.node_eq_ok_iff.1 hnode] at hn
      rw [hgraph, ← Option.some.inj hn]
      exact hf
    rcases node with ⟨kind, token, own, branches⟩
    cases kind with
    | terminal id =>
      show Closed ((ofExcept (g.rules.get id) >>= _) g).2
      rw [bind_apply, ofExcept_apply]
      cases g.rules.get id with
      | error e => exact hg
      | ok rule =>
        refine hedit (hg.addRule _) rfl ⟨hbounded.states, fun i hi => ?_⟩
        rw [← NodeKind.terminal.inj hi]
        exact addRule_lt _ g
    | repetition child min max => exact hedit hg rfl ⟨hbounded.states, nofun⟩
    | choice => exact hedit hg rfl ⟨hbounded.states, nofun⟩

theorem read_closed (text : String) : Keeps Closed (read text) :=
  read_keeps_of_plant (fun p _ _ hg => Pattern.plant_closed p hg) text

theorem setRoot_closed (state : StateId) : Keeps Closed (setRoot state) :=
  .get_bind fun _ _ => .ofExcept_bind (fun _ _ => trivial) fun _ _ => .modify fun _ hg => hg

/-- Every call keeps the grammar closed. -/
theorem Closed.after {g : Grammar} (hg : g.Closed) (call : Call) : (g.after call).Closed := by
  cases call with
  | intern name => exact hg
  | addRule rule => exact hg.addRule rule
  | oneOf token choices => exact (oneOf_closed token choices g hg).2
  | terminal rule => exact (terminal_closed rule g hg).2
  | repetition child min max =>
    exact (onGraph_closed (fun _ => Graph.repetition_closed child min max) g hg).2
  | choice branches => exact (onGraph_closed (fun _ => Graph.choice_closed branches) g hg).2
  | link source target => exact (onGraph_closed (fun _ => Graph.link_closed source target) g hg).2
  | sequence states => exact (sequence_closed states g hg).2
  | retoken state token => exact (retoken_closed state token g hg).2
  | annotate state annotations => exact (annotate_closed state annotations g hg).2
  | copy state => exact (onGraph_closed (fun _ => Graph.copy_closed state) g hg).2
  | read text => exact (read_closed text g hg).2
  | setRoot state => exact (setRoot_closed state g hg).2

/-- **A built grammar names what is there.** -/
theorem Built.closed {g : Grammar} (h : Built g) : g.Closed := by
  induction h with
  | empty => exact closed_empty
  | after _ call ih => exact ih.after call

end Grammar

end Lexigraph
