/-
# Lexigraph.Proofs.Grammar.WellFormed -- built grammars are well formed

Whatever calls a grammar was built by, and whichever of them failed, all that is named in it is
there: the states and rules that states name, their tokens, and the root. The bounds of its
repetitions are in order, and its terminals have their annotations in their rules
(`Built.wellFormed`). What states name and what they are like was shown for each call elsewhere;
here it is shown of tokens and of the root.
-/

import Lexigraph.Proofs.Grammar.Append
import Lexigraph.Proofs.Grammar.Closed
import Lexigraph.Proofs.Grammar.Proper
import Lexigraph.Proofs.Graph.Stocked

namespace Lexigraph.Grammar

open Attempt

variable {g g' : Grammar} {α : Type}

/-! ## Tokens and the root -/

/-- The tokens of states are known, and the root is there if it is set. -/
structure Stocked (g : Grammar) : Prop where
  spelled : ∀ id node, g.graph.node? id = some node → node.Spelled g.tokens.size
  root : ∀ id ∈ g.root, id.index < g.graph.size

theorem stocked_empty : Stocked empty where
  spelled _ _ hnode := absurd hnode (by simp [empty, Graph.node?])
  root := nofun

theorem Calls.lt_size {id : TokenId} {name : String} (h : g.Calls id name) :
    id.index < g.tokens.size :=
  (Array.getElem?_eq_some_iff.1 h).1

theorem calls_of_lt_size {id : TokenId} (h : id.index < g.tokens.size) : ∃ name, g.Calls id name :=
  ⟨g.tokens.names[id.index], Array.getElem?_eq_getElem h⟩

theorem Extends.spelled (h : Extends g g') {node : Node} (hnode : node.Spelled g.tokens.size) :
    node.Spelled g'.tokens.size := by
  intro token htoken
  obtain ⟨name, hname⟩ := calls_of_lt_size (hnode token htoken)
  exact (h.tokens token name hname).lt_size

/-- Where a grammar has grown, the new states alone are to be looked at. -/
theorem Stocked.extends (hg : g.Stocked) (h : Extends g g')
    (hnew : ∀ id node, g.graph.size ≤ id.index → g'.graph.node? id = some node →
      node.Spelled g'.tokens.size) : g'.Stocked where
  spelled id node hnode := by
    by_cases hold : id.index < g.graph.size
    · exact h.spelled (hg.spelled id node (h.node?_of_lt hold hnode))
    · exact hnew id node (Nat.le_of_not_lt hold) hnode
  root id hid := by
    rw [h.root] at hid
    exact Nat.lt_of_lt_of_le (hg.root id hid) h.size

theorem Stocked.of_graph_eq (hg : g.Stocked) (h : Extends g g') (hgraph : g'.graph = g.graph) :
    g'.Stocked :=
  hg.extends h fun id node hnew hnode => by
    rw [hgraph] at hnode
    exact absurd (Graph.lt_size_of_node? hnode) (Nat.not_lt.2 hnew)

theorem Stocked.intern (hg : g.Stocked) (name : String) : (intern name g).2.Stocked :=
  hg.of_graph_eq (intern_extends name g) rfl

theorem Stocked.addRule (hg : g.Stocked) (rule : Rule) : (addRule rule g).2.Stocked :=
  hg.of_graph_eq (addRule_extends rule g) rfl

theorem Stocked.addTerminal (hg : g.Stocked) (rule : RuleId) :
    (addNode { kind := .terminal rule } g).2.Stocked := by
  refine hg.extends (addNode_extends _ g) fun id node hnew hnode => ?_
  rcases Graph.eq_or_eq_of_node?_alloc hnode with hold | rfl
  · exact absurd (Graph.lt_size_of_node? hold) (Nat.not_lt.2 hnew)
  · exact Graph.spelled_none rfl

theorem Stocked.editNode (hg : g.Stocked) (id : StateId) {f : Node → Node}
    (hf : ∀ node, (f node).token = node.token) : (editNode id f g).2.Stocked := by
  have hgraph : g.graph.Stocked g.tokens.size g.graph.size := ⟨hg.spelled, Nat.le_refl _⟩
  have hedited := hgraph.edit id fun node hnode => by
    unfold Node.Spelled
    rw [hf node]
    exact hnode
  exact ⟨hedited.spelled, fun root hroot => Nat.lt_of_lt_of_le (hg.root root hroot) hedited.least⟩

theorem Stocked.onGraph (hg : g.Stocked) {edit : Attempt GrammarError Graph α}
    (h : Keeps (Graph.Stocked g.tokens.size g.graph.size) edit) : (onGraph edit g).2.Stocked := by
  have hedited := (h g.graph ⟨hg.spelled, Nat.le_refl _⟩).2
  exact ⟨hedited.spelled, fun root hroot => Nat.lt_of_lt_of_le (hg.root root hroot) hedited.least⟩

/-! ## Calls -/

/-- A state that stands for a pattern has the token of the pattern, by its name. -/
theorem Depicts.spelled {id : StateId} {p : Pattern} (h : g.Depicts id p) {node : Node}
    (hnode : g.graph.node? id = some node) : node.Spelled g.tokens.size := by
  have hown : ∀ {token name}, Option.Rel g.Calls node.token name → token ∈ node.token →
      token.index < g.tokens.size := by
    intro token name hrel htoken
    rw [Option.mem_def.1 htoken] at hrel
    cases hrel with
    | some hcalls => exact hcalls.lt_size
  intro token htoken
  cases h with
  | terminal hfound _ _ _ _ _ hcalls =>
    obtain rfl := Option.some.inj (hfound.symm.trans hnode)
    rw [Option.mem_def.1 htoken] at hcalls
    exact hcalls.lt_size
  | repetition hfound _ _ _ hrel =>
    obtain rfl := Option.some.inj (hfound.symm.trans hnode)
    exact hown hrel htoken
  | choice hfound _ _ hrel =>
    obtain rfl := Option.some.inj (hfound.symm.trans hnode)
    exact hown hrel htoken

/-- Every state that is planted stands for a pattern. -/
theorem Stocked.plant (hg : g.Stocked) (p : Pattern) : (p.plant g).2.Stocked := by
  have hsprouts := p.plant_sprouts g
  refine hg.extends hsprouts.toExtends fun id node hnew hnode => ?_
  obtain ⟨q, hq⟩ := hsprouts.whole id ⟨hnew, Graph.lt_size_of_node? hnode⟩
  exact hq.spelled hnode

theorem oneOf_stocked (token : String) (choices : List String) :
    Keeps Stocked (oneOf token choices) := by
  apply (Stays.lift fun g hg => hg.intern token).bind
  intro token
  apply Stays.ofExcept_bind fun _ _ => trivial
  intro rule _
  apply (Stays.lift fun g hg => hg.addRule rule).bind
  intro id
  exact .lift fun g hg => hg.addTerminal id

theorem terminal_stocked (rule : RuleId) : Keeps Stocked (terminal rule) :=
  .get_bind fun _ _ => .ofExcept_bind (fun _ _ => trivial) fun _ _ =>
    .lift fun _ hg => hg.addTerminal rule

theorem sequence_stocked (states : List StateId) : Keeps Stocked (sequence states) := by
  refine (Stays.forM fun _ _ => ?_).bind fun _ => .pure _
  exact .of_keeps fun g hg => hg.onGraph (Graph.link_stocked _ _)

/-- The name is known before the state gets it as its token. -/
theorem retoken_stocked (state : StateId) (token : Option String) :
    Keeps Stocked (retoken state token) := by
  refine .of_keeps fun g hg => ?_
  cases token with
  | none => exact hg.onGraph (Graph.setToken_stocked state (by simp))
  | some name =>
    refine (hg.intern name).onGraph (Graph.setToken_stocked state fun token htoken => ?_)
    obtain rfl := Option.some.inj htoken
    exact (intern_calls name g).lt_size

theorem annotate_stocked (state : StateId) (annotations : Annotations) :
    Keeps Stocked (annotate state annotations) := by
  apply Stays.get_bind
  intro _ _
  apply Stays.ofExcept_bind fun _ _ => trivial
  intro node _
  rcases node with ⟨kind, token, own, branches⟩
  cases kind with
  | terminal id =>
    apply Stays.get_bind
    intro _ _
    apply Stays.ofExcept_bind fun _ _ => trivial
    intro rule _
    apply (Stays.lift fun g hg => hg.addRule _).bind
    intro id
    exact .lift fun g hg => hg.editNode state fun _ => rfl
  | repetition child min max => exact .lift fun g hg => hg.editNode state fun _ => rfl
  | choice => exact .lift fun g hg => hg.editNode state fun _ => rfl

theorem read_stocked (text : String) : Keeps Stocked (read text) :=
  read_keeps_of_plant (fun p _ _ hg => hg.plant p) text

theorem setRoot_stocked (state : StateId) : Keeps Stocked (setRoot state) := by
  refine .of_keeps fun g hg => ?_
  show Stocked ((ofExcept (g.graph.node state) >>= _) g).2
  rw [bind_apply, ofExcept_apply]
  cases hnode : g.graph.node state with
  | error e => exact hg
  | ok node =>
    refine ⟨hg.spelled, fun root hroot => ?_⟩
    obtain rfl := Option.some.inj hroot
    exact Graph.lt_size_of_node? (Graph.node_eq_ok_iff.1 hnode)

/-- Every call keeps tokens and root in order. -/
theorem Stocked.after (hg : g.Stocked) (call : Call) : (g.after call).Stocked := by
  cases call with
  | intern name => exact hg.intern name
  | addRule rule => exact hg.addRule rule
  | oneOf token choices => exact (oneOf_stocked token choices g hg).2
  | terminal rule => exact (terminal_stocked rule g hg).2
  | repetition child min max => exact hg.onGraph (Graph.repetition_stocked child min max)
  | choice branches => exact hg.onGraph (Graph.choice_stocked branches)
  | link source target => exact hg.onGraph (Graph.link_stocked source target)
  | sequence states => exact (sequence_stocked states g hg).2
  | retoken state token => exact (retoken_stocked state token g hg).2
  | annotate state annotations => exact (annotate_stocked state annotations g hg).2
  | copy state => exact hg.onGraph (Graph.copy_stocked state)
  | read text => exact (read_stocked text g hg).2
  | setRoot state => exact (setRoot_stocked state g hg).2

theorem Built.stocked (h : Built g) : g.Stocked := by
  induction h with
  | empty => exact stocked_empty
  | after _ call ih => exact ih.after call

/-! ## All that is in order -/

/-- All that is named is there, bounds are in order, and annotations are where they belong. -/
structure WellFormed (g : Grammar) : Prop where
  /-- The child and the branches of a state are there. -/
  states : ∀ id node, g.graph.node? id = some node →
    ∀ j ∈ node.successors, ∃ next, g.graph.node? j = some next
  /-- The rule of a terminal is there and has a literal. -/
  rules : ∀ id node ruleId, g.graph.node? id = some node → node.kind = .terminal ruleId →
    ∃ rule, g.rules.get? ruleId = some rule ∧ rule.choices.toList ≠ []
  bounds : ∀ id node child min max, g.graph.node? id = some node →
    node.kind = .repetition child min (some max) → min ≤ max
  /-- The token of a state has a name. -/
  tokens : ∀ id node token, g.graph.node? id = some node → node.token = some token →
    ∃ name, g.Calls token name
  /-- A terminal has no annotations but those of its rule. -/
  plain : ∀ id node ruleId, g.graph.node? id = some node → node.kind = .terminal ruleId →
    node.annotations = {}
  root : ∀ id, g.root = some id → ∃ node, g.graph.node? id = some node

theorem le_of_checkBounds {min max : UInt32} (h : checkBounds min (some max) = .ok ()) :
    min ≤ max := by
  by_contra hle
  have hinverted : checkBounds min (some max) = .error (.invertedBounds min max) := if_neg hle
  rw [hinverted] at h
  cases h

theorem Built.wellFormed (hg : Built g) : g.WellFormed where
  states id node hnode j hj := Graph.exists_node?_of_lt_size ((hg.closed id node hnode).states j hj)
  rules id node ruleId hnode hkind := by
    have hlt : ruleId.index < g.rules.rules.size := (hg.closed id node hnode).rule ruleId hkind
    exact ⟨g.rules.rules[ruleId.index], Array.getElem?_eq_getElem hlt, List.cons_ne_nil _ _⟩
  bounds id node child min max hnode hkind := by
    have hproper := hg.proper id node hnode
    unfold Node.Proper at hproper
    rw [hkind] at hproper
    exact le_of_checkBounds hproper
  tokens id node token hnode htoken := calls_of_lt_size (hg.stocked.spelled id node hnode token htoken)
  plain id node ruleId hnode hkind := hg.proper.plainTerminals id node ruleId hnode hkind
  root id hid := Graph.exists_node?_of_lt_size (hg.stocked.root id hid)

end Lexigraph.Grammar
