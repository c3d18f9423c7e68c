/-
# Lexigraph.Grammar -- tokens, rules and states together

A grammar holds the token names, the rules and the states that refer to one another, and
perhaps the state that scanning starts from. It is built by edits. An edit that names
something unknown fails; it leaves the states, the rules and the root that were there as
they were, apart from the links that a sequence made before it met the unknown state.
-/

import Lexigraph.Graph.Copy
import Lexigraph.Rule

namespace Lexigraph

/-- Token names, rules, states, and the state to start from. -/
structure Grammar where
  tokens : TokenTable := .empty
  rules : RuleTable := {}
  graph : Graph := {}
  root : Option StateId := none

/-- A change of a grammar that can fail. -/
abbrev GrammarEdit := Attempt GrammarError Grammar

namespace Grammar

/-- The grammar with nothing in it. -/
def empty : Grammar := {}

/-- Works on the states of a grammar. -/
@[inline] def onGraph {α : Type} (edit : Attempt GrammarError Graph α) : GrammarEdit α :=
  edit.within (·.graph) fun g graph => { g with graph }

/-! ## Tokens and rules -/

/-- The number of a token name, which is new or known. -/
def intern (name : String) : StateM Grammar TokenId := modifyGet fun g =>
  let (id, tokens) := g.tokens.intern name
  (id, { g with tokens })

/-- Adds a rule; answers its number. -/
def addRule (rule : Rule) : StateM Grammar RuleId := modifyGet fun g =>
  let (id, rules) := g.rules.push rule
  (id, { g with rules })

/-- Adds a state as it is; answers its number. -/
def addNode (node : Node) : StateM Grammar StateId := modifyGet fun g =>
  let (id, graph) := Graph.alloc node g.graph
  (id, { g with graph })

/-- Changes a state, if there is one with the number. -/
def editNode (id : StateId) (f : Node → Node) : StateM Grammar Unit := modify fun g =>
  { g with graph := (Graph.edit id f g.graph).2 }

/-! ## States -/

/-- Adds a state that matches the first of some literals, and the rule for it. The token name is
known from then on even if there is no literal. -/
def oneOf (token : String) (choices : List String) : GrammarEdit StateId := do
  let token ← intern token
  let rule ← addRule (← Attempt.ofExcept (Rule.oneOf token choices))
  addNode { kind := .terminal rule }

/-- Adds a state that matches what a rule matches. -/
def terminal (rule : RuleId) : GrammarEdit StateId := do
  let _ ← Attempt.ofExcept ((← get).rules.get rule)
  addNode { kind := .terminal rule }

/-- Adds a state that repeats a child. -/
def repetition (child : StateId) (min : UInt32) (max : Option UInt32) : GrammarEdit StateId :=
  onGraph (Graph.repetition child min max)

/-- Adds a choice between some states. -/
def choice (branches : List StateId) : GrammarEdit StateId :=
  onGraph (Graph.choice branches)

/-- Lets a state go on with another one, after its other branches. -/
def link (source target : StateId) : GrammarEdit Unit :=
  onGraph (Graph.link source target)

/-- Lets each of some states go on with the next one; answers the first. -/
def sequence (states : List StateId) : GrammarEdit (Option StateId) := do
  (states.zip states.tail).forM fun (source, target) => link source target
  return states.head?

/-- Sets the token that a state's match stands for. Without one, a terminal has the token of its
rule. -/
def retoken (state : StateId) (token : Option String) : GrammarEdit Unit := do
  let token ← token.mapM fun name => (intern name : GrammarEdit TokenId)
  onGraph (Graph.setToken state token)

/-- Adds annotations to a state. A terminal gets a rule of its own for them, so that other states
with the rule are left alone. -/
def annotate (state : StateId) (annotations : Annotations) : GrammarEdit Unit := do
  let node ← Attempt.ofExcept ((← get).graph.node state)
  match node.kind with
  | .terminal id =>
    let rule ← Attempt.ofExcept ((← get).rules.get id)
    let id ← addRule (rule.derive none (some (rule.annotations.merged annotations)))
    editNode state fun n => { n with kind := .terminal id }
  | .repetition .. | .choice =>
    editNode state fun n => { n with annotations := n.annotations.merged annotations }

/-- Adds a copy of all that a state reaches; answers the copy of the state. -/
def copy (state : StateId) : GrammarEdit StateId :=
  onGraph (Graph.copy state)

/-- Sets the state to start from. -/
def setRoot (state : StateId) : GrammarEdit Unit := do
  let _ ← Attempt.ofExcept ((← get).graph.node state)
  modify fun g => { g with root := some state }

end Grammar

end Lexigraph
