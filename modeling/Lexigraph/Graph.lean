/-
# Lexigraph.Graph -- states and the edges between them

A state matches something itself and then goes on with one of its branches. There are
three kinds of state: a terminal matches what its rule matches, a repetition runs a child
several times, a choice matches nothing itself and takes the first branch that matches.
Branches are ordered; a state may be a branch of several states and of itself.

States are numbered in the order in which they were added. An edit names an existing
state or is refused, and a refused edit changes nothing, except that a choice that names
an unknown branch stays behind with the branches before it.
-/

import Lexigraph.Annotations
import Lexigraph.Attempt
import Lexigraph.Error

namespace Lexigraph

/-- What a state matches itself. -/
inductive NodeKind where
  /-- What a rule matches. -/
  | terminal (rule : RuleId)
  /-- What `child` matches, at least `min` and at most `max` times over. -/
  | repetition (child : StateId) (min : UInt32) (max : Option UInt32)
  /-- What the first of the branches matches that matches at all. -/
  | choice
  deriving DecidableEq, Repr, Inhabited

/-- A state: what it matches, the token that its match stands for, and how to go on. -/
structure Node where
  kind : NodeKind
  token : Option TokenId := none
  annotations : Annotations := {}
  branches : List StateId := []
  deriving DecidableEq, Repr, Inhabited

namespace Node

/-- The child that a state repeats. -/
def child? (n : Node) : Option StateId :=
  match n.kind with
  | .repetition child _ _ => some child
  | .terminal _ | .choice => none

/-- The states that a state names: its child, then its branches. -/
def successors (n : Node) : List StateId := n.child?.toList ++ n.branches

/-- The node with the states it names renamed. -/
def rename (f : StateId → StateId) (n : Node) : Node :=
  { n with
    kind := match n.kind with
      | .repetition child min max => .repetition (f child) min max
      | kind => kind
    branches := n.branches.map f }

end Node

/-- States in the order of their numbers. -/
structure Graph where
  nodes : Array Node := #[]
  deriving DecidableEq, Repr, Inhabited

namespace Graph

/-- How many states there are. -/
def size (g : Graph) : Nat := g.nodes.size

/-- The state with a number. -/
def node? (g : Graph) (id : StateId) : Option Node := g.nodes[id.index]?

/-- Is there a state with the number? -/
def contains (g : Graph) (id : StateId) : Bool := id.index < g.size

/-- The state with a number; it is an error to ask for one that is not there. -/
def node (g : Graph) (id : StateId) : Except GrammarError Node :=
  match g.node? id with
  | some node => .ok node
  | none => .error (.unknownState id)

/-- The branches of a state. -/
def branches (g : Graph) (id : StateId) : Except GrammarError (List StateId) :=
  return (← g.node id).branches

/-! ## Building -/

/-- Adds a state as it is, whether or not there is what it names; answers its number. -/
def alloc (node : Node) : StateM Graph StateId :=
  modifyGet fun g => (⟨g.size⟩, { nodes := g.nodes.push node })

/-- Fails unless there is a state with the number. -/
def require (id : StateId) : Attempt GrammarError Graph Unit := do
  unless (← get).contains id do throw (.unknownState id)

/-- Changes a state, if there is one with the number. -/
def edit (id : StateId) (f : Node → Node) : StateM Graph Unit :=
  modify fun g => { nodes := g.nodes.modify id.index f }

/-- Changes a state, which has to be there. -/
def update (id : StateId) (f : Node → Node) : Attempt GrammarError Graph Unit := do
  require id
  edit id f

/-- Adds a state that matches what a rule matches. -/
def terminal (rule : RuleId) : StateM Graph StateId :=
  alloc { kind := .terminal rule }

/-- Adds a state that repeats a child. -/
def repetition (child : StateId) (min : UInt32) (max : Option UInt32) :
    Attempt GrammarError Graph StateId := do
  require child
  Attempt.ofExcept (checkBounds min max)
  alloc { kind := .repetition child min max }

/-- Adds a branch to the end of a state's branches. -/
def link (source target : StateId) : Attempt GrammarError Graph Unit := do
  require target
  update source fun n => { n with branches := n.branches ++ [target] }

/-- Adds a choice between some states, of which it may be one itself. At an unknown branch this
fails; the choice is there all the same, with the branches before that one. -/
def choice (branches : List StateId) : Attempt GrammarError Graph StateId := do
  let id ← alloc { kind := .choice }
  let known := branches.takeWhile (← get).contains
  update id fun n => { n with branches := known }
  match branches.drop known.length with
  | [] => return id
  | unknown :: _ => throw (.unknownState unknown)

/-- Sets the token that a state's match stands for. -/
def setToken (id : StateId) (token : Option TokenId) : Attempt GrammarError Graph Unit :=
  update id fun n => { n with token }

end Graph

end Lexigraph
