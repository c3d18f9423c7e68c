/-
# Lexigraph.Graph.Copy -- a second copy of what a state reaches

A state reaches its child and its branches and what those reach. `copy` adds one new
state for each state reached, in the order of a walk that goes to the child first and
then to the branches, and lets the new states name one another where the old ones did.
So sharing and cycles are kept, and no new state names an old one.
-/

import Std.Data.HashMap
import Lexigraph.Graph

namespace Lexigraph.Graph

/-- The states of a walk in the order in which they were met, and the place of each. -/
structure Walk where
  met : Array Node := #[]
  place : Std.HashMap StateId Nat := {}

namespace Walk

/-- Was the state met? -/
def hasMet (w : Walk) (id : StateId) : Bool := w.place.contains id

/-- The walk one state further. -/
def meet (w : Walk) (id : StateId) (node : Node) : Walk where
  met := w.met.push node
  place := w.place.insert id w.met.size

end Walk

/-- Walks through the pending states and all that they reach, the first one first, for at most
`fuel` new states. A pending state that is not there ends the walk with an error. -/
def walkFrom (g : Graph) (fuel : Nat) (pending : List StateId) (w : Walk) :
    Except GrammarError Walk :=
  match fuel with
  | 0 => .ok w
  | fuel + 1 =>
    match pending.dropWhile w.hasMet with
    | [] => .ok w
    | id :: pending => do
      let node ← g.node id
      walkFrom g fuel (node.successors ++ pending) (w.meet id node)

/-- Walks through all that a state reaches. Each state is met once, so one step more than there
are states is enough. -/
def walk (g : Graph) (root : StateId) : Except GrammarError Walk :=
  walkFrom g (g.size + 1) [root] {}

/-- Adds a copy of all that a state reaches; answers the copy of the state. -/
def copy (root : StateId) : Attempt GrammarError Graph StateId := do
  let g ← get
  let w ← Attempt.ofExcept (g.walk root)
  let rename (id : StateId) : StateId := ⟨g.size + w.place.getD id 0⟩
  set { nodes := g.nodes ++ w.met.map (Node.rename rename) : Graph }
  return rename root

end Lexigraph.Graph
