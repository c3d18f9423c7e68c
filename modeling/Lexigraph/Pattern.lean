/-
# Lexigraph.Pattern -- what a state stands for, as a tree

A pattern is a state of a grammar together with all that it reaches, written out: rules
stand where they are used, tokens are called by their names, and a shared state occurs
once for each use. Patterns are what grammar text denotes.
-/

import Lexigraph.Annotations
import Lexigraph.Literals

namespace Lexigraph

/-- A state written out, with the patterns that it goes on with. -/
inductive Pattern where
  /-- The first of some literals that matches. -/
  | terminal (annotations : Annotations) (choices : Literals) (token : String)
      (branches : List Pattern)
  /-- A pattern, at least `min` and at most `max` times over. -/
  | repetition (annotations : Annotations) (child : Pattern) (min : UInt32)
      (max : Option UInt32) (token : Option String) (branches : List Pattern)
  /-- Nothing but the first of the branches that matches. -/
  | choice (annotations : Annotations) (token : Option String) (branches : List Pattern)
  deriving Inhabited

namespace Pattern

/-- The patterns that a pattern goes on with. -/
def branches : Pattern → List Pattern
  | .terminal _ _ _ branches | .repetition _ _ _ _ _ branches | .choice _ _ branches => branches

/-- The same pattern, going on with other patterns. -/
def withBranches (branches : List Pattern) : Pattern → Pattern
  | .terminal annotations choices token _ => .terminal annotations choices token branches
  | .repetition annotations child min max token _ =>
    .repetition annotations child min max token branches
  | .choice annotations token _ => .choice annotations token branches

theorem withBranches_self {p : Pattern} (h : p.branches = []) : p.withBranches [] = p := by
  cases p <;> cases h <;> rfl

end Pattern

end Lexigraph
