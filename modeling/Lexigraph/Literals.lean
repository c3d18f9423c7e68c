/-
# Lexigraph.Literals -- what a terminal may match

A terminal has one literal or more, in the order in which they are tried. A literal may be
the empty text. They are written quoted, between parentheses, with a bar between two.
-/

import Lexigraph.Text.Quoted

namespace Lexigraph

/-- One literal or more. -/
structure Literals where
  first : String
  others : List String := []
  deriving DecidableEq, Repr, Inhabited

namespace Literals

/-- The literals in order. -/
def toList (l : Literals) : List String := l.first :: l.others

/-- The literals of a list that is not empty. -/
def ofList? : List String → Option Literals
  | [] => none
  | first :: others => some { first, others }

@[simp] theorem ofList?_toList (l : Literals) : ofList? l.toList = some l := rfl

/-- The written literals. -/
def text (l : Literals) : List Char :=
  '(' :: (" | ".toList.intercalate (l.toList.map fun c => Text.quoted c.toList) ++ [')'])

end Literals

end Lexigraph
