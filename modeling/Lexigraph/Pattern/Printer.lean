/-
# Lexigraph.Pattern.Printer -- the text of a pattern

    pattern  :=  annotations body ("->" name)? branches
    body     :=  "(" literal (" | " literal)* ")"         a terminal
              |  "(" pattern ("," min ("," max)?)? ")"    a repetition
              |  "()"                                     a choice
    branches :=  ""  |  "." pattern  |  ".{" pattern ("," pattern)* "}"

Bounds are left out when they are the usual ones, at least once and without a maximum.
Several branches stand on lines of their own, one tab further in than what they belong
to; a single branch stays on the line.
-/

import Lexigraph.Pattern
import Lexigraph.Text.Name

namespace Lexigraph.Pattern

/-- A new line, `depth` tabs in. -/
def newLine (depth : Nat) : List Char := '\n' :: List.replicate depth '\t'

/-- The token of a pattern: an arrow and the name. -/
def tokenText : Option String → List Char
  | none => []
  | some token => '-' :: '>' :: Text.name token.toList

/-- A count after a comma. -/
def countText (n : UInt32) : List Char := ',' :: Nat.toDigits 10 n.toNat

/-- The bounds of a repetition, unless they are the usual ones. -/
def boundsText (min : UInt32) : Option UInt32 → List Char
  | none => if min = 1 then [] else countText min
  | some max => countText min ++ countText max

mutual

/-- The text of a pattern whose lines are `depth` tabs in, followed by `rest`. -/
def write (depth : Nat) (p : Pattern) (rest : List Char) : List Char :=
  match p with
  | .terminal annotations choices token branches =>
    annotations.lead ++ (choices.text ++
      (tokenText (some token) ++ writeBranches depth branches rest))
  | .repetition annotations child min max token branches =>
    annotations.lead ++ '(' :: write (depth + 1) child (boundsText min max ++ ')' ::
      (tokenText token ++ writeBranches depth branches rest))
  | .choice annotations token branches =>
    annotations.lead ++ '(' :: ')' :: (tokenText token ++ writeBranches depth branches rest)

/-- The text of branches, followed by `rest`. -/
def writeBranches (depth : Nat) (ps : List Pattern) (rest : List Char) : List Char :=
  match ps with
  | [] => rest
  | [p] => '.' :: write depth p rest
  | p :: ps => '.' :: '{' :: (newLine (depth + 1) ++
      write (depth + 1) p (writeMore depth ps rest))

/-- The text of the branches after the first, and of the end of the list, followed by `rest`. -/
def writeMore (depth : Nat) (ps : List Pattern) (rest : List Char) : List Char :=
  match ps with
  | [] => newLine depth ++ '}' :: rest
  | p :: ps => ',' :: (newLine (depth + 1) ++
      write (depth + 1) p (writeMore depth ps rest))

end

/-- The text of a pattern. -/
def text (p : Pattern) : List Char := write 0 p []

instance : ToString Pattern where
  toString p := String.ofList p.text

end Lexigraph.Pattern
