/-
# Lexigraph.Scanner.Move -- what may be asked of a scanner

A caller compares literals, sets marks and closes them, in any order. Every move that the
scanner lets pass leaves a step: what the move came to, with the position or the span that
the scanner answered. A mark has to be open where one is closed (`Scanner.paired`).
-/

import Lexigraph.Scanner

namespace Lexigraph.Scanner

/-- A move of a scanner. -/
inductive Move where
  | scan (literal : String)
  | mark
  | rewind
  | proceed
  deriving DecidableEq, Repr

/-- What a move came to. -/
inductive Step where
  /-- The text went on with the literal, and the scanner is past it. -/
  | matched (literal : String)
  | missed (literal : String)
  /-- A mark is set at the position. -/
  | marked (position : Nat)
  /-- The newest mark is closed, and the scanner is at the position. -/
  | rewound (position : Nat)
  /-- The newest mark is closed, and the span is the answer. -/
  | proceeded (span : Span)
  deriving DecidableEq, Repr

/-- Makes a move. -/
def move (s : Scanner) : Move → Except Fault (Step × Scanner)
  | .scan literal =>
    match s.scan literal.toList with
    | (true, s) => .ok (.matched literal, s)
    | (false, s) => .ok (.missed literal, s)
  | .mark => .ok (.marked s.position, s.mark)
  | .rewind => do
    let s ← s.rewind
    return (.rewound s.position, s)
  | .proceed => do
    let (span, s) ← s.proceed
    return (.proceeded span, s)

/-- Makes moves one after another; lists their steps. -/
def moveAll (s : Scanner) : List Move → Except Fault (List Step × Scanner)
  | [] => .ok ([], s)
  | m :: moves => do
    let (step, s) ← s.move m
    let (steps, s) ← s.moveAll moves
    return (step :: steps, s)

/-- With so many marks open, is a mark open wherever the moves close one? -/
def paired : Nat → List Move → Bool
  | _, [] => true
  | depth, .scan _ :: moves => paired depth moves
  | depth, .mark :: moves => paired (depth + 1) moves
  | depth + 1, .rewind :: moves | depth + 1, .proceed :: moves => paired depth moves
  | 0, .rewind :: _ | 0, .proceed :: _ => false

end Lexigraph.Scanner
