/-
# Lexigraph.Scanner -- a reading position with marks

A scanner stands at a position of a source and moves forward by matching literals. A
mark remembers a position: `rewind` goes back to the newest mark, `proceed` drops it and
answers the span read since. The position and all marks are boundaries of the source, by
type. A scanner also counts the comparisons it made.
-/

import Lexigraph.Source
import Lexigraph.Span

namespace Lexigraph

/-- A position in a source, with the marks set on the way, newest first. -/
structure Scanner where
  source : Source
  position : Nat := 0
  marks : List Nat := []
  /-- Literals compared so far. -/
  comparisons : Nat := 0
  position_ok : source.IsBoundary position := by exact Source.isBoundary_zero _
  marks_ok : ∀ m ∈ marks, source.IsBoundary m := by simp

namespace Scanner

/-- A scanner at the start of a text. -/
def ofString (text : String) : Scanner := { source := .ofString text }

/-- Is nothing left to read? -/
def atEnd (s : Scanner) : Bool := s.source.size ≤ s.position

/-- The text that is left. -/
def remaining (s : Scanner) : List Char := s.source.rest s.position s.position_ok

/-- Number of bytes that are left. -/
def bytesLeft (s : Scanner) : Nat := s.source.size - s.position

/-- Moves to a position, which has to be a boundary of the source. -/
def moveTo (s : Scanner) (position : Nat) : Except Fault Scanner :=
  if s.source.size < position then .error (.outOfBounds position s.source.size)
  else if h : s.source.IsBoundary position then .ok { s with position, position_ok := h }
  else .error (.splitsCharacter position)

/-- Remembers the position. -/
def mark (s : Scanner) : Scanner :=
  { s with
    marks := s.position :: s.marks
    marks_ok := fun m hm => by
      rcases List.mem_cons.1 hm with rfl | hm
      · exact s.position_ok
      · exact s.marks_ok m hm }

/-- Goes back to the newest mark and drops it. -/
def rewind (s : Scanner) : Except Fault Scanner :=
  match h : s.marks with
  | [] => .error .rewindUnmarked
  | m :: marks => .ok { s with
      position := m
      marks := marks
      position_ok := s.marks_ok m (by simp [h])
      marks_ok := fun k hk => s.marks_ok k (by simp [h, hk]) }

/-- Drops the newest mark and answers the span read since it was set. -/
def proceed (s : Scanner) : Except Fault (Span × Scanner) :=
  match h : s.marks with
  | [] => .error .proceedUnmarked
  | m :: marks => do
      let span ← Span.between m s.position
      return (span, { s with
        marks := marks
        marks_ok := fun k hk => s.marks_ok k (by simp [h, hk]) })

/-- Moves past a literal if the text goes on with it; says whether it did. -/
def scan (s : Scanner) (literal : List Char) : Bool × Scanner :=
  if h : literal <+: s.remaining then
    (true, { s with
      position := s.position + Text.size literal
      comparisons := s.comparisons + 1
      position_ok := s.position_ok.add_size h })
  else
    (false, { s with comparisons := s.comparisons + 1 })

/-- Moves past the first of some literals that the text goes on with; says whether there is
one. -/
def scanFirst (s : Scanner) : List String → Bool × Scanner
  | [] => (false, s)
  | literal :: literals =>
    match s.scan literal.toList with
    | (true, s) => (true, s)
    | (false, s) => s.scanFirst literals

/-- What is said of a literal that was not found. -/
def missMessage (s : Scanner) : String :=
  s!"literal did not match at offset {s.position}"

end Scanner

end Lexigraph
