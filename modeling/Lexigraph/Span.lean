/-
# Lexigraph.Span -- ranges of bytes

A span is a half-open range of byte offsets into a source. `Span.between` makes only
spans that do not end before they start; the operations are defined on all of them.
-/

import Lexigraph.Fault
import Lexigraph.Source

namespace Lexigraph

/-- The bytes from `start` up to, and without, `stop`. -/
structure Span where
  start : Nat
  stop : Nat
  deriving DecidableEq, Repr, Inhabited

namespace Span

/-- The span between two offsets, which have to be in order. -/
def between (start stop : Nat) : Except Fault Span :=
  if start ≤ stop then .ok ⟨start, stop⟩ else .error .reversedSpan

/-- Number of bytes covered; a reversed span has none. -/
def length (s : Span) : Except Fault Nat :=
  if s.start ≤ s.stop then .ok (s.stop - s.start) else .error .negativeLength

/-- Is nothing covered? -/
def isEmpty (s : Span) : Bool := s.start == s.stop

/-- The covered text, unless the span is reversed, reaches outside the source or splits a
character. -/
def slice? (s : Span) (source : Source) : Option (List Char) :=
  if s.start ≤ s.stop then (source.rest? s.start).bind (Text.before? · (s.stop - s.start))
  else none

instance : ToString Span where
  toString s := s!"{s.start}..{s.stop}"

@[simp] theorem slice?_eq (s : Span) (source : Source) :
    s.slice? source = Text.slice? source.chars s.start s.stop := by
  simp [slice?, Text.slice?]

end Span

end Lexigraph
