/-
# Lexigraph.Fault -- how a computation stops early

An operation can stop for two reasons. An error is a value that its caller is meant to
handle. A fault says that a caller broke a promise (it took back a mark it never set,
it moved a position into the middle of a character): nothing sensible can follow it. A
recursive computation can also have no result at all; `Stop.endless` stands for that.

`Action ε σ` is the type of a stateful computation that can stop in these three ways.
Its state outlives a stop, so what was done before an error stays done.
-/

import Lexigraph.Attempt

namespace Lexigraph

/-- A broken promise of a caller. -/
inductive Fault where
  /-- A span was asked for that ends before it starts. -/
  | reversedSpan
  /-- The length of a reversed span was asked for. -/
  | negativeLength
  /-- A depth guard was left more often than it was entered. -/
  | unpairedExit
  /-- There is no mark to go back to. -/
  | rewindUnmarked
  /-- There is no mark to proceed from. -/
  | proceedUnmarked
  /-- A position lies past the end of the source. -/
  | outOfBounds (position size : Nat)
  /-- A position lies inside a character. -/
  | splitsCharacter (position : Nat)
  /-- A second, different result was recorded for one rule at one position. -/
  | conflictingResult
  /-- The scanner and the active frame of a session stand at different positions. -/
  | positionsDiffer
  /-- The last frame of a session was to be popped. -/
  | rootPopped
  /-- A run ended with more than the root frame. -/
  | unbalancedFrames
  /-- A run ended with marks still open. -/
  | unbalancedMarks
  deriving DecidableEq, Repr

/-- The text of a fault. -/
def Fault.message : Fault → String
  | .reversedSpan => "span end precedes start"
  | .negativeLength => "attempt to subtract with overflow"
  | .unpairedExit => "depth guard exited more than entered"
  | .rewindUnmarked => "rewind without a matching mark"
  | .proceedUnmarked => "proceed without a matching mark"
  | .outOfBounds position size => s!"scanner position {position} out of bounds (len {size})"
  | .splitsCharacter position => s!"scanner position {position} splits a character"
  | .conflictingResult =>
    "assertion `left == right` failed: result cache entries are write-once"
  | .positionsDiffer => "assertion `left == right` failed"
  | .rootPopped => "attempted to pop the root context"
  | .unbalancedFrames => "assertion `left == right` failed: unbalanced context stack"
  | .unbalancedMarks => "assertion `left == right` failed: unbalanced scanner marks"

/-- Why a computation has no ordinary result. -/
inductive Stop (ε : Type) where
  /-- An error for the caller to handle. -/
  | error (e : ε)
  /-- A promise was broken. -/
  | fault (f : Fault)
  /-- The computation has no end. -/
  | endless
  deriving DecidableEq, Repr

/-- A computation on a state `σ` that can stop early; the state outlives the stop. -/
abbrev Action (ε σ : Type) := Attempt (Stop ε) σ

namespace Action

variable {ε σ α : Type}

/-- Stops with an error. -/
def fail (e : ε) : Action ε σ α := throw (.error e)

/-- Stops with a fault. -/
def abort (f : Fault) : Action ε σ α := throw (.fault f)

/-- Goes on with a result, or stops with its error. -/
def ofResult : Except ε α → Action ε σ α
  | .ok a => pure a
  | .error e => fail e

/-- Goes on with what was checked, or stops with the fault that the check found. -/
def ofChecked : Except Fault α → Action ε σ α
  | .ok a => pure a
  | .error f => abort f

end Action

end Lexigraph
