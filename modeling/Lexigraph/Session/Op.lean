/-
# Lexigraph.Session.Op -- what may be asked of a session

A caller scans states, runs a root, and begins and ends frames, in any order. An operation
that fails leaves the session as far as it got, and the next one goes on from there.
-/

import Lexigraph.Session.Scan

namespace Lexigraph.Session

/-- An operation on a session. -/
inductive Op where
  | scan (state : StateId)
  | run (root : StateId)
  | push
  | pop (publish : Bool)
  deriving DecidableEq, Repr

variable (g : Grammar)

/-- Performs an operation. Only a scan answers something: whether the state matched. -/
def perform : Op → Scanning (Option Bool)
  | .scan state => do return some (← scan g state)
  | .run root => do
    run g root
    return none
  | .push => do
    push
    return none
  | .pop publish => do
    pop publish
    return none

/-- Performs operations one after another; lists what each of them answered, with the session
after it. -/
def performAll : List Op → Session → List (Except (Stop ScanError) (Option Bool) × Session)
  | [], _ => []
  | op :: ops, s =>
    let (answer, s) := perform g op s
    (answer, s) :: performAll ops s

/-- A session that operations lead to from the start of a source, with a memo that knows nothing
yet or without one. Whether the operations succeed makes no difference. -/
inductive Reached : Session → Prop where
  | start (source : String) (settings : Settings) : Reached (.start source settings)
  | plain (source : String) (settings : Settings) : Reached (.start source settings .off)
  | perform {s : Session} (h : Reached s) (op : Op) : Reached (perform g op s).2

/-- The root frame is not to be ended, and a run is for the root frame alone. -/
def Op.Allowed (s : Session) : Op → Prop
  | .pop _ => 2 ≤ s.frameCount
  | .run _ => s.frameCount = 1
  | .scan _ | .push => True

/-- What a caller sees of a session, its memo and its count of comparisons apart. -/
structure View where
  position : Nat
  marks : List Nat
  /-- The frames, the active one first. -/
  frames : List Frame
  steps : Nat
  furthest : Option Nat
  events : Array Event
  deriving DecidableEq, Repr

/-- What a caller sees of the session. -/
def view (s : Session) : View where
  position := s.scanner.position
  marks := s.scanner.marks
  frames := s.active :: s.outer
  steps := s.steps
  furthest := s.furthest
  events := s.events

end Lexigraph.Session
