/-
# Lexigraph.Session -- the state of scanning one source

A session owns all that changes while a source is scanned: the scanner, the memo, the
frames, the depth guard and the counters. Each frame knows where the text begins that no
token covers yet, how far scanning has got, and the tokens emitted in it. Work that may
come to nothing is done in a frame of its own. A frame that is popped hands on its
position and, if it is published, its tokens; else they are gone.

The session also keeps a record of what happened, as events in order.
-/

import Lexigraph.Nesting
import Lexigraph.Rule

namespace Lexigraph

/-! ## Settings -/

/-- What a repetition does with its position when it falls short of its minimum. -/
inductive Shortfall where
  /-- It goes back to where it started. -/
  | rewind
  /-- It stays where its last counted round ended. -/
  | keep
  deriving DecidableEq, Repr, Inhabited

/-- Limits of a session and its policy for repetitions; `none` is no limit. -/
structure Settings where
  /-- How deep scans of states may nest. -/
  maxDepth : Option Nat := some 10000
  /-- How many states may be scanned in all. -/
  maxSteps : Option Nat := none
  shortfall : Shortfall := .rewind
  deriving DecidableEq, Repr, Inhabited

/-! ## Frames and events -/

/-- A stretch of work: where the text that no token covers begins, how far scanning has got,
and the tokens so far. -/
structure Frame where
  start : Nat
  current : Nat
  tokens : Array Token := #[]
  deriving DecidableEq, Repr, Inhabited

namespace Frame

/-- A frame that begins at a position. -/
def startingAt (position : Nat) : Frame := { start := position, current := position }

/-- The text that no token covers yet. -/
def pending (f : Frame) : Span := ⟨f.start, f.current⟩

end Frame

/-- What can happen in a scan of a state. -/
inductive Event where
  /-- A repetition begins. -/
  | enter (state : StateId) (min : UInt32) (max : Option UInt32)
  /-- A round of a repetition begins. -/
  | beforeChild (state : StateId) (round : Nat)
  /-- A round is over; its frame has `produced` tokens. -/
  | afterChild (state : StateId) (round : Nat) (produced : Nat)
  /-- The tokens of a counted round are about to be dropped. -/
  | beforeClear (state : StateId)
  /-- They are dropped, after that many rounds. -/
  | afterClear (state : StateId) (rounds : Nat)
  /-- The frame of a repetition is about to be popped. -/
  | beforePop (state : StateId)
  /-- It is popped. -/
  | afterPop (state : StateId)
  /-- A repetition is over, with enough rounds or without. -/
  | exit (state : StateId) (rounds : Nat) (satisfied : Bool)
  /-- A token was emitted for a state. -/
  | emitted (state : StateId) (token : Token)
  deriving DecidableEq, Repr

/-! ## Sessions -/

/-- All that changes while a source is scanned. `outer` holds the frames around the active one,
the nearest first; the last of all frames is the root frame. -/
structure Session where
  scanner : Scanner
  memo : Memo := .on {}
  settings : Settings := {}
  active : Frame := .startingAt 0
  outer : List Frame := []
  guard : DepthGuard := { limit := settings.maxDepth }
  /-- States scanned so far. -/
  steps : Nat := 0
  /-- The last offset at which a rule failed. -/
  furthest : Option Nat := none
  events : Array Event := #[]

/-- A computation in a session. -/
abbrev Scanning := Action ScanError Session

instance : Guarded Session where
  guard s := s.guard
  withGuard s guard := { s with guard }

namespace Session

/-- A session at the start of a source. -/
def start (source : String) (settings : Settings := {}) (memo : Memo := .on {}) : Session :=
  { scanner := .ofString source, settings, memo }

/-- The position of the active frame. -/
def position (s : Session) : Nat := s.active.current

/-- Is nothing left to scan? -/
def atEnd (s : Session) : Bool := s.scanner.atEnd

/-- How many frames there are. -/
def frameCount (s : Session) : Nat := s.outer.length + 1

/-- The frame that holds what the session has found. -/
def rootFrame (s : Session) : Frame := s.outer.getLastD s.active

/-- The tokens that the session has found. -/
def tokens (s : Session) : Array Token := s.rootFrame.tokens

/-- Adds an event to the record. -/
def note (event : Event) : Scanning Unit :=
  modify fun s => { s with events := s.events.push event }

/-- Begins a frame at the current position. -/
def push : Scanning Unit :=
  modify fun s => { s with active := .startingAt s.position, outer := s.active :: s.outer }

/-- Ends the active frame. Its position goes on in the frame around it, its tokens only if they
are published. The root frame does not end. -/
def pop (publish : Bool) : Scanning Unit := do
  match (← get).outer with
  | [] => Action.abort .rootPopped
  | parent :: outer =>
    modify fun s => { s with
      outer
      active := { parent with
        current := s.active.current
        tokens := if publish then parent.tokens ++ s.active.tokens else parent.tokens } }

/-- If `body` stops early, ends the active frame, unpublished, and then stops for the same reason.
It is a fault if the root frame is the active one then. -/
@[inline] def orDrop {α : Type} (body : Scanning α) : Scanning α := fun s =>
  match body s with
  | (.ok a, s) => (.ok a, s)
  | (.error stop, s) => (do pop false; throw stop : Scanning α) s

/-- Emits a token over the text that no token covers yet, unless that is empty. -/
def emit (state : StateId) (id : TokenId) : Scanning Unit := modify fun s =>
  if s.active.start < s.active.current then
    let token : Token := { id, span := s.active.pending }
    { s with
      active := { s.active with start := s.active.current, tokens := s.active.tokens.push token }
      events := s.events.push (.emitted state token) }
  else s

/-- Moves the scanner and the active frame to a position. -/
def moveTo (position : Nat) : Scanning Unit := do
  let scanner ← Action.ofChecked ((← get).scanner.moveTo position)
  modify fun s => { s with scanner, active := { s.active with current := position } }

/-- Drops the tokens of the active frame. -/
def clearTokens : Scanning Unit :=
  modify fun s => { s with active := { s.active with tokens := #[] } }

/-- Keeps the greatest offset at which a rule failed. -/
def noteFailure (position : Nat) : Scanning Unit :=
  modify fun s => { s with furthest := some (s.furthest.elim position (max position)) }

/-- Evaluates a rule where the scanner stands. -/
def evaluate (rule : Rule) (id : RuleId) : Scanning MatchResult := fun s =>
  match rule.evaluate id s.scanner s.memo with
  | (.ok (result, scanner), memo) => (.ok result, { s with scanner, memo })
  | (.error stop, memo) => (.error stop, { s with memo })

end Session

end Lexigraph
