/-
# Lexigraph.Session.Scan -- scanning a state

Scanning a state matches what the state matches itself and then goes on with the first of
its branches that matches. The answer says whether the state's own match succeeded; going
on may come to nothing and changes no verdict. Each kind of state is a function of the
scan that it uses for other states, and `scanNested` ties the knot.

Scans nest. `scanNested` recurses on a bound for the nesting that is still allowed and
says `endless` when it is used up. `scan` starts it with a bound that a scan which comes
to an end, or to a limit of its session, does not use up.
-/

import Lexigraph.Grammar
import Lexigraph.Session

namespace Lexigraph.Session

variable (g : Grammar)

section Visit

variable (scan : StateId → Scanning Bool)

/-! ## Going on -/

/-- Scans states in order up to the first that matches; says whether one did. -/
def firstOf : List StateId → Scanning Bool
  | [] => return false
  | id :: ids => do if ← scan id then return true else firstOf ids

/-- Goes on with the branches of a state, unless nothing is left to scan. -/
def goOn (node : Node) : Scanning Unit := do
  unless (← get).atEnd do
    let _ ← firstOf scan node.branches

/-! ## The kinds of states -/

/-- The scanner has to stand where the active frame does. -/
def checkSynced : Scanning Unit := do
  let s ← get
  unless s.scanner.position = s.position do Action.abort .positionsDiffer

/-- A terminal evaluates its rule. On a match it emits its token, or that of its rule, and goes
on. -/
def scanTerminal (id : StateId) (node : Node) (ruleId : RuleId) : Scanning Bool := do
  let rule ← Action.ofResult ((g.rules.get ruleId).mapError .grammar)
  checkSynced
  match ← evaluate rule ruleId with
  | .success span =>
    modify fun s => { s with active := { s.active with current := span.stop } }
    emit id (node.token.getD rule.token)
    goOn scan node
    return true
  | .failure position =>
    noteFailure position
    return false

/-- Runs the round of a repetition after the first `done`, unless the maximum or the end of the
source is reached; says whether it counted. A round counts if it emitted a token and moved
forward. -/
def oneRound (id child : StateId) (max : Option UInt32) (done : Nat) : Scanning Bool := do
  if max.any (·.toNat ≤ done) || (← get).atEnd then return false
  let before := (← get).position
  note (.beforeChild id done)
  let _ ← orDrop (scan child)
  let produced := (← get).active.tokens.size
  note (.afterChild id done produced)
  if produced = 0 || (← get).position ≤ before then return false
  note (.beforeClear id)
  clearTokens
  note (.afterClear id (done + 1))
  return true

/-- Runs the rounds of a repetition after the first `done`, for at most `fuel` more; answers how
many counted. The first that does not count is the last. -/
def rounds (id child : StateId) (max : Option UInt32) (fuel done : Nat) : Scanning Nat := do
  match fuel with
  | 0 => return done
  | fuel + 1 =>
    if ← oneRound scan id child max done then rounds id child max fuel (done + 1)
    else return done

/-- Runs all rounds of a repetition in a frame of their own, whose tokens are dropped; answers
how many counted. Each counted round takes a byte at least, so there are no more of them than
bytes. -/
def runRounds (id child : StateId) (max : Option UInt32) : Scanning Nat := do
  push
  let counted ← rounds scan id child max (← get).scanner.bytesLeft 0
  note (.beforePop id)
  pop false
  note (.afterPop id)
  return counted

/-- Emits the token of a state, if it has one. -/
def emitOwn (id : StateId) (token : Option TokenId) : Scanning Unit :=
  match token with
  | some token => emit id token
  | none => return

/-- Goes back to where a repetition began that fell short, or stays. -/
def fallBack (entry : Nat) : Scanning Unit := do
  if (← get).settings.shortfall = .rewind then moveTo entry

/-- Ends a repetition that began at `entry`. If it is satisfied it emits its token over all its
rounds and goes on. -/
def conclude (id : StateId) (node : Node) (entry : Nat) (satisfied : Bool) : Scanning Unit :=
  if satisfied then do
    emitOwn id node.token
    goOn scan node
  else fallBack entry

/-- A repetition runs its rounds and is satisfied by enough of them. -/
def scanRepetition (id : StateId) (node : Node) (child : StateId) (min : UInt32)
    (max : Option UInt32) : Scanning Bool := do
  note (.enter id min max)
  let entry := (← get).position
  let counted ← runRounds scan id child max
  let satisfied := decide (min.toNat ≤ counted)
  note (.exit id counted satisfied)
  conclude scan id node entry satisfied
  return satisfied

/-- A choice matches if one of its branches does. Its token covers what that branch left
uncovered. -/
def scanChoice (id : StateId) (node : Node) : Scanning Bool := do
  let found ← firstOf scan node.branches
  if found then emitOwn id node.token
  return found

/-- Scans a state, with `scan` for the states that it names. -/
def visit (id : StateId) : Scanning Bool := do
  let node ← Action.ofResult ((g.graph.node id).mapError .grammar)
  match node.kind with
  | .terminal rule => scanTerminal g scan id node rule
  | .repetition child min max => scanRepetition scan id node child min max
  | .choice => scanChoice scan id node

end Visit

/-! ## Scans -/

/-- Counts a step, of which there may be a limit. -/
def step : Scanning Unit := do
  modify fun s => { s with steps := s.steps + 1 }
  let s ← get
  if let some limit := s.settings.maxSteps then
    if limit < s.steps then Action.fail (.stepLimit limit)

/-- Scans a state in which scans may nest `fuel` deep. -/
def scanNested (fuel : Nat) (id : StateId) : Scanning Bool := do
  match fuel with
  | 0 => throw .endless
  | fuel + 1 =>
    step
    nested (fun e => .depthLimit e.limit) (visit g (scanNested fuel) id)

/-- How deep scans can nest without being endless. Within limits, a scan is refused before it
nests deeper than they allow. Without any, a scan that comes to an end never meets the same
state, position and beginning of the uncovered text again inside itself. -/
def nestingBound (settings : Settings) (size : Nat) : Nat :=
  match settings.maxDepth, settings.maxSteps with
  | some depth, some steps => min depth steps + 1
  | some depth, none => depth + 1
  | none, some steps => steps + 1
  | none, none => g.graph.size * ((size + 1) * (size + 1)) + 1

/-- Scans a state at the current position. -/
def scan (id : StateId) : Scanning Bool := do
  let s ← get
  scanNested g (nestingBound g s.settings s.scanner.source.size) id

/-! ## Runs -/

/-- A pass that began at `before` has to have moved forward. -/
def checkMoved (before : Nat) : Scanning Unit := do
  let s ← get
  if s.position ≤ before then
    Action.fail (.nothingMatched (s.furthest.elim before (max before)))

/-- Scans a state again and again until nothing is left, at most `fuel` times. -/
def passes (root : StateId) (fuel : Nat) : Scanning Unit := do
  match fuel with
  | 0 => return
  | fuel + 1 =>
    unless (← get).atEnd do
      let before := (← get).position
      let _ ← scan g root
      checkMoved before
      passes root fuel

/-- Only the root frame and no mark may be left when a run is over. -/
def checkBalanced : Scanning Unit := do
  unless (← get).outer.isEmpty do Action.abort .unbalancedFrames
  unless (← get).scanner.marks.isEmpty do Action.abort .unbalancedMarks

/-- Scans a state again and again until nothing is left. Each pass has to move forward, so there
are no more of them than bytes. -/
def run (root : StateId) : Scanning Unit := do
  passes g root (← get).scanner.bytesLeft
  checkBalanced

end Lexigraph.Session
