/-
# Lexigraph.Pattern.Reader -- patterns from grammar text

Grammar text is read back as a pattern. Blanks may stand between any two lexemes, so a
pattern has many texts; its own text is one of them.

A text that goes wrong may have whole patterns before the place where it does. `Misread`
keeps them beside the error: what they say about the grammar was read without fault.

Reading recurses on a bound for the number of characters left. Every level of nesting
takes a character at least, so at bound zero the text is at its end, and there the answer
is the one for the end of a text.
-/

import Lexigraph.Pattern
import Lexigraph.Pattern.Lexeme

namespace Lexigraph

/-- Why a text could not be read, and the whole patterns read before that, in order. -/
structure Misread where
  error : ReadError
  fragments : List Pattern := []

/-- A reader of patterns. -/
abbrev PatternReader := StateT Cursor (Except Misread)

namespace PatternReader

/-- A lexeme leaves no fragments when it fails. -/
instance : MonadLift Reader PatternReader where
  monadLift reader := fun cursor =>
    match reader cursor with
    | .ok result => .ok result
    | .error error => .error { error }

theorem lift_apply {α : Type} (reader : Reader α) (cursor : Cursor) :
    (liftM reader : PatternReader α) cursor =
      (reader cursor).mapError fun error => { error } := by
  simp only [liftM, monadLift, MonadLift.monadLift]
  cases reader cursor <;> rfl

/-- Fails because no pattern starts here. -/
def missing : PatternReader Pattern := do
  Reader.missing .openParen

/-- Fails with an error of the grammar unless a check holds. -/
def check : Except GrammarError Unit → PatternReader Unit
  | .ok () => pure ()
  | .error e => throw { error := .grammar e }

/-- When the reader fails, the patterns `done` were read before its own fragments. -/
@[inline] def after {α : Type} (done : Unit → List Pattern) (reader : PatternReader α) :
    PatternReader α := fun cursor =>
  match reader cursor with
  | .ok result => .ok result
  | .error misread => .error { misread with fragments := done () ++ misread.fragments }

/-! ## Bodies -/

/-- Takes the rest of a terminal that starts with a literal. `opened` is the offset of its
parenthesis, to be told if the token is missing. -/
def terminal (fuel : Nat) (annotations : Annotations) (opened : Nat) : PatternReader Pattern := do
  let first ← Reader.quoted
  let others ← Reader.literals fuel []
  Reader.expect ')' .closeParen
  match ← Reader.token? with
  | some token => return .terminal annotations { first, others } token []
  | none => throw { error := .missingToken opened }

/-- Takes the rest of a choice. -/
def choice (annotations : Annotations) : PatternReader Pattern := do
  let _ ← Reader.eat ')'
  return .choice annotations (← Reader.token?) []

/-- Takes the rest of a repetition, whose child `node` takes. -/
def repetition (node : PatternReader Pattern) (annotations : Annotations) :
    PatternReader Pattern := do
  let child ← node
  let (min, max) ← after (fun _ => [child]) do
    let bounds ← Reader.bounds
    Reader.expect ')' .closeParen
    check (checkBounds bounds.1 bounds.2)
    return bounds
  let token ← after (fun _ => [.repetition {} child min max none []]) Reader.token?
  return .repetition annotations child min max token []

/-! ## Branches -/

/-- Takes branches up to the closing brace, after those found so far, which are given last one
first. `fuel` is at least the number of characters that are left. -/
def branchList (node : PatternReader Pattern) (head : Pattern) (fuel : Nat)
    (found : List Pattern) : PatternReader Pattern := do
  let whole (_ : Unit) := [head.withBranches found.reverse]
  match fuel with
  | 0 => after whole missing
  | fuel + 1 =>
    Reader.skipBlank
    let branch ← after whole node
    Reader.skipBlank
    let found := branch :: found
    if ← Reader.eat ',' then branchList node head fuel found
    else
      let all := head.withBranches found.reverse
      after (fun _ => [all]) (Reader.expect '}' .closeBrace)
      return all

/-- Takes the branches of a pattern, if there are any. -/
def branches (node : PatternReader Pattern) (fuel : Nat) (head : Pattern) :
    PatternReader Pattern := do
  Reader.skipBlank
  unless ← Reader.eat '.' do return head
  Reader.skipBlank
  if ← Reader.eat '{' then branchList node head fuel []
  else
    let branch ← after (fun _ => [head]) node
    return head.withBranches [branch]

/-! ## Patterns -/

/-- Takes what stands behind the opening parenthesis of a pattern, up to its branches. -/
def body (node : PatternReader Pattern) (fuel : Nat) (annotations : Annotations) (opened : Nat) :
    PatternReader Pattern := do
  match ← Reader.peek? with
  | some '"' => terminal fuel annotations opened
  | some ')' => choice annotations
  | _ => repetition node annotations

/-- Takes a pattern, whose child and branches `node` takes. `fuel` is at least the number of
characters that are left after the first. -/
def around (node : PatternReader Pattern) (fuel : Nat) : PatternReader Pattern := do
  let annotations ← Reader.annotations (fuel + 1) {}
  let opened ← Reader.offset
  Reader.expect '(' .openParen
  Reader.skipBlank
  let head ← body node fuel annotations opened
  branches node fuel head

/-- Takes a pattern. `fuel` is at least the number of characters that are left. -/
def pattern (fuel : Nat) : PatternReader Pattern :=
  match fuel with
  | 0 => missing
  | fuel + 1 => around (pattern fuel) fuel

/-- Takes a pattern, after which nothing but blanks may follow. -/
def whole (length : Nat) : PatternReader Pattern := do
  let p ← pattern length
  after (fun _ => [p]) do
    Reader.skipBlank
    let rest := (← get).rest
    unless rest.isEmpty do throw { error := .trailingInput (← Reader.offset) }
  return p

end PatternReader

/-- The pattern that a text denotes. -/
def Pattern.ofText (text : List Char) : Except Misread Pattern :=
  match PatternReader.whole text.length { rest := text } with
  | .ok (p, _) => .ok p
  | .error misread => .error misread

end Lexigraph
