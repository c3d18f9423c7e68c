/-
# Lexigraph.Pattern.Lexeme -- the small parts of grammar text

A cursor stands in a text and knows its offset. A reader takes a lexeme from there: a
delimiter, a quoted string, a name, a count, annotations. Blanks may stand in front of
each lexeme. A reader that fails says what is wrong and at which offset.
-/

import Lexigraph.Annotations
import Lexigraph.Error
import Lexigraph.Text.Blank
import Lexigraph.Text.Bytes
import Lexigraph.Text.Name

namespace Lexigraph

/-- What is left of a text, and the offset at which it starts. -/
structure Cursor where
  rest : List Char
  offset : Nat := 0
  deriving DecidableEq, Repr

/-- A reader takes something from the front of a text or fails. -/
abbrev Reader := StateT Cursor (Except ReadError)

namespace Reader

/-! ## Characters -/

/-- The offset of what is left. -/
def offset : Reader Nat := return (← get).offset

/-- The character in front, which stays there. -/
def peek? : Reader (Option Char) := return (← get).rest.head?

/-- Takes the characters in front that satisfy `p`. -/
def takeWhile (p : Char → Bool) : Reader (List Char) := fun cursor =>
  let run := cursor.rest.takeWhile p
  .ok (run, ⟨cursor.rest.dropWhile p, cursor.offset + Text.size run⟩)

/-- Skips blanks. -/
def skipBlank : Reader Unit := do
  let _ ← takeWhile Text.isBlank

/-- Takes a character if it stands in front; says whether it did. -/
def eat (c : Char) : Reader Bool := fun cursor =>
  match cursor.rest with
  | d :: rest => .ok (if c = d then (true, ⟨rest, cursor.offset + c.utf8Size⟩) else (false, cursor))
  | [] => .ok (false, cursor)

/-- Fails for want of a lexeme. -/
def missing {α : Type} (wanted : Wanted) : Reader α := fun cursor =>
  .error (.expected wanted cursor.offset)

/-- Skips blanks and takes the delimiter that has to follow. -/
def expect (c : Char) (wanted : Wanted) : Reader Unit := do
  skipBlank
  unless ← eat c do missing wanted

/-! ## Quoted strings -/

/-- Where in a quoted string a character stands. An escape is known by its backslash. -/
inductive QuotedPart where
  /-- Outside of escapes. -/
  | plain
  /-- After a backslash. -/
  | escape (backslash : Nat)
  /-- After the letter that announces a code point. -/
  | code (backslash : Nat)
  /-- Among the digits of a code point, with the value so far if there is a digit. -/
  | digits (backslash : Nat) (value : Option Nat)

/-- The character that a letter after a backslash stands for. -/
def unescape? (c : Char) : Option Char :=
  if c = '"' ∨ c = '\\' then some c
  else if c = 'n' then some '\n'
  else if c = 'r' then some '\r'
  else if c = 't' then some '\t'
  else none

/-- The value of a hexadecimal digit. -/
def hexDigit? (c : Char) : Option Nat :=
  if c.isDigit then some (c.toNat - '0'.toNat)
  else if 'a' ≤ c ∧ c ≤ 'f' then some (c.toNat - 'a'.toNat + 10)
  else if 'A' ≤ c ∧ c ≤ 'F' then some (c.toNat - 'A'.toNat + 10)
  else none

/-- The character with a code point. -/
def charOfCode? (n : Nat) : Option Char :=
  if h : n.isValidChar then some (Char.ofNatAux n h) else none

/-- Takes what is left of a quoted string and undoes its escapes. `read` holds the characters
so far, the last one first; `start` is told if the string has no end. -/
def unquote (start : Nat) (part : QuotedPart) (read : List Char) (offset : Nat) :
    List Char → Except ReadError (List Char × Cursor)
  | [] =>
    match part with
    | .plain => .error (.unterminatedString start)
    | .escape backslash | .code backslash | .digits backslash _ => .error (.invalidEscape backslash)
  | c :: rest =>
    let next := offset + c.utf8Size
    match part with
    | .plain =>
      if c = '"' then .ok (read.reverse, ⟨rest, next⟩)
      else if c = '\\' then unquote start (.escape offset) read next rest
      else unquote start .plain (c :: read) next rest
    | .escape backslash =>
      if c = 'u' then unquote start (.code backslash) read next rest
      else
        match unescape? c with
        | some d => unquote start .plain (d :: read) next rest
        | none => .error (.invalidEscape backslash)
    | .code backslash =>
      if c = '{' then unquote start (.digits backslash none) read next rest
      else .error (.invalidEscape backslash)
    | .digits backslash value =>
      if c = '}' then
        match value.bind charOfCode? with
        | some d => unquote start .plain (d :: read) next rest
        | none => .error (.invalidEscape backslash)
      else
        match hexDigit? c with
        | some d => unquote start (.digits backslash (some (16 * value.getD 0 + d))) read next rest
        | none => .error (.invalidEscape backslash)

/-- Takes a quoted string. One without an end is told by the offset from which it was looked
for. -/
def quoted : Reader String := do
  let start ← offset
  expect '"' .quotedString
  fun cursor =>
    match unquote start .plain [] cursor.offset cursor.rest with
    | .ok (read, cursor) => .ok (String.ofList read, cursor)
    | .error e => .error e

/-! ## Names, counts, annotations -/

/-- Takes a name that may follow an arrow. -/
def token? : Reader (Option String) := do
  skipBlank
  match (← get).rest with
  | '-' :: '>' :: _ =>
    let _ ← eat '-'
    let _ ← eat '>'
    skipBlank
    if (← peek?) = some '"' then return some (← quoted)
    match ← takeWhile Text.isNameChar with
    | [] => missing .tokenName
    | name => return some (String.ofList name)
  | _ => return none

/-- Takes a count: decimal digits whose value has 32 bits at most. -/
def count : Reader UInt32 := do
  skipBlank
  let start ← offset
  match ← takeWhile Char.isDigit with
  | [] => throw (.invalidCount start)
  | digits =>
    let value := Nat.ofDigitChars 10 digits 0
    if h : value < UInt32.size then return UInt32.ofNatLT value h
    else throw (.invalidCount start)

/-- Takes annotations and adds them to those found so far. `fuel` is at least the number of
characters that are left. -/
def annotations (fuel : Nat) (found : Annotations) : Reader Annotations := do
  skipBlank
  let start ← offset
  match fuel with
  | 0 => return found
  | fuel + 1 =>
    unless ← eat '@' do return found
    let name := String.ofList (← takeWhile Text.isNameChar)
    if name = "error" then
      expect '(' .openParen
      let message ← quoted
      expect ')' .closeParen
      annotations fuel (found.withError message)
    else
      match Flag.named? name with
      | some flag => annotations fuel (found.withFlag flag)
      | none => throw (.unknownFlag name start)

/-- Takes the literals of a terminal after those found so far, which are given last one first.
`fuel` is at least the number of characters that are left. -/
def literals (fuel : Nat) (found : List String) : Reader (List String) := do
  skipBlank
  match fuel with
  | 0 => return found.reverse
  | fuel + 1 =>
    unless ← eat '|' do return found.reverse
    skipBlank
    let literal ← quoted
    literals fuel (literal :: found)

/-- Takes the bounds of a repetition, if there are any. -/
def bounds : Reader (UInt32 × Option UInt32) := do
  skipBlank
  unless ← eat ',' do return (1, none)
  let min ← count
  skipBlank
  unless ← eat ',' do return (min, none)
  return (min, some (← count))

end Reader

end Lexigraph
