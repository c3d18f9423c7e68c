/-
# Lexigraph.Error -- what can be wrong with a grammar, a scan, or a text

Each kind of error is a cause with its data; `message` says it in words. An error of the
grammar can come up while scanning and while reading, and is then told as it is.
-/

import Lexigraph.Token

namespace Lexigraph

/-- Number of a rule. -/
structure RuleId where
  index : Nat
  deriving DecidableEq, Repr, Inhabited

/-- Number of a state. -/
structure StateId where
  index : Nat
  deriving DecidableEq, Hashable, Repr, Inhabited

instance : ToString RuleId where
  toString id := s!"RuleId({id.index})"

instance : ToString StateId where
  toString id := s!"StateId({id.index})"

/-- A grammar refers to something that does not exist, or cannot be built or written. -/
inductive GrammarError where
  | unknownState (id : StateId)
  | unknownRule (id : RuleId)
  | unknownToken (id : TokenId)
  | invertedBounds (min max : UInt32)
  | cyclic (id : StateId)
  | noRoot
  | emptyTerminal
  deriving DecidableEq, Repr

/-- The text of a grammar error. -/
def GrammarError.message : GrammarError → String
  | .unknownState id => s!"state {id} is not in the arena"
  | .unknownRule id => s!"rule {id} is not in the rule table"
  | .unknownToken id => s!"token {id} is not in the token table"
  | .invertedBounds min max => s!"repeat bounds are inverted: min {min} > max {max}"
  | .cyclic id => s!"state {id} is reachable from itself and cannot be serialized"
  | .noRoot => "grammar has no root state"
  | .emptyTerminal => "a terminal needs at least one literal"

/-- Fails unless the bounds of a repetition are in order. -/
def checkBounds (min : UInt32) : Option UInt32 → Except GrammarError Unit
  | none => .ok ()
  | some max => if min ≤ max then .ok () else .error (.invertedBounds min max)

/-- A scan cannot go on. -/
inductive ScanError where
  /-- The source ended where a match was required. -/
  | unexpectedEnd (position : Nat)
  /-- A pass made no progress; `furthest` is the last offset at which a rule failed. -/
  | nothingMatched (furthest : Nat)
  | depthLimit (limit : Nat)
  | stepLimit (limit : Nat)
  | grammar (e : GrammarError)
  deriving DecidableEq, Repr

/-- The text of a scan error. -/
def ScanError.message : ScanError → String
  | .unexpectedEnd position => s!"unexpected end of input at offset {position}"
  | .nothingMatched furthest => s!"nothing matched; furthest failure at offset {furthest}"
  | .depthLimit limit => s!"scan nesting exceeded the depth limit of {limit}"
  | .stepLimit limit => s!"scan exceeded the step limit of {limit}"
  | .grammar e => e.message

/-- What a text ought to have gone on with. -/
inductive Wanted where
  | openParen
  | closeParen
  | closeBrace
  | quotedString
  | tokenName
  deriving DecidableEq, Repr

instance : ToString Wanted where
  toString
    | .openParen => "`(`"
    | .closeParen => "`)`"
    | .closeBrace => "`\x7d`"
    | .quotedString => "a quoted string"
    | .tokenName => "token name"

/-- A text is not a grammar; offsets count the bytes of the text. -/
inductive ReadError where
  | expected (wanted : Wanted) (offset : Nat)
  | unknownFlag (name : String) (offset : Nat)
  | invalidCount (offset : Nat)
  | unterminatedString (offset : Nat)
  | invalidEscape (offset : Nat)
  | missingToken (offset : Nat)
  | trailingInput (offset : Nat)
  | grammar (e : GrammarError)
  deriving DecidableEq, Repr

/-- The text of a read error. -/
def ReadError.message : ReadError → String
  | .expected wanted offset => s!"expected {wanted} at offset {offset}"
  | .unknownFlag name offset => s!"unknown annotation `@{name}` at offset {offset}"
  | .invalidCount offset => s!"invalid repeat count at offset {offset}"
  | .unterminatedString offset => s!"unterminated string starting at offset {offset}"
  | .invalidEscape offset => s!"invalid escape sequence at offset {offset}"
  | .missingToken offset => s!"terminal at offset {offset} has no `->token`"
  | .trailingInput offset => s!"unexpected trailing input at offset {offset}"
  | .grammar e => e.message

end Lexigraph
