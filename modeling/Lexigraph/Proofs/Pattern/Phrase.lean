/-
# Lexigraph.Proofs.Pattern.Phrase -- the grammar of grammar text

    text   :=  ws node ws
    node   :=  mark* ws body next?
    mark   :=  ws "@" flag  |  ws "@error" ws "(" ws str ws ")"
    body   :=  "(" ws str (ws "|" ws str)* ws ")" name             a terminal
            |  "(" ws node bounds? ws ")" name?                    a repetition
            |  "(" ws ")" name?                                    a choice
    name   :=  ws "->" ws (str | word)
    bounds :=  ws "," ws digits (ws "," ws digits)?
    next   :=  ws "." ws node  |  ws "." ws "{" ws node (ws "," ws node)* ws "}"

A `Phrase` is a derivation tree of this grammar: each constructor is a production, and carries
the proofs of what a production asks besides. Blanks are not recorded in it. `Phrase.texts` are
the texts of a node, read off the productions as they stand above, and `Phrase.documents` those
of a text. `Phrase.pattern` is the pattern that a derivation tree stands for.

Each lexeme has one spelling, and blanks stand in front of lexemes and nowhere else. So the
texts of a tree are the spellings of its lexemes, one after another, with any blanks in front of
each.
-/

import Mathlib.Computability.Language
import Lexigraph.Pattern
import Lexigraph.Text.Blank
import Lexigraph.Text.Name

namespace Lexigraph

namespace Phrase

/-! ## Lexemes -/

/-- The letters that follow a backslash, and what they stand for. -/
def escapes : List (Char × Char) :=
  [('"', '"'), ('\\', '\\'), ('n', '\n'), ('r', '\r'), ('t', '\t')]

/-- The hexadecimal digits with their values. -/
def hexDigits : List (Char × Nat) :=
  "0123456789abcdef".toList.zipIdx ++ "ABCDEF".toList.zipIdx 10

/-- The number that hexadecimal digits stand for. -/
def hexValue (digits : List (Char × Nat)) : Nat := digits.foldl (fun n d => 16 * n + d.2) 0

/-- One character of a quoted string, and how it is written. -/
inductive Glyph where
  /-- It stands for itself. -/
  | plain (c : Char) (notQuote : c ≠ '"') (notBackslash : c ≠ '\\')
  /-- It has a letter behind a backslash. -/
  | escape (letter c : Char) (known : (letter, c) ∈ escapes)
  /-- It is named by its code point, which has to be that of a character. -/
  | code (digits : List (Char × Nat)) (c : Char) (nonempty : digits ≠ [])
      (hex : ∀ d ∈ digits, d ∈ hexDigits) (named : hexValue digits = c.toNat)

namespace Glyph

def text : Glyph → List Char
  | plain c .. => [c]
  | escape letter .. => ['\\', letter]
  | code digits .. => '\\' :: 'u' :: '{' :: (digits.map Prod.fst ++ ['}'])

def char : Glyph → Char
  | plain c .. | escape _ c _ | code _ c .. => c

end Glyph

/-- A quoted string. -/
structure Quotation where
  glyphs : List Glyph

namespace Quotation

def text (q : Quotation) : List Char := '"' :: (q.glyphs.flatMap Glyph.text ++ ['"'])

/-- The string without its quotes and escapes. -/
def value (q : Quotation) : String := String.ofList (q.glyphs.map Glyph.char)

end Quotation

/-- A run of name characters. -/
@[ext]
structure Word where
  chars : List Char
  nonempty : chars ≠ []
  all : ∀ c ∈ chars, Text.isNameChar c = true

/-- Decimal digits of a number of 32 bits. -/
@[ext]
structure Count where
  digits : List Char
  nonempty : digits ≠ []
  all : ∀ c ∈ digits, c.isDigit = true
  small : Nat.ofDigitChars 10 digits 0 < UInt32.size

def Count.value (n : Count) : UInt32 := UInt32.ofNatLT _ n.small

/-- Digits are name characters. -/
def Count.word (n : Count) : Word :=
  ⟨n.digits, n.nonempty, fun c hc => Text.isNameChar_of_isDigit (n.all c hc)⟩

/-- A delimiter. -/
inductive Sign where
  | openParen | closeParen | bar | comma | dot | openBrace | closeBrace | arrow
  deriving DecidableEq

def Sign.text : Sign → List Char
  | openParen => ['(']
  | closeParen => [')']
  | bar => ['|']
  | comma => [',']
  | dot => ['.']
  | openBrace => ['{']
  | closeBrace => ['}']
  | arrow => ['-', '>']

/-- What blanks may stand in front of. -/
inductive Lexeme where
  | sign (s : Sign)
  | flag (f : Flag)
  | error
  | quotation (q : Quotation)
  | word (w : Word)

def Lexeme.text : Lexeme → List Char
  | sign s => s.text
  | flag f => '@' :: f.name.toList
  | error => '@' :: "error".toList
  | quotation q => q.text
  | word w => w.chars

/-! ## Derivation trees -/

/-- The name of a token, bare or quoted. -/
inductive Naming where
  | bare (w : Word)
  | quoted (q : Quotation)

namespace Naming

def lexeme : Naming → Lexeme
  | bare w => .word w
  | quoted q => .quotation q

def value : Naming → String
  | bare w => String.ofList w.chars
  | quoted q => q.value

end Naming

/-- The bounds of a repetition, as far as they are written. -/
inductive Bounds where
  | usual
  | least (min : Count)
  | both (min max : Count)

namespace Bounds

def min : Bounds → UInt32
  | usual => 1
  | least min | both min _ => min.value

def max : Bounds → Option UInt32
  | usual | least _ => none
  | both _ max => some max.value

/-- The minimum is not above the maximum. -/
def Ordered (b : Bounds) : Prop := ∀ max ∈ b.max, b.min ≤ max

end Bounds

/-- An annotation. -/
inductive Mark where
  | flag (f : Flag)
  | error (message : Quotation)

/-- The annotations with one more, which takes the place of an earlier message. -/
def Mark.add (found : Annotations) : Mark → Annotations
  | flag f => found.withFlag f
  | error message => found.withError message.value

end Phrase

open Phrase

mutual

/-- A derivation tree of a node: its annotations, what stands in its parentheses and its token,
and what it goes on with. -/
inductive Phrase where
  | mk (marks : List Mark) (body : Phrase.Body) (next : Phrase.Next)

inductive Phrase.Body where
  | terminal (first : Quotation) (others : List Quotation) (token : Naming)
  | repetition (child : Phrase) (bounds : Bounds) (ordered : bounds.Ordered)
      (token : Option Naming)
  | choice (token : Option Naming)

inductive Phrase.Next where
  | none
  | one (p : Phrase)
  | list (p : Phrase) (ps : List Phrase)

end

namespace Phrase

/-! ## Texts -/

/-- Runs of blanks. -/
def ws : Language Char := {cs | ∀ c ∈ cs, Text.isBlank c = true}

/-- The text of a lexeme. -/
def Lexeme.spelling (l : Lexeme) : Language Char := {l.text}

/-- The text of a delimiter. -/
abbrev Sign.spelling (s : Sign) : Language Char := (Lexeme.sign s).spelling

def Mark.texts : Mark → Language Char
  | flag f => ws * (Lexeme.flag f).spelling
  | error message => ws * Lexeme.error.spelling * ws * Sign.openParen.spelling *
      ws * (Lexeme.quotation message).spelling * ws * Sign.closeParen.spelling

def Naming.texts (n : Naming) : Language Char :=
  ws * Sign.arrow.spelling * ws * n.lexeme.spelling

def Bounds.texts : Bounds → Language Char
  | usual => 1
  | least min => ws * Sign.comma.spelling * ws * (Lexeme.word min.word).spelling
  | both min max => ws * Sign.comma.spelling * ws * (Lexeme.word min.word).spelling *
      ws * Sign.comma.spelling * ws * (Lexeme.word max.word).spelling

/-- The texts of the literals of a terminal after the first. -/
def moreLiterals (others : List Quotation) : Language Char :=
  (others.map fun q => ws * Sign.bar.spelling * ws * (Lexeme.quotation q).spelling).prod

/-- The texts of a token that may be missing. -/
def tokenTexts : Option Naming → Language Char
  | none => 1
  | some token => token.texts

mutual

/-- The texts of a node. -/
def texts : Phrase → Language Char
  | mk marks body next => (marks.map Mark.texts).prod * ws * body.texts * next.texts

def Body.texts : Body → Language Char
  | .terminal first others token => Sign.openParen.spelling * ws *
      (Lexeme.quotation first).spelling * moreLiterals others * ws * Sign.closeParen.spelling *
      token.texts
  | .repetition child bounds _ token => Sign.openParen.spelling * ws * texts child *
      bounds.texts * ws * Sign.closeParen.spelling * tokenTexts token
  | .choice token => Sign.openParen.spelling * ws * Sign.closeParen.spelling * tokenTexts token

def Next.texts : Next → Language Char
  | .none => 1
  | .one p => ws * Sign.dot.spelling * ws * texts p
  | .list p ps => ws * Sign.dot.spelling * ws * Sign.openBrace.spelling * ws * texts p *
      moreTexts ps * ws * Sign.closeBrace.spelling

/-- The texts of the nodes of a list after the first. -/
def moreTexts : List Phrase → Language Char
  | [] => 1
  | p :: ps => ws * Sign.comma.spelling * ws * texts p * moreTexts ps

end

/-- The texts that a derivation tree derives. -/
def documents (p : Phrase) : Language Char := ws * p.texts * ws

/-! ## Patterns -/

mutual

/-- The pattern that a node stands for. -/
def pattern : Phrase → Pattern
  | mk marks body next => (body.pattern (marks.foldl Mark.add {})).withBranches next.patterns

def Body.pattern (annotations : Annotations) : Body → Pattern
  | .terminal first others token =>
    .terminal annotations { first := first.value, others := others.map Quotation.value }
      token.value []
  | .repetition child bounds _ token =>
    .repetition annotations (pattern child) bounds.min bounds.max (token.map Naming.value) []
  | .choice token => .choice annotations (token.map Naming.value) []

def Next.patterns : Next → List Pattern
  | .none => []
  | .one p => [pattern p]
  | .list p ps => pattern p :: patternAll ps

def patternAll : List Phrase → List Pattern
  | [] => []
  | p :: ps => pattern p :: patternAll ps

end

/-- A body goes on with nothing. -/
theorem Body.branches_pattern (body : Body) (annotations : Annotations) :
    (body.pattern annotations).branches = [] := by
  cases body <;> rfl

/-! ## The lexemes of a tree -/

def Mark.lexemes : Mark → List Lexeme
  | flag f => [.flag f]
  | error message => [.error, .sign .openParen, .quotation message, .sign .closeParen]

def Naming.lexemes (n : Naming) : List Lexeme := [.sign .arrow, n.lexeme]

def Bounds.lexemes : Bounds → List Lexeme
  | usual => []
  | least min => [.sign .comma, .word min.word]
  | both min max => [.sign .comma, .word min.word, .sign .comma, .word max.word]

def literalLexemes (others : List Quotation) : List Lexeme :=
  others.flatMap fun q => [.sign .bar, .quotation q]

def tokenLexemes : Option Naming → List Lexeme
  | none => []
  | some token => token.lexemes

mutual

def lexemes : Phrase → List Lexeme
  | mk marks body next =>
    marks.flatMap Mark.lexemes ++ .sign .openParen :: (body.lexemes ++ next.lexemes)

/-- The lexemes behind the opening parenthesis. -/
def Body.lexemes : Body → List Lexeme
  | .terminal first others token =>
    .quotation first :: (literalLexemes others ++ .sign .closeParen :: token.lexemes)
  | .repetition child bounds _ token =>
    lexemes child ++ (bounds.lexemes ++ .sign .closeParen :: tokenLexemes token)
  | .choice token => .sign .closeParen :: tokenLexemes token

def Next.lexemes : Next → List Lexeme
  | .none => []
  | .one p => .sign .dot :: lexemes p
  | .list p ps => .sign .dot :: .sign .openBrace :: (lexemes p ++ moreLexemes ps)

/-- The lexemes of the nodes of a list after the first, and the brace at its end. -/
def moreLexemes : List Phrase → List Lexeme
  | [] => [.sign .closeBrace]
  | p :: ps => .sign .comma :: (lexemes p ++ moreLexemes ps)

end

end Phrase

end Lexigraph
