/-
# Lexigraph.TokenStream -- the tokens of a source

Tokenizing runs the root of a grammar over a source. The answer is the list of tokens
together with the source that they label, so that each token has a text.
-/

import Lexigraph.Session.Scan
import Lexigraph.Text.Quoted

namespace Lexigraph

/-- Tokens and the source that they label. -/
structure TokenStream where
  source : Source
  tokens : Array Token
  deriving DecidableEq

namespace TokenStream

/-- How many tokens there are. -/
def size (t : TokenStream) : Nat := t.tokens.size

/-- The text that a token labels. -/
def textOf (t : TokenStream) (token : Token) : List Char := (token.span.slice? t.source).getD []

/-- The category and the text of each token. -/
def texts (t : TokenStream) : List (TokenId × List Char) :=
  t.tokens.toList.map fun token => (token.id, t.textOf token)

instance : ToString TokenStream where
  toString t :=
    let entry : TokenId × List Char → String := fun (id, text) =>
      s!"({id}, {String.ofList (Text.shown text)})"
    "[" ++ ", ".intercalate (t.texts.map entry) ++ "]"

end TokenStream

namespace Grammar

/-- Tokenizes a source from the root of a grammar. -/
def tokenize (g : Grammar) (source : String) (settings : Settings := {}) :
    Except (Stop ScanError) TokenStream :=
  match g.root with
  | none => .error (.error (.grammar .noRoot))
  | some root =>
    match Session.run g root (.start source settings) with
    | (.ok (), s) => .ok { source := s.scanner.source, tokens := s.tokens }
    | (.error stop, _) => .error stop

/-- Tokenizes several sources, each by itself. -/
def tokenizeAll (g : Grammar) (sources : List String) :
    List (Except (Stop ScanError) TokenStream) :=
  sources.map (g.tokenize ·)

end Grammar

end Lexigraph
