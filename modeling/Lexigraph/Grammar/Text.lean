/-
# Lexigraph.Grammar.Text -- grammars as text

A state is written as the text of the pattern that it unfolds to, if there is one: a state
that is reached from itself has no finite pattern. A text is read by building its pattern
in a grammar, one new state for each pattern in it: the child of a repetition before the
repetition, branches after what they belong to.
-/

import Lexigraph.Grammar
import Lexigraph.Pattern.Printer
import Lexigraph.Pattern.Reader

namespace Lexigraph

namespace Grammar

/-! ## Unfolding a state -/

/-- The name of a token, which has to be known. -/
def tokenName (g : Grammar) (id : TokenId) : Except GrammarError String :=
  match g.tokens.name? id with
  | some name => .ok name
  | none => .error (.unknownToken id)

/-- The pattern of a state, where `unfold` answers the patterns of the states that it names. -/
def unfoldNode (g : Grammar) (unfold : StateId → Except GrammarError Pattern) (id : StateId) :
    Except GrammarError Pattern := do
  let node ← g.graph.node id
  match node.kind with
  | .terminal rule =>
    let rule ← g.rules.get rule
    let token ← g.tokenName (node.token.getD rule.token)
    return .terminal (rule.annotations.merged node.annotations) rule.choices token
      (← node.branches.mapM unfold)
  | .repetition child min max =>
    let child ← unfold child
    let token ← node.token.mapM g.tokenName
    return .repetition node.annotations child min max token (← node.branches.mapM unfold)
  | .choice =>
    let token ← node.token.mapM g.tokenName
    return .choice node.annotations token (← node.branches.mapM unfold)

/-- The pattern of a state that was reached along `path`: one step turns back at a state that is on
the path, and else goes on to all that the state names. `fuel` bounds the length of a path, and a
path without a repeated state is no longer than there are states. -/
def unfoldFrom (g : Grammar) (fuel : Nat) (path : List StateId) (id : StateId) :
    Except GrammarError Pattern :=
  match fuel with
  | 0 => .error (.cyclic id)
  | fuel + 1 =>
    if path.contains id then .error (.cyclic id)
    else g.unfoldNode (unfoldFrom g fuel (id :: path)) id

/-- The pattern of a state. -/
def unfold (g : Grammar) (id : StateId) : Except GrammarError Pattern :=
  g.unfoldFrom (g.graph.size + 1) [] id

/-- The text of a state. -/
def textOf (g : Grammar) (id : StateId) : Except GrammarError String :=
  return toString (← g.unfold id)

end Grammar

/-! ## Building a pattern -/

namespace Pattern

mutual

/-- Adds the states of a pattern to a grammar, one call after another as a reader comes to them;
answers the state of the pattern itself. A child stands before, branches after what they belong to,
and the token and the annotations of a repetition come after it. -/
def build (p : Pattern) : GrammarEdit StateId := do
  match p with
  | .terminal annotations choices token branches =>
    let token ← Grammar.intern token
    let rule ← Attempt.ofExcept (Rule.oneOf token choices.toList)
    let rule ← Grammar.addRule (rule.withAnnotations annotations)
    let id ← Grammar.addNode { kind := .terminal rule }
    buildBranches id branches
  | .repetition annotations child min max token branches =>
    let child ← build child
    let id ← Grammar.repetition child min max
    let token ← (token.mapM Grammar.intern : StateM Grammar (Option TokenId))
    Grammar.onGraph (Graph.update id fun n => { n with token, annotations })
    buildBranches id branches
  | .choice annotations token branches =>
    let token ← (token.mapM Grammar.intern : StateM Grammar (Option TokenId))
    let id ← Grammar.addNode { kind := .choice, token, annotations }
    buildBranches id branches

/-- Adds the states of patterns that a state `id` goes on with, and links each of them as soon as it
is there; answers `id`. -/
def buildBranches (id : StateId) (ps : List Pattern) : GrammarEdit StateId := do
  match ps with
  | [] => return id
  | p :: ps =>
    let branch ← build p
    Grammar.link id branch
    buildBranches id ps

end

end Pattern

namespace Grammar

/-- Reads a text into a grammar; answers the state of its pattern. A text that cannot be read
leaves the states of the whole patterns before its error. -/
def read (text : String) : Attempt ReadError Grammar StateId := do
  match Pattern.ofText text.toList with
  | .ok p => p.build.adapt .grammar
  | .error misread =>
    misread.fragments.forM fun p => do
      let _ ← p.build.adapt .grammar
    throw misread.error

/-- The grammar that a text denotes; it starts from the state of the text. -/
def ofText (text : String) : Except ReadError Grammar :=
  match Grammar.read text empty with
  | (.ok root, g) => .ok { g with root := some root }
  | (.error e, _) => .error e

end Grammar

end Lexigraph
