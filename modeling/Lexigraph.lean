import Lexigraph.Attempt
import Lexigraph.Text.Bytes
import Lexigraph.Text.Blank
import Lexigraph.Text.Quoted
import Lexigraph.Text.Name
import Lexigraph.Fault
import Lexigraph.Source
import Lexigraph.Span
import Lexigraph.Token
import Lexigraph.Scanner
import Lexigraph.Scanner.Move
import Lexigraph.Nesting
import Lexigraph.Nesting.Routine
import Lexigraph.Annotations
import Lexigraph.Error
import Lexigraph.Literals
import Lexigraph.Memo
import Lexigraph.Rule
import Lexigraph.Graph
import Lexigraph.Graph.Copy
import Lexigraph.Pattern
import Lexigraph.Pattern.Printer
import Lexigraph.Pattern.Lexeme
import Lexigraph.Pattern.Reader
import Lexigraph.Grammar
import Lexigraph.Grammar.Text
import Lexigraph.Grammar.Call
import Lexigraph.Grammar.Clone
import Lexigraph.Session
import Lexigraph.Session.Scan
import Lexigraph.Session.Op
import Lexigraph.TokenStream
import Lexigraph.Proofs.Attempt
import Lexigraph.Proofs.Rule.Outcome
import Lexigraph.Proofs.Rule.FirstMatch
import Lexigraph.Proofs.Graph.Proper
import Lexigraph.Proofs.Graph.Closed
import Lexigraph.Proofs.Graph.Acyclic
import Lexigraph.Proofs.Pattern.Lexeme
import Lexigraph.Proofs.Pattern.RoundTrip
import Lexigraph.Proofs.Grammar.Proper
import Lexigraph.Proofs.Grammar.Closed
import Lexigraph.Proofs.Grammar.Depicts
import Lexigraph.Proofs.Grammar.Unfold
import Lexigraph.Proofs.Grammar.Plant
import Lexigraph.Proofs.Grammar.RoundTrip
import Lexigraph.Proofs.Grammar.SamePattern
import Lexigraph.Proofs.Passage
import Lexigraph.Proofs.Passage.Agree
import Lexigraph.Proofs.Passage.Depth
import Lexigraph.Proofs.Session.Memo
import Lexigraph.Proofs.Session.Alike
import Lexigraph.Proofs.Session.Sound
import Lexigraph.Proofs.Session.Scanned
import Lexigraph.Proofs.Session.Tame
import Lexigraph.Proofs.Session.Ending
import Lexigraph.Proofs.Session.Run
import Lexigraph.Proofs.Session.Reached
import Lexigraph.Proofs.Session.Published
import Lexigraph.Proofs.Session.Settled
import Lexigraph.Proofs.Session.Follows
import Lexigraph.Proofs.Session.Refinement
import Lexigraph.Proofs.Session.Cut
import Lexigraph.Proofs.Session.Limits
import Lexigraph.Proofs.Session.Watched
import Lexigraph.Proofs.Session.Unlimited
import Lexigraph.Proofs.TokenStream.Lossless
import Lexigraph.Proofs.Session.Passes
import Lexigraph.Proofs.TokenStream.ReadBack
import Lexigraph.Proofs.Graph.Copy
import Lexigraph.Proofs.Grammar.Canonical
import Lexigraph.Proofs.Grammar.Mirror
import Lexigraph.Proofs.Session.Mirror
import Lexigraph.Proofs.Grammar.Copy
import Lexigraph.Proofs.Grammar.Spared
import Lexigraph.Proofs.Pattern.Lexing
import Lexigraph.Proofs.Pattern.Unambiguous
import Lexigraph.Proofs.Pattern.Derived
import Lexigraph.Proofs.Pattern.Accepted
import Lexigraph.Proofs.Grammar.Derivation
import Lexigraph.Proofs.Grammar.Append
import Lexigraph.Proofs.Graph.Stocked
import Lexigraph.Proofs.Grammar.WellFormed
import Lexigraph.Proofs.Session.Replay
import Lexigraph.Proofs.Session.Record
import Lexigraph.Proofs.Session.Account
import Lexigraph.Proofs.Session.Lookup
import Lexigraph.Proofs.Grammar.Annotate
import Lexigraph.Proofs.Session.Relabel
import Lexigraph.Proofs.Session.Labels
import Lexigraph.Proofs.Session.BeforeEnd
import Lexigraph.Proofs.Session.Shift
import Lexigraph.Proofs.Session.Translation
import Lexigraph.Proofs.Session.Evaluations
import Lexigraph.Proofs.Session.Packrat
import Lexigraph.Proofs.Session.Turns
import Lexigraph.Proofs.Grammar.Writable
import Lexigraph.Proofs.Grammar.Refused
import Lexigraph.Proofs.Session.Stuck
import Lexigraph.Proofs.Session.Own
import Lexigraph.Proofs.Session.Greedy
import Lexigraph.Proofs.Pattern.Forward
import Lexigraph.Proofs.Pattern.Flaw
import Lexigraph.Proofs.Pattern.Misread
import Lexigraph.Proofs.Pattern.Unbounded
import Lexigraph.Proofs.Pattern.CutOff
import Lexigraph.Proofs.Grammar.Faults
import Lexigraph.Proofs.Token.Numbering
import Lexigraph.Proofs.Token.Table
import Lexigraph.Proofs.Rule.Order
import Lexigraph.Proofs.Scanner.Marks
import Lexigraph.Proofs.Pattern.Inverse
import Lexigraph.Proofs.Nesting
