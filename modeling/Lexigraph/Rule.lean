/-
# Lexigraph.Rule -- terminal rules

A rule matches the first of an ordered list of literals; once one matches, later ones are
not tried. `evaluate` asks the memo first and tells it what came out: on failure the
scanner is back where it was, on success it stands after the literal.
-/

import Lexigraph.Annotations
import Lexigraph.Literals
import Lexigraph.Memo
import Lexigraph.Scanner

namespace Lexigraph

/-- Some literals, the token that a match stands for, and annotations. -/
structure Rule where
  token : TokenId
  choices : Literals
  annotations : Annotations := {}
  deriving DecidableEq, Repr, Inhabited

namespace Rule

/-- A rule for some literals, of which there has to be one. -/
def oneOf (token : TokenId) (choices : List String) : Except GrammarError Rule :=
  match Literals.ofList? choices with
  | some choices => .ok { token, choices }
  | none => .error .emptyTerminal

/-- The rule with other annotations. -/
def withAnnotations (r : Rule) (annotations : Annotations) : Rule := { r with annotations }

/-- A rule for the same literals, with the token or the annotations replaced. -/
def derive (r : Rule) (token : Option TokenId) (annotations : Option Annotations) : Rule :=
  { r with token := token.getD r.token, annotations := annotations.getD r.annotations }

/-! ## Written form -/

/-- The written rule: its annotations and its literals. -/
def text (r : Rule) : List Char := r.annotations.lead ++ r.choices.text

instance : ToString Rule where
  toString r := String.ofList r.text

/-! ## Evaluation -/

/-- Compares the literals with what is left, in order, up to the first that matches. -/
def attempt (r : Rule) (scanner : Scanner) : Except Fault (MatchResult × Scanner) :=
  match scanner.mark.scanFirst r.choices.toList with
  | (true, scanner) => do
    let (span, scanner) ← scanner.proceed
    return (.success span, scanner)
  | (false, scanner) => do
    let scanner ← scanner.rewind
    return (.failure scanner.position, scanner)

/-- Moves the scanner to where a known result leaves it. -/
def replay (result : MatchResult) (scanner : Scanner) : Except Fault Scanner :=
  match result with
  | .success span => scanner.moveTo span.stop
  | .failure _ => .ok scanner

/-- Evaluates a rule where the scanner stands. A known result is taken over without a
comparison. At the end of the source there is nothing to match, and the memo is not asked. -/
def evaluate (r : Rule) (id : RuleId) (scanner : Scanner) (memo : Memo) :
    Except (Stop ScanError) (MatchResult × Scanner) × Memo :=
  if scanner.atEnd then (.error (.error (.unexpectedEnd scanner.position)), memo)
  else
    match memo.ask id scanner.position with
    | (some known, memo) =>
      match replay known scanner with
      | .error f => (.error (.fault f), memo)
      | .ok scanner => (.ok (known, scanner), memo)
    | (none, memo) =>
      match r.attempt scanner with
      | .error f => (.error (.fault f), memo)
      | .ok (result, scanner) =>
        match memo.record id result with
        | (.error f, memo) => (.error (.fault f), memo)
        | (.ok (), memo) => (.ok (result, scanner), memo)

end Rule

/-! ## Tables of rules -/

/-- Rules, numbered in the order in which they were added. -/
structure RuleTable where
  rules : Array Rule := #[]

namespace RuleTable

/-- How many rules there are. -/
def size (t : RuleTable) : Nat := t.rules.size

/-- The rule with a number. -/
def get? (t : RuleTable) (id : RuleId) : Option Rule := t.rules[id.index]?

/-- The rule with a number; it is an error to ask for one that is not there. -/
def get (t : RuleTable) (id : RuleId) : Except GrammarError Rule :=
  match t.get? id with
  | some rule => .ok rule
  | none => .error (.unknownRule id)

theorem get_eq_ok_iff {t : RuleTable} {id : RuleId} {rule : Rule} :
    t.get id = .ok rule ↔ t.get? id = some rule := by
  unfold get
  cases t.get? id with
  | none => simp
  | some rule' => simp

theorem get_eq_error_iff {t : RuleTable} {id : RuleId} {e : GrammarError} :
    t.get id = .error e ↔ t.get? id = none ∧ e = .unknownRule id := by
  unfold get
  cases t.get? id with
  | none => simp [eq_comm]
  | some rule => simp

/-- Adds a rule; answers its number. -/
def push (t : RuleTable) (rule : Rule) : RuleId × RuleTable :=
  (⟨t.size⟩, { rules := t.rules.push rule })

end RuleTable

end Lexigraph
