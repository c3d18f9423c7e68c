/-
# Lexigraph.Proofs.Passage -- what a state passes over, without a session

A scan in a session moves a scanner, opens marks, asks a memo, pushes and pops frames and
counts. What it comes to depends on none of these. `Passage.evaluate` says what it comes to,
from a state, the place where the uncovered text of a frame begins, and the position: did
the state match, where do beginning and position stand afterwards, and which tokens were
emitted. It is a function of the grammar, the source and the policy of repetitions that fall
short.

States name one another in circles, so an evaluation need not come to an end. `evaluate`
recurses on how deep evaluations may nest and says `endless` beyond that; `Evaluates` says
that some depth is enough.
-/

import Lexigraph.Grammar
import Lexigraph.Proofs.Rule.Outcome
import Lexigraph.Session

namespace Lexigraph

/-- What scanning a state comes to in a frame. -/
structure Passage where
  /-- Did the state's own match succeed? -/
  matched : Bool
  /-- Where the text now begins that no token covers. -/
  start : Nat
  /-- How far scanning got. -/
  position : Nat
  /-- The tokens emitted on the way. -/
  emitted : List Token := []
  deriving DecidableEq, Repr

namespace Passage

/-- What states come to, from a beginning of uncovered text and a position. -/
abbrev Evaluator := StateId → Nat → Nat → Except (Stop ScanError) Passage

/-- A passage that goes on where another one ended. -/
def after (q p : Passage) : Passage := { q with emitted := p.emitted ++ q.emitted }

/-- Emits a token over the text that no token covers yet, unless that is empty. -/
def emit (token : TokenId) (p : Passage) : Passage :=
  if p.start < p.position then
    { p with start := p.position, emitted := p.emitted ++ [⟨token, p.start, p.position⟩] }
  else p

/-- Emits the token of a state, if it has one. -/
def emitOwn (token : Option TokenId) (p : Passage) : Passage :=
  match token with
  | some token => p.emit token
  | none => p

section Visit

variable (g : Grammar) (source : Source) (shortfall : Shortfall) (eval : Evaluator)

/-- States in order up to the first that matches. -/
def firstOf : List StateId → Nat → Nat → Except (Stop ScanError) Passage
  | [], start, position => .ok { matched := false, start, position }
  | id :: ids, start, position => do
    let p ← eval id start position
    if p.matched then return p
    let q ← firstOf ids p.start p.position
    return q.after p

/-- Goes on from a match with the first of some branches that matches, unless nothing is left. The
match stays a match. -/
def goOn (branches : List StateId) (p : Passage) : Except (Stop ScanError) Passage :=
  if source.size ≤ p.position then .ok p
  else do
    let q ← firstOf eval branches p.start p.position
    return { q.after p with matched := true }

/-- A terminal passes over the first literal of its rule that the text goes on with. -/
def ofTerminal (node : Node) (ruleId : RuleId) (start position : Nat) :
    Except (Stop ScanError) Passage :=
  match g.rules.get ruleId with
  | .error e => .error (.error (.grammar e))
  | .ok rule =>
    if source.size ≤ position then .error (.error (.unexpectedEnd position))
    else
      match rule.outcome ((source.rest? position).getD []) position with
      | .failure _ => .ok { matched := false, start, position }
      | .success span =>
        let p : Passage := { matched := true, start, position := span.stop }
        goOn source eval node.branches (p.emit (node.token.getD rule.token))

/-- The rounds of a repetition after the first `done`: how many counted, and the position reached.
A round counts if it emitted a token and moved forward, and the first that does not is the
last. -/
def rounds (child : StateId) (max : Option UInt32) (done start position : Nat) :
    Except (Stop ScanError) (Nat × Nat) :=
  if max.any (·.toNat ≤ done) = true ∨ source.size ≤ position then .ok (done, position)
  else
    match eval child start position with
    | .error stop => .error stop
    | .ok p =>
      if p.emitted ≠ [] ∧ position < p.position then
        rounds child max (done + 1) p.start p.position
      else .ok (done, p.position)
termination_by source.size - position
decreasing_by
  rename_i hgoes hcounts
  exact Nat.sub_lt_sub_left (Nat.lt_of_not_le fun hend => hgoes (.inr hend)) hcounts.2

variable {source eval} in
/-- There is no round after the maximum, and none at the end of the source. -/
theorem rounds_over {child : StateId} {max : Option UInt32} {done start position : Nat}
    (h : max.any (·.toNat ≤ done) = true ∨ source.size ≤ position) :
    rounds source eval child max done start position = .ok (done, position) := by
  rw [rounds, if_pos h]

variable {source eval} in
theorem rounds_goes {child : StateId} {max : Option UInt32} {done start position : Nat}
    (h : ¬ (max.any (·.toNat ≤ done) = true ∨ source.size ≤ position)) :
    rounds source eval child max done start position = (do
      let p ← eval child start position
      if p.emitted ≠ [] ∧ position < p.position then
        rounds source eval child max (done + 1) p.start p.position
      else return (done, p.position)) := by
  rw [rounds, if_neg h]
  cases eval child start position <;> rfl

/-- Ends a repetition that began at `entry` and got to `reached`. If it is satisfied it emits its
token over all that it passed and goes on, else it goes back or stays. -/
def conclude (node : Node) (satisfied : Bool) (start entry reached : Nat) :
    Except (Stop ScanError) Passage :=
  if satisfied then
    let p : Passage := { matched := true, start, position := reached }
    goOn source eval node.branches (p.emitOwn node.token)
  else
    match shortfall with
    | .rewind => .ok { matched := false, start, position := entry }
    | .keep => .ok { matched := false, start, position := reached }

/-- A repetition runs its rounds in a frame of their own, whose tokens are dropped, and is
satisfied by enough that counted. -/
def ofRepetition (node : Node) (child : StateId) (min : UInt32) (max : Option UInt32)
    (start position : Nat) : Except (Stop ScanError) Passage := do
  let (counted, reached) ← rounds source eval child max 0 position position
  conclude source shortfall eval node (decide (min.toNat ≤ counted)) start position reached

/-- A choice takes the first of its branches that matches. Its token covers what that branch left
uncovered. -/
def ofChoice (node : Node) (start position : Nat) : Except (Stop ScanError) Passage := do
  let p ← firstOf eval node.branches start position
  return if p.matched then p.emitOwn node.token else p

/-- A state, with `eval` for the states that it names. -/
def ofState : Evaluator := fun id start position =>
  match g.graph.node id with
  | .error e => .error (.error (.grammar e))
  | .ok node =>
    match node.kind with
    | .terminal ruleId => ofTerminal g source eval node ruleId start position
    | .repetition child min max =>
      ofRepetition source shortfall eval node child min max start position
    | .choice => ofChoice eval node start position

end Visit

/-- What states come to if evaluations nest less than `depth` deep. -/
def evaluate (g : Grammar) (source : Source) (shortfall : Shortfall) (depth : Nat) : Evaluator :=
  match depth with
  | 0 => fun _ _ _ => .error .endless
  | depth + 1 => ofState g source shortfall (evaluate g source shortfall depth)

/-- What a state comes to, a passage or an error. -/
def Evaluates (g : Grammar) (source : Source) (shortfall : Shortfall) (id : StateId)
    (start position : Nat) (q : Except ScanError Passage) : Prop :=
  ∃ depth, evaluate g source shortfall depth id start position = q.mapError .error

end Passage

end Lexigraph
