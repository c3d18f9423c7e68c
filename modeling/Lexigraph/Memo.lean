/-
# Lexigraph.Memo -- results of rules, remembered

A rule evaluated at a position matched a span from there on, or failed there. The grammar
and the source stay the same while a session lasts, so a result never changes: a
`ResultTable` keeps one result per rule and position and counts how often one was asked
for and known. A `Memo` is such a table, or remembers nothing.
-/

import Std.Data.TreeMap
import Lexigraph.Error

namespace Lexigraph

/-- How a rule came out at one position. -/
inductive MatchResult where
  /-- The rule matched the span, which starts at the position. -/
  | success (span : Span)
  /-- The rule did not match at the position. -/
  | failure (position : Nat)
  deriving DecidableEq, Repr

namespace MatchResult

/-- Where the rule was evaluated. -/
def position : MatchResult → Nat
  | .success span => span.start
  | .failure position => position

/-- Did the rule match? -/
def isSuccess : MatchResult → Bool
  | .success _ => true
  | .failure _ => false

/-- What the rule matched. -/
def span? : MatchResult → Option Span
  | .success span => some span
  | .failure _ => none

end MatchResult

/-- Results by number of the rule and position, written once, with the counts of hits and
misses. -/
structure ResultTable where
  entries : Std.TreeMap (Nat × Nat) MatchResult lexOrd.compare := {}
  hits : Nat := 0
  misses : Nat := 0

namespace ResultTable

/-- Number of results in the table. -/
def size (t : ResultTable) : Nat := t.entries.size

/-- The known result of a rule at a position; asking is not counted. -/
def get? (t : ResultTable) (rule : RuleId) (position : Nat) : Option MatchResult :=
  t.entries[(rule.index, position)]?

theorem get?_insert (t : ResultTable) (rule : RuleId) (position : Nat) (result : MatchResult)
    (hits misses : Nat) (rule' : RuleId) (position' : Nat) :
    get? ⟨t.entries.insert (rule.index, position) result, hits, misses⟩ rule' position' =
      if rule = rule' ∧ position = position' then some result else t.get? rule' position' := by
  obtain ⟨index⟩ := rule
  obtain ⟨index'⟩ := rule'
  unfold get?
  rw [Std.TreeMap.getElem?_insert]
  simp only [Std.compare_eq_iff_eq, Prod.mk.injEq, RuleId.mk.injEq]

/-- The known result of a rule at a position; asking counts as a hit or as a miss. -/
def ask (t : ResultTable) (rule : RuleId) (position : Nat) : Option MatchResult × ResultTable :=
  match t.get? rule position with
  | some result => (some result, { t with hits := t.hits + 1 })
  | none => (none, { t with misses := t.misses + 1 })

/-- Adds a result. It may be known already, but then as the same result. -/
def record (t : ResultTable) (rule : RuleId) (result : MatchResult) :
    Except Fault Unit × ResultTable :=
  match t.get? rule result.position with
  | none => (.ok (), { t with entries := t.entries.insert (rule.index, result.position) result })
  | some known => (if known = result then .ok () else .error .conflictingResult, t)

end ResultTable

/-- Results are remembered in a table, or not at all. -/
inductive Memo where
  | off
  | on (table : ResultTable)

namespace Memo

/-- The table of a memo that has one. -/
def table? : Memo → Option ResultTable
  | .off => none
  | .on table => some table

/-- The known result of a rule at a position. -/
def ask (m : Memo) (rule : RuleId) (position : Nat) : Option MatchResult × Memo :=
  match m with
  | .off => (none, .off)
  | .on table =>
    let (known, table) := table.ask rule position
    (known, .on table)

/-- Remembers a result. -/
def record (m : Memo) (rule : RuleId) (result : MatchResult) : Except Fault Unit × Memo :=
  match m with
  | .off => (.ok (), .off)
  | .on table =>
    let (recorded, table) := table.record rule result
    (recorded, .on table)

end Memo

end Lexigraph
