/-
# Lexigraph.Grammar.Clone -- a grammar a second time

A clone of a grammar has tokens, states and a root of its own that are the same, and for each
rule one that is derived from it with nothing replaced. Building may go on from a clone as it
may from the grammar itself.
-/

import Lexigraph.Grammar.Call

namespace Lexigraph

/-- A table with a rule derived from each rule, under the same numbers. -/
def RuleTable.clone (t : RuleTable) : RuleTable where
  rules := t.rules.map fun rule => rule.derive none none

namespace Grammar

/-- A second grammar that is like the first. -/
def clone (g : Grammar) : Grammar := { g with rules := g.rules.clone }

/-- A grammar that calls and clones lead to. -/
inductive Assembled : Grammar → Prop where
  | empty : Assembled empty
  | after {g : Grammar} (h : Assembled g) (call : Call) : Assembled (g.after call)
  | clone {g : Grammar} (h : Assembled g) : Assembled g.clone

/-- A rule derived with nothing replaced is the rule, so a clone is the grammar itself. -/
theorem clone_eq (g : Grammar) : g.clone = g := by
  have hderive : ∀ rule : Rule, rule.derive none none = rule := fun _ => rfl
  have hrules : g.rules.clone = g.rules := by
    unfold RuleTable.clone
    simp only [hderive, Array.map_id']
  unfold clone
  rw [hrules]

/-- Clones lead to no other grammars than calls do. -/
theorem assembled_iff_built {g : Grammar} : Assembled g ↔ Built g := by
  constructor
  · intro h
    induction h with
    | empty => exact .empty
    | after _ call ih => exact ih.after call
    | clone _ ih => exact (clone_eq _).symm ▸ ih
  · intro h
    induction h with
    | empty => exact .empty
    | after _ call ih => exact ih.after call

end Grammar

end Lexigraph
