/-
# Lexigraph.Grammar.Call -- how grammars come about

A grammar starts out empty and changes by calls, in any order and with any numbers and
texts. A call that fails leaves what it did before it failed, and building may go on from
there.
-/

import Lexigraph.Grammar.Text

namespace Lexigraph.Grammar

/-- A call that changes a grammar. -/
inductive Call where
  | intern (name : String)
  | addRule (rule : Rule)
  | oneOf (token : String) (choices : List String)
  | terminal (rule : RuleId)
  | repetition (child : StateId) (min : UInt32) (max : Option UInt32)
  | choice (branches : List StateId)
  | link (source target : StateId)
  | sequence (states : List StateId)
  | retoken (state : StateId) (token : Option String)
  | annotate (state : StateId) (annotations : Annotations)
  | copy (state : StateId)
  | read (text : String)
  | setRoot (state : StateId)

/-- The grammar after a call, whether or not the call succeeds. -/
def after (g : Grammar) : Call → Grammar
  | .intern name => (intern name g).2
  | .addRule rule => (addRule rule g).2
  | .oneOf token choices => (oneOf token choices g).2
  | .terminal rule => (terminal rule g).2
  | .repetition child min max => (repetition child min max g).2
  | .choice branches => (choice branches g).2
  | .link source target => (link source target g).2
  | .sequence states => (sequence states g).2
  | .retoken state token => (retoken state token g).2
  | .annotate state annotations => (annotate state annotations g).2
  | .copy state => (copy state g).2
  | .read text => (read text g).2
  | .setRoot state => (setRoot state g).2

/-- The grammar after calls, one after another. -/
def afterAll (g : Grammar) (calls : List Call) : Grammar := calls.foldl after g

/-- A grammar that calls lead to. -/
inductive Built : Grammar → Prop where
  | empty : Built empty
  | after {g : Grammar} (h : Built g) (call : Call) : Built (g.after call)

theorem Built.afterAll {g : Grammar} (h : Built g) (calls : List Call) :
    Built (g.afterAll calls) := by
  induction calls generalizing g with
  | nil => exact h
  | cons call calls ih => exact ih (h.after call)

end Lexigraph.Grammar
