/-
# Lexigraph.Proofs.Passage.Agree -- passages do not depend on the depth

Where an evaluation comes to an end, evaluating deeper comes to the same end. An evaluator
extends another one if it agrees with it wherever that one comes to an end; the evaluator of
a state then extends too (`ofState_agrees`), and so each depth extends the depths before it
(`evaluate_agrees`). What is proved on the way says how passages go: forward, within the
source, and no token that is emitted ends before the position that the evaluation began at.
It also says what may go wrong: where all that is named is there, nothing but the end of the
source (`error_of_evaluate`).
-/

import Lexigraph.Proofs.Grammar.Closed
import Lexigraph.Proofs.Passage

namespace Lexigraph

namespace Passage

variable {source : Source} {start position : Nat} {p q : Passage} {α β : Type}

/-! ## How passages go -/

/-- Uncovered text begins no later than at the position, which lies in the source. -/
structure Within (source : Source) (start position : Nat) : Prop where
  ordered : start ≤ position
  inside : position ≤ source.size

/-- A passage goes forward within the source, and each token that it emits reaches up to the
position that it began at. -/
structure Advances (source : Source) (start position : Nat) (p : Passage) : Prop where
  within : Within source p.start p.position
  start_le : start ≤ p.start
  position_le : position ≤ p.position
  reach : ∀ t ∈ p.emitted, position ≤ t.span.stop

/-- A passage that emitted nothing and uncovered nothing. -/
theorem Within.advances (h : Within source start position) {reached : Nat}
    (hreached : position ≤ reached) (hinside : reached ≤ source.size) (matched : Bool) :
    Advances source start position { matched, start, position := reached } where
  within := ⟨Nat.le_trans h.ordered hreached, hinside⟩
  start_le := Nat.le_refl _
  position_le := hreached
  reach := nofun

theorem Advances.after (hp : Advances source start position p)
    (hq : Advances source p.start p.position q) : Advances source start position (q.after p) where
  within := hq.within
  start_le := Nat.le_trans hp.start_le hq.start_le
  position_le := Nat.le_trans hp.position_le hq.position_le
  reach := by
    intro t ht
    rcases List.mem_append.1 ht with ht | ht
    · exact hp.reach t ht
    · exact Nat.le_trans hp.position_le (hq.reach t ht)

theorem Advances.emit (hp : Advances source start position p) (token : TokenId) :
    Advances source start position (p.emit token) := by
  unfold Passage.emit
  split
  · refine ⟨⟨Nat.le_refl _, hp.within.inside⟩, Nat.le_trans hp.start_le hp.within.ordered,
      hp.position_le, fun t ht => ?_⟩
    rcases List.mem_append.1 ht with ht | ht
    · exact hp.reach t ht
    · obtain rfl := List.mem_singleton.1 ht
      exact hp.position_le
  · exact hp

theorem Advances.emitOwn (hp : Advances source start position p) (token : Option TokenId) :
    Advances source start position (p.emitOwn token) := by
  cases token with
  | none => exact hp
  | some token => exact hp.emit token

/-- A rule leads no further than to the end of the source. -/
theorem outcome_stop_le (rule : Rule) (hin : position ≤ source.size) :
    (rule.outcome ((source.rest? position).getD []) position).stop ≤ source.size := by
  rw [Rule.outcome_stop]
  unfold Scanner.stopOf
  split
  · next literal hfind =>
    have hprefix : literal.toList <+: (source.rest? position).getD [] := by
      simpa [Scanner.startsWith] using List.find?_some hfind
    cases hrest : source.rest? position with
    | none =>
      -- inside a character nothing is left, so the literal is empty
      rw [hrest] at hprefix
      rw [List.prefix_nil.1 hprefix]
      exact hin
    | some rest =>
      have hok : source.IsBoundary position := by rw [Source.IsBoundary, hrest]; rfl
      have heq : source.rest position hok = rest :=
        Option.some.inj ((Option.some_get hok).trans hrest)
      rw [hrest, Option.getD_some, ← heq] at hprefix
      exact (hok.add_size hprefix).le_size
  · exact hin

/-! ## Ends that stay -/

section Settles

variable (wrong : ScanError → Prop)

/-- A result in `post`, or an error in `wrong`. -/
def Allowed (post : α → Prop) : Except (Stop ScanError) α → Prop
  | .ok a => post a
  | .error (.error e) => wrong e
  | .error (.fault _) | .error .endless => True

/-- `x` comes to no end, or `y` comes to the same, which is allowed. -/
def Settles (post : α → Prop) (x y : Except (Stop ScanError) α) : Prop :=
  x = .error .endless ∨ (x = y ∧ Allowed wrong post x)

end Settles

variable {wrong : ScanError → Prop}

theorem Settles.ok {post : α → Prop} {a : α} (h : post a) : Settles wrong post (.ok a) (.ok a) :=
  .inr ⟨rfl, h⟩

theorem Settles.error {post : α → Prop} {e : ScanError} (h : wrong e) :
    Settles wrong post (.error (.error e)) (.error (.error e)) := .inr ⟨rfl, h⟩

theorem Settles.bind {x y : Except (Stop ScanError) α} {f f' : α → Except (Stop ScanError) β}
    {mid : α → Prop} {post : β → Prop} (hx : Settles wrong mid x y)
    (hf : ∀ a, mid a → Settles wrong post (f a) (f' a)) :
    Settles wrong post (x >>= f) (y >>= f') := by
  rcases hx with rfl | ⟨rfl, hmid⟩
  · exact .inl rfl
  · cases x with
    | error stop => exact .inr ⟨rfl, by cases stop <;> exact hmid⟩
    | ok a => exact hf a hmid

theorem Settles.mono {x y : Except (Stop ScanError) α} {mid post : α → Prop}
    (h : Settles wrong mid x y) (himp : ∀ a, mid a → post a) : Settles wrong post x y := by
  refine h.imp id fun ⟨heq, hmid⟩ => ⟨heq, ?_⟩
  cases x with
  | error stop => cases stop <;> exact hmid
  | ok a => exact himp a hmid

/-- From some states, one evaluator comes to the same as another one wherever that one comes to an
end. -/
def Agrees (source : Source) (states : StateId → Prop) (wrong : ScanError → Prop)
    (eval eval' : Evaluator) : Prop :=
  ∀ id, states id → ∀ start position, Within source start position →
    Settles wrong (Advances source start position) (eval id start position)
      (eval' id start position)

variable {states : StateId → Prop} {eval eval' : Evaluator}

theorem firstOf_settles (h : Agrees source states wrong eval eval') {ids : List StateId}
    (hids : ∀ id ∈ ids, states id) (hw : Within source start position) :
    Settles wrong (Advances source start position) (firstOf eval ids start position)
      (firstOf eval' ids start position) := by
  induction ids generalizing start position with
  | nil => exact .ok (hw.advances (Nat.le_refl _) hw.inside _)
  | cons id ids ih =>
    rw [List.forall_mem_cons] at hids
    refine (h id hids.1 start position hw).bind fun p hp => ?_
    cases p.matched with
    | true => exact .ok hp
    | false => exact (ih hids.2 hp.within).bind fun q hq => .ok (hp.after hq)

theorem goOn_settles (h : Agrees source states wrong eval eval') {branches : List StateId}
    (hids : ∀ id ∈ branches, states id) (hp : Advances source start position p) :
    Settles wrong (Advances source start position) (goOn source eval branches p)
      (goOn source eval' branches p) := by
  unfold goOn
  split
  · exact .ok hp
  · exact (firstOf_settles h hids hp.within).bind fun q hq => .ok { hp.after hq with }

/-- What may go wrong with a terminal: its rule may be missing, or the source may be at its end. -/
theorem ofTerminal_settles {g : Grammar} (h : Agrees source states wrong eval eval') {node : Node}
    {ruleId : RuleId} (hids : ∀ id ∈ node.branches, states id)
    (hrule : ∀ e, g.rules.get ruleId = .error e → wrong (.grammar e))
    (hend : wrong (.unexpectedEnd source.size)) (hw : Within source start position) :
    Settles wrong (Advances source start position)
      (ofTerminal g source eval node ruleId start position)
      (ofTerminal g source eval' node ruleId start position) := by
  unfold ofTerminal
  split
  · next e he => exact .error (hrule e he)
  · next rule _ =>
    have hle := rule.le_outcome_stop ((source.rest? position).getD []) position
    have hin := outcome_stop_le rule hw.inside
    split
    · next hleft => exact .error (Nat.le_antisymm hw.inside hleft ▸ hend)
    · revert hle hin
      cases rule.outcome ((source.rest? position).getD []) position with
      | failure _ => exact fun _ _ => .ok (hw.advances (Nat.le_refl _) hw.inside _)
      | success span =>
        intro hle hin
        exact goOn_settles h hids ((hw.advances hle hin true).emit _)

/-- Rounds reach no position before the one that they begin at. -/
theorem rounds_settles (h : Agrees source states wrong eval eval') {child : StateId}
    (hchild : states child) (max : Option UInt32) (done : Nat) (hw : Within source start position) :
    Settles wrong (fun r => position ≤ r.2 ∧ r.2 ≤ source.size)
      (rounds source eval child max done start position)
      (rounds source eval' child max done start position) := by
  -- a counted round takes a byte at least, so there is less left for those that follow
  induction hleft : source.size - position using Nat.strongRecOn generalizing done start position
    with
  | ind left ih =>
    by_cases hover : max.any (·.toNat ≤ done) = true ∨ source.size ≤ position
    · rw [rounds_over hover, rounds_over hover]
      exact .ok ⟨Nat.le_refl _, hw.inside⟩
    rw [rounds_goes hover, rounds_goes hover]
    refine (h child hchild start position hw).bind fun p hp => ?_
    split
    · next hcounts =>
      have hlt : position < source.size := Nat.lt_of_not_le fun hend => hover (.inr hend)
      have hless : source.size - p.position < left := hleft ▸ Nat.sub_lt_sub_left hlt hcounts.2
      refine (ih _ hless (done + 1) hp.within rfl).mono fun r hr => ?_
      exact ⟨Nat.le_trans hp.position_le hr.1, hr.2⟩
    · exact .ok ⟨hp.position_le, hp.within.inside⟩

theorem conclude_settles (h : Agrees source states wrong eval eval') (shortfall : Shortfall)
    {node : Node} (hids : ∀ id ∈ node.branches, states id) (satisfied : Bool) {reached : Nat}
    (hw : Within source start position) (hreached : position ≤ reached)
    (hinside : reached ≤ source.size) :
    Settles wrong (Advances source start position)
      (conclude source shortfall eval node satisfied start position reached)
      (conclude source shortfall eval' node satisfied start position reached) := by
  cases satisfied with
  | true => exact goOn_settles h hids ((hw.advances hreached hinside true).emitOwn _)
  | false =>
    cases shortfall with
    | rewind => exact .ok (hw.advances (Nat.le_refl _) hw.inside _)
    | keep => exact .ok (hw.advances hreached hinside _)

theorem ofRepetition_settles (h : Agrees source states wrong eval eval') (shortfall : Shortfall)
    {node : Node} {child : StateId} (hids : ∀ id ∈ node.branches, states id)
    (hchild : states child) (min : UInt32) (max : Option UInt32)
    (hw : Within source start position) :
    Settles wrong (Advances source start position)
      (ofRepetition source shortfall eval node child min max start position)
      (ofRepetition source shortfall eval' node child min max start position) := by
  have hframe : Within source position position := ⟨Nat.le_refl _, hw.inside⟩
  refine (rounds_settles h hchild max 0 hframe).bind ?_
  rintro ⟨counted, reached⟩ ⟨hreached, hinside⟩
  exact conclude_settles h shortfall hids _ hw hreached hinside

theorem ofChoice_settles (h : Agrees source states wrong eval eval') {node : Node}
    (hids : ∀ id ∈ node.branches, states id) (hw : Within source start position) :
    Settles wrong (Advances source start position) (ofChoice eval node start position)
      (ofChoice eval' node start position) := by
  refine (firstOf_settles h hids hw).bind fun p hp => .ok ?_
  split
  · exact hp.emitOwn _
  · exact hp

/-! ## Depths -/

/-- What goes wrong from some states is among some errors: the end of the source, and names that
are not there. The states name one another alone. -/
structure Confines (g : Grammar) (source : Source) (states : StateId → Prop)
    (wrong : ScanError → Prop) : Prop where
  atEnd : wrong (.unexpectedEnd source.size)
  unknown : ∀ id e, states id → g.graph.node id = .error e → wrong (.grammar e)
  named : ∀ id node, states id → g.graph.node id = .ok node → ∀ j ∈ node.successors, states j
  ruled : ∀ id node rule e, states id → g.graph.node id = .ok node → node.kind = .terminal rule →
    g.rules.get rule = .error e → wrong (.grammar e)

theorem Confines.all (g : Grammar) (source : Source) :
    Confines g source (fun _ => True) (fun _ => True) := by
  constructor <;> simp

/-- Where all that is named is there, nothing can go wrong but the end of the source. -/
theorem Confines.of_closed {g : Grammar} (hg : g.Closed) (source : Source) :
    Confines g source (fun id => id.index < g.graph.size) (· = .unexpectedEnd source.size) where
  atEnd := rfl
  unknown id e hid he := by
    obtain ⟨node, hnode⟩ := Graph.exists_node?_of_lt_size hid
    rw [Graph.node_eq_ok_iff.2 hnode] at he
    cases he
  named id node _ hnode := (hg id node (Graph.node_eq_ok_iff.1 hnode)).states
  ruled id node rule e _ hnode hkind he := by
    have hlt := (hg id node (Graph.node_eq_ok_iff.1 hnode)).rule rule hkind
    have hrule : g.rules.get? rule = some g.rules.rules[rule.index] := Array.getElem?_eq_getElem hlt
    rw [RuleTable.get_eq_ok_iff.2 hrule] at he
    cases he

variable {g : Grammar} {shortfall : Shortfall}

/-- States evaluate alike if the states that they name do. -/
theorem ofState_agrees (hg : Confines g source states wrong)
    (h : Agrees source states wrong eval eval') :
    Agrees source states wrong (ofState g source shortfall eval)
      (ofState g source shortfall eval') := by
  intro id hid start position hw
  unfold ofState
  split
  · next e he => exact .error (hg.unknown id e hid he)
  · next node hnode =>
    have hnamed := hg.named id node hid hnode
    have hids : ∀ j ∈ node.branches, states j := fun j hj => hnamed j (Node.branch_mem_successors hj)
    split
    · next hkind =>
      exact ofTerminal_settles h hids (fun e => hg.ruled id node _ e hid hnode hkind) hg.atEnd hw
    · next hkind =>
      have hchild := hnamed _ (Node.child_mem_successors hkind)
      exact ofRepetition_settles h shortfall hids hchild _ _ hw
    · exact ofChoice_settles h hids hw

/-- **Evaluating deeper changes nothing** where an evaluation comes to an end. -/
theorem evaluate_agrees (hg : Confines g source states wrong) (depth : Nat) :
    Agrees source states wrong (evaluate g source shortfall depth)
      (evaluate g source shortfall (depth + 1)) := by
  induction depth with
  | zero => exact fun _ _ _ _ _ => .inl rfl
  | succ depth ih => exact ofState_agrees hg ih

theorem evaluate_of_le {depth depth' : Nat} (hle : depth ≤ depth') {id : StateId}
    (hw : Within source start position)
    (h : evaluate g source shortfall depth id start position ≠ .error .endless) :
    evaluate g source shortfall depth' id start position =
      evaluate g source shortfall depth id start position := by
  induction hle with
  | refl => rfl
  | step _ ih =>
    rcases evaluate_agrees (.all g source) _ id trivial start position hw with hend | ⟨heq, -⟩
    · exact absurd (ih.symm.trans hend) h
    · rw [← ih]
      exact heq.symm

/-- What an evaluation may come to. -/
theorem evaluate_allowed (hg : Confines g source states wrong) {depth : Nat} {id : StateId}
    (hid : states id) (hw : Within source start position) :
    Allowed wrong (Advances source start position)
      (evaluate g source shortfall depth id start position) := by
  rcases evaluate_agrees hg depth id hid start position hw with hend | ⟨-, hpost⟩
  · rw [hend]
    trivial
  · exact hpost

/-- How the passages of an evaluation go. -/
theorem advances_of_evaluate {depth : Nat} {id : StateId} (hw : Within source start position)
    (h : evaluate g source shortfall depth id start position = .ok p) :
    Advances source start position p := by
  have hallowed : Allowed _ _ (evaluate g source shortfall depth id start position) :=
    evaluate_allowed (.all g source) trivial hw
  rwa [h] at hallowed

/-- What may go wrong in an evaluation. -/
theorem error_of_evaluate (hg : Confines g source states wrong) {depth : Nat} {id : StateId}
    (hid : states id) {e : ScanError} (hw : Within source start position)
    (h : evaluate g source shortfall depth id start position = .error (.error e)) : wrong e := by
  have hallowed : Allowed _ _ (evaluate g source shortfall depth id start position) :=
    evaluate_allowed hg hid hw
  rwa [h] at hallowed

end Passage

end Lexigraph
