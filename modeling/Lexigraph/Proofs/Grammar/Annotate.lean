/-
# Lexigraph.Proofs.Grammar.Annotate -- annotating one state

A terminal is annotated by a rule of its own, derived from the one that it had, and any other
state in place (`annotate_terminal`, `annotate_own`). No other state changes, and no rule that
others may share. So states that do not lead to the annotated one are written as before, and it
makes no difference whether annotations are added one after the other or merged before
(`annotate_twice`).
-/

import Lexigraph.Proofs.Grammar.Spared

namespace Lexigraph

theorem Annotations.merged_assoc (a b c : Annotations) :
    (a.merged b).merged c = a.merged (b.merged c) := by
  unfold merged
  simp only [Bool.or_assoc, BitVec.or_assoc, Annotations.mk.injEq, true_and]
  cases c.error <;> rfl

namespace Grammar

variable {g h : Grammar} {state : StateId} {node : Node} {ruleId : RuleId} {rule : Rule}

/-! ## What annotating does -/

/-- The grammar with a new rule for a terminal. -/
def reruled (g : Grammar) (state : StateId) (rule : Rule) : Grammar :=
  (editNode state (fun n => { n with kind := .terminal (addRule rule g).1 }) (addRule rule g).2).2

/-- The grammar with more annotations for a state. -/
def marked (g : Grammar) (state : StateId) (annotations : Annotations) : Grammar :=
  (editNode state (fun n => { n with annotations := n.annotations.merged annotations }) g).2

theorem annotate_terminal (hnode : g.graph.node? state = some node)
    (hkind : node.kind = .terminal ruleId) (hrule : g.rules.get? ruleId = some rule)
    (annotations : Annotations) :
    annotate state annotations g = (.ok ⟨⟩,
      g.reruled state (rule.withAnnotations (rule.annotations.merged annotations))) := by
  show (Attempt.ofExcept (g.graph.node state) >>= _ : GrammarEdit Unit) g = _
  rw [Graph.node_eq_ok_iff.2 hnode, Attempt.bind_apply, Attempt.ofExcept_apply]
  dsimp only
  rw [hkind]
  show (Attempt.ofExcept (g.rules.get ruleId) >>= _ : GrammarEdit Unit) g = _
  rw [RuleTable.get_eq_ok_iff.2 hrule, Attempt.bind_apply, Attempt.ofExcept_apply]
  rfl

theorem annotate_own (hnode : g.graph.node? state = some node)
    (hkind : ∀ ruleId, node.kind ≠ .terminal ruleId) (annotations : Annotations) :
    annotate state annotations g = (.ok ⟨⟩, g.marked state annotations) := by
  show (Attempt.ofExcept (g.graph.node state) >>= _ : GrammarEdit Unit) g = _
  rw [Graph.node_eq_ok_iff.2 hnode, Attempt.bind_apply, Attempt.ofExcept_apply]
  rcases node with ⟨kind, token, own, branches⟩
  cases kind with
  | terminal ruleId => exact absurd rfl (hkind ruleId)
  | repetition child min max => rfl
  | choice => rfl

/-- What a successful call has found and made of it. -/
inductive Annotated (g : Grammar) (state : StateId) (annotations : Annotations) : Grammar → Prop
  | terminal {node : Node} {ruleId : RuleId} {rule : Rule}
      (hnode : g.graph.node? state = some node) (hkind : node.kind = .terminal ruleId)
      (hrule : g.rules.get? ruleId = some rule) : Annotated g state annotations
        (g.reruled state (rule.withAnnotations (rule.annotations.merged annotations)))
  | own {node : Node} (hnode : g.graph.node? state = some node)
      (hkind : ∀ ruleId, node.kind ≠ .terminal ruleId) :
      Annotated g state annotations (g.marked state annotations)

theorem annotated_of_annotate {annotations : Annotations}
    (hok : annotate state annotations g = (.ok ⟨⟩, h)) : g.Annotated state annotations h := by
  obtain ⟨node, hnode, hok⟩ := Attempt.ofExcept_bind_eq_ok_iff.1 hok
  have hnode := Graph.node_eq_ok_iff.1 hnode
  rcases node with ⟨kind, token, own, branches⟩
  cases kind with
  | terminal ruleId =>
    obtain ⟨rule, hrule, hok⟩ := Attempt.ofExcept_bind_eq_ok_iff.1 hok
    cases hok
    exact .terminal hnode rfl (RuleTable.get_eq_ok_iff.1 hrule)
  | repetition child min max =>
    cases hok
    exact .own hnode nofun
  | choice =>
    cases hok
    exact .own hnode nofun

/-- The second grammar is the first one but for one state; there may be rules that were not there
before. -/
structure DiffersAt (state : StateId) (g h : Grammar) : Prop where
  others : ∀ id, id ≠ state → h.graph.node? id = g.graph.node? id
  size : h.graph.size = g.graph.size
  rules : ∀ id rule, g.rules.get? id = some rule → h.rules.get? id = some rule
  tokens : h.tokens = g.tokens
  root : h.root = g.root

theorem reruled_differsAt (g : Grammar) (state : StateId) (rule : Rule) :
    DiffersAt state g (g.reruled state rule) where
  others _ hid := Graph.node?_edit_of_ne _ hid.symm
  size := Graph.size_edit ..
  rules := (addRule_extends rule g).rules
  tokens := rfl
  root := rfl

theorem marked_differsAt (g : Grammar) (state : StateId) (annotations : Annotations) :
    DiffersAt state g (g.marked state annotations) where
  others _ hid := Graph.node?_edit_of_ne _ hid.symm
  size := Graph.size_edit ..
  rules _ _ hrule := hrule
  tokens := rfl
  root := rfl

theorem Annotated.differsAt {annotations : Annotations} (h' : g.Annotated state annotations h) :
    DiffersAt state g h := by
  cases h' with
  | terminal => exact reruled_differsAt g state _
  | own => exact marked_differsAt g state annotations

/-! ## What is written of other states -/

/-- A state that is not there is not written. -/
theorem textOf_of_missing {id : StateId} (hmissing : g.graph.node? id = none) :
    g.textOf id = .error (.unknownState id) := by
  have hunfold : g.unfold id = .error (.unknownState id) := by
    unfold unfold
    rw [unfoldFrom, if_neg (by simp)]
    unfold unfoldNode
    rw [Graph.node_eq_error_iff.2 ⟨hmissing, rfl⟩]
    rfl
  unfold textOf
  rw [hunfold]
  rfl

/-- States that do not lead to the one that changed are written as they were. -/
theorem DiffersAt.textOf (hg : Built g) (hdiffers : DiffersAt state g h) {root : StateId}
    (hroot : ¬ g.graph.Reaches root state) : h.textOf root = g.textOf root := by
  have hne : root ≠ state := fun heq => hroot (heq ▸ .refl)
  cases hnode : g.graph.node? root with
  | none =>
    rw [textOf_of_missing hnode, textOf_of_missing ((hdiffers.others root hne).trans hnode)]
  | some node =>
    have hagrees : AgreesOn (g.graph.Reaches root) g h := by
      refine ⟨fun id n hid hn => ?_, hdiffers.rules, fun id name hname => ?_⟩
      · rw [hdiffers.others id fun heq => hroot (heq ▸ hid)]
        exact hn
      · unfold Calls
        rw [hdiffers.tokens]
        exact hname
    have htext := (hg.mirrors (Graph.lt_size_of_node? hnode) hagrees).textOf .refl
    -- no token is known that was not known before
    revert htext
    generalize g.textOf root = answer
    show Retells g h id answer (h.textOf root) → _
    generalize h.textOf root = answer'
    intro htext
    cases htext with
    | learnt unknown known =>
      unfold Calls at known
      rw [hdiffers.tokens, unknown] at known
      cases known
    | same =>
      cases answer with
      | ok text => rfl
      | error e => exact congrArg Except.error e.rename_id

/-! ## The same under other numbers of rules -/

/-- Two states are the same but for the numbers of their rules. -/
inductive SameNode (g h : Grammar) : Node → Node → Prop
  | terminal {ruleId ruleId' : RuleId} {token : Option TokenId} {own : Annotations}
      {branches : List StateId} (rule : g.rules.get ruleId = h.rules.get ruleId') :
      SameNode g h ⟨.terminal ruleId, token, own, branches⟩ ⟨.terminal ruleId', token, own, branches⟩
  | other {node : Node} (hkind : ∀ ruleId, node.kind ≠ .terminal ruleId) : SameNode g h node node

/-- Two grammars whose states are the same but for the numbers of their rules. -/
structure SameStates (g h : Grammar) : Prop where
  nodes : ∀ id, Attempt.SameAnswer (SameNode g h) (g.graph.node id) (h.graph.node id)
  size : g.graph.size = h.graph.size
  tokens : g.tokens = h.tokens

/-- The numbers of rules make no difference to the pattern of a state. -/
theorem SameStates.unfoldFrom (hsame : SameStates g h) (fuel : Nat) (path : List StateId)
    (id : StateId) : g.unfoldFrom fuel path id = h.unfoldFrom fuel path id := by
  have htoken : g.tokenName = h.tokenName := by
    funext token
    unfold tokenName
    rw [hsame.tokens]
  induction fuel generalizing path id with
  | zero => rfl
  | succ fuel ih =>
    have hbelow : g.unfoldFrom fuel (id :: path) = h.unfoldFrom fuel (id :: path) := funext (ih _)
    rw [Grammar.unfoldFrom, Grammar.unfoldFrom, hbelow]
    refine if_congr Iff.rfl rfl ?_
    unfold unfoldNode
    rw [htoken]
    have hnode := hsame.nodes id
    revert hnode
    generalize g.graph.node id = x
    generalize h.graph.node id = y
    intro hnode
    cases hnode with
    | error e => rfl
    | @ok n m hnode =>
      cases hnode with
      | terminal rule =>
        show (g.rules.get _ >>= _) = (h.rules.get _ >>= _)
        rw [rule]
      | other hkind =>
        rcases n with ⟨kind, token, own, branches⟩
        cases kind with
        | terminal ruleId => exact absurd rfl (hkind ruleId)
        | repetition child min max => rfl
        | choice => rfl

theorem SameStates.textOf (hsame : SameStates g h) (id : StateId) : g.textOf id = h.textOf id := by
  unfold Grammar.textOf unfold
  rw [hsame.size, hsame.unfoldFrom]

/-- A rule that is there is found again among more rules. -/
theorem get_eq_of_lt (hrules : ∀ id rule, g.rules.get? id = some rule → h.rules.get? id = some rule)
    {ruleId : RuleId} (hlt : ruleId.index < g.rules.size) :
    h.rules.get ruleId = g.rules.get ruleId := by
  have hrule : g.rules.get? ruleId = some g.rules.rules[ruleId.index] :=
    Array.getElem?_eq_getElem hlt
  unfold RuleTable.get
  rw [hrule, hrules ruleId _ hrule]

/-- Two grammars that both come of a closed one by a change of the same state are the same in all if
they are the same in that. -/
theorem sameStates_of_differsAt (hg : g.Closed) {h' : Grammar} (hdiffers : DiffersAt state g h)
    (hdiffers' : DiffersAt state g h')
    (hstate : Attempt.SameAnswer (SameNode h h') (h.graph.node state) (h'.graph.node state)) :
    SameStates h h' where
  nodes id := by
    by_cases hid : id = state
    · subst hid
      exact hstate
    rw [Graph.node_congr (hdiffers.others id hid), Graph.node_congr (hdiffers'.others id hid)]
    cases hfound : g.graph.node id with
    | error e => exact .error e
    | ok node =>
      refine .ok ?_
      have hbounded := hg id node (Graph.node_eq_ok_iff.1 hfound)
      rcases node with ⟨kind, token, own, branches⟩
      cases kind with
      | terminal ruleId =>
        have hlt := hbounded.rule ruleId rfl
        exact .terminal ((get_eq_of_lt hdiffers.rules hlt).trans (get_eq_of_lt hdiffers'.rules hlt).symm)
      | repetition child min max => exact .other nofun
      | choice => exact .other nofun
  size := hdiffers.size.trans hdiffers'.size.symm
  tokens := hdiffers.tokens.trans hdiffers'.tokens.symm

theorem DiffersAt.trans {k : Grammar} (hgh : DiffersAt state g h) (hhk : DiffersAt state h k) :
    DiffersAt state g k where
  others id hid := (hhk.others id hid).trans (hgh.others id hid)
  size := hhk.size.trans hgh.size
  rules id rule hrule := hhk.rules id rule (hgh.rules id rule hrule)
  tokens := hhk.tokens.trans hgh.tokens
  root := hhk.root.trans hgh.root

theorem reruled_node (hnode : g.graph.node? state = some node) (rule : Rule) :
    (g.reruled state rule).graph.node? state =
      some { node with kind := .terminal (addRule rule g).1 } :=
  Graph.node?_edit_self _ hnode

theorem reruled_rule (g : Grammar) (state : StateId) (rule : Rule) :
    (g.reruled state rule).rules.get? (addRule rule g).1 = some rule :=
  addRule_get? rule g

theorem marked_node (hnode : g.graph.node? state = some node) (annotations : Annotations) :
    (g.marked state annotations).graph.node? state =
      some { node with annotations := node.annotations.merged annotations } :=
  Graph.node?_edit_self _ hnode

/-- Annotations may be added one after the other or merged before: all states are written the
same. -/
theorem annotate_twice (hg : g.Closed) {a b : Annotations}
    (hok : annotate state a g = (.ok ⟨⟩, h)) :
    ∃ twice once, annotate state b h = (.ok ⟨⟩, twice) ∧
      annotate state (a.merged b) g = (.ok ⟨⟩, once) ∧ ∀ id, twice.textOf id = once.textOf id := by
  cases annotated_of_annotate hok with
  | @terminal node ruleId rule hnode hkind hrule =>
    have hnode' := reruled_node hnode (rule.withAnnotations (rule.annotations.merged a))
    have hrule' := reruled_rule g state (rule.withAnnotations (rule.annotations.merged a))
    refine ⟨_, _, annotate_terminal hnode' rfl hrule' b, annotate_terminal hnode hkind hrule _,
      SameStates.textOf (sameStates_of_differsAt hg
        ((reruled_differsAt _ _ _).trans (reruled_differsAt _ _ _)) (reruled_differsAt _ _ _) ?_)⟩
    rw [Graph.node_eq_ok_iff.2 (reruled_node hnode' _),
      Graph.node_eq_ok_iff.2 (reruled_node hnode _)]
    -- the two rules have different numbers and say the same
    refine .ok (.terminal ?_)
    rw [RuleTable.get_eq_ok_iff.2 (reruled_rule _ _ _),
      RuleTable.get_eq_ok_iff.2 (reruled_rule _ _ _)]
    simp only [Rule.withAnnotations, Annotations.merged_assoc]
  | own hnode hkind =>
    have hnode' := marked_node hnode a
    refine ⟨_, _, annotate_own hnode' hkind b, annotate_own hnode hkind _,
      SameStates.textOf (sameStates_of_differsAt hg
        ((marked_differsAt _ _ _).trans (marked_differsAt _ _ _)) (marked_differsAt _ _ _) ?_)⟩
    rw [Graph.node_eq_ok_iff.2 (marked_node hnode' b),
      Graph.node_eq_ok_iff.2 (marked_node hnode (a.merged b))]
    simp only [Annotations.merged_assoc]
    exact .ok (.other hkind)

end Grammar

end Lexigraph
