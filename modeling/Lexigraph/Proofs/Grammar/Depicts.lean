/-
# Lexigraph.Proofs.Grammar.Depicts -- the tree that a state unfolds to

`Depicts g id p` says that state `id`, with all that it reaches, is what the pattern `p`
writes out: the same kinds, literals, bounds and annotations, tokens by their names, and
branches in order. A state depicts one pattern at most, and a state that a pattern mentions
depicts a smaller one, so no state on the way down comes up again below itself. Hence
unfolding finds the pattern of every state that depicts one (`unfold_eq_ok_iff`).

What a state depicts depends on no other states than those it reaches, so it is the same in
a grammar that agrees on them (`Depicts.transfer`).
-/

import Mathlib.Data.List.Forall2
import Lexigraph.Grammar.Text
import Lexigraph.Proofs.Graph.Reach

namespace Lexigraph

namespace Grammar

/-- Token `id` has the name. -/
def Calls (g : Grammar) (id : TokenId) (name : String) : Prop := g.tokens.name? id = some name

mutual

/-- State `id`, with all that it reaches, is what a pattern writes out. -/
inductive Depicts (g : Grammar) : StateId → Pattern → Prop
  | terminal {id : StateId} {node : Node} {ruleId : RuleId} {rule : Rule}
      {annotations : Annotations} {choices : Literals} {token : String} {branches : List Pattern}
      (hnode : g.graph.node? id = some node) (hkind : node.kind = .terminal ruleId)
      (hrule : g.rules.get? ruleId = some rule) (hplain : node.annotations = {})
      (hannotations : rule.annotations = annotations) (hchoices : rule.choices = choices)
      (htoken : g.Calls (node.token.getD rule.token) token)
      (hbranches : DepictsAll g node.branches branches) :
      Depicts g id (.terminal annotations choices token branches)
  | repetition {id : StateId} {node : Node} {childId : StateId} {annotations : Annotations}
      {child : Pattern} {min : UInt32} {max : Option UInt32} {token : Option String}
      {branches : List Pattern}
      (hnode : g.graph.node? id = some node) (hkind : node.kind = .repetition childId min max)
      (hannotations : node.annotations = annotations) (hchild : Depicts g childId child)
      (htoken : Option.Rel g.Calls node.token token)
      (hbranches : DepictsAll g node.branches branches) :
      Depicts g id (.repetition annotations child min max token branches)
  | choice {id : StateId} {node : Node} {annotations : Annotations} {token : Option String}
      {branches : List Pattern}
      (hnode : g.graph.node? id = some node) (hkind : node.kind = .choice)
      (hannotations : node.annotations = annotations)
      (htoken : Option.Rel g.Calls node.token token)
      (hbranches : DepictsAll g node.branches branches) :
      Depicts g id (.choice annotations token branches)

/-- States depict patterns, each its own. -/
inductive DepictsAll (g : Grammar) : List StateId → List Pattern → Prop
  | nil : DepictsAll g [] []
  | cons {id : StateId} {ids : List StateId} {p : Pattern} {ps : List Pattern}
      (head : Depicts g id p) (tail : DepictsAll g ids ps) : DepictsAll g (id :: ids) (p :: ps)

end

theorem depictsAll_iff {g : Grammar} {ids : List StateId} {ps : List Pattern} :
    g.DepictsAll ids ps ↔ List.Forall₂ g.Depicts ids ps := by
  constructor
  · intro h
    induction ids generalizing ps with
    | nil =>
      cases h
      exact .nil
    | cons id ids ih =>
      cases h with
      | cons head tail => exact .cons head (ih tail)
  · intro h
    induction h with
    | nil => exact .nil
    | cons head _ ih => exact .cons head ih

theorem exists_of_forall₂ {α β : Type} {rel : α → β → Prop} {as : List α} {bs : List β}
    (h : List.Forall₂ rel as bs) {a : α} (ha : a ∈ as) : ∃ b ∈ bs, rel a b := by
  induction h with
  | nil => cases ha
  | cons hab _ ih =>
    rcases List.mem_cons.1 ha with rfl | ha
    · exact ⟨_, List.mem_cons_self, hab⟩
    · obtain ⟨b, hb, hrel⟩ := ih ha
      exact ⟨b, List.mem_cons_of_mem _ hb, hrel⟩

theorem DepictsAll.exists_pattern {g : Grammar} {ids : List StateId} {ps : List Pattern}
    (h : g.DepictsAll ids ps) {id : StateId} (hid : id ∈ ids) : ∃ p ∈ ps, g.Depicts id p :=
  exists_of_forall₂ (depictsAll_iff.1 h) hid

theorem DepictsAll.exists_state {g : Grammar} {ids : List StateId} {ps : List Pattern}
    (h : g.DepictsAll ids ps) {p : Pattern} (hp : p ∈ ps) : ∃ id ∈ ids, g.Depicts id p :=
  exists_of_forall₂ (depictsAll_iff.1 h).flip hp

/-! ## One pattern at most -/

theorem Calls.unique {g : Grammar} {id : TokenId} {name name' : String} (h : g.Calls id name)
    (h' : g.Calls id name') : name = name' :=
  Option.some.inj (h.symm.trans h')

theorem optionCalls_unique {g : Grammar} {id : Option TokenId} {name name' : Option String}
    (h : Option.Rel g.Calls id name) (h' : Option.Rel g.Calls id name') : name = name' := by
  cases h with
  | none =>
    cases h'
    rfl
  | some h =>
    cases h' with
    | some h' => rw [h.unique h']

/-- The number of a state tells its node, and its kind tells the rule or the child. -/
theorem kind_unique {g : Grammar} {id : StateId} {node node' : Node} {kind kind' : NodeKind}
    (hnode : g.graph.node? id = some node) (hkind : node.kind = kind)
    (hnode' : g.graph.node? id = some node') (hkind' : node'.kind = kind') :
    node = node' ∧ kind = kind' := by
  obtain rfl : node = node' := Option.some.inj (hnode.symm.trans hnode')
  exact ⟨rfl, hkind.symm.trans hkind'⟩

mutual

theorem Depicts.unique {g : Grammar} {id : StateId} {p q : Pattern} (h : g.Depicts id p)
    (h' : g.Depicts id q) : p = q := by
  match h with
  | .terminal hnode hkind hrule _ ha hc htoken hbranches =>
    cases h' with
    | terminal hnode' hkind' hrule' _ ha' hc' htoken' hbranches' =>
      obtain ⟨rfl, hsame⟩ := kind_unique hnode hkind hnode' hkind'
      cases hsame
      obtain rfl := Option.some.inj (hrule.symm.trans hrule')
      rw [← ha, ← hc, ← ha', ← hc', htoken.unique htoken', hbranches.unique hbranches']
    | repetition hnode' hkind' => nomatch (kind_unique hnode hkind hnode' hkind').2
    | choice hnode' hkind' => nomatch (kind_unique hnode hkind hnode' hkind').2
  | .repetition hnode hkind ha hchild htoken hbranches =>
    cases h' with
    | terminal hnode' hkind' => nomatch (kind_unique hnode hkind hnode' hkind').2
    | repetition hnode' hkind' ha' hchild' htoken' hbranches' =>
      obtain ⟨rfl, hsame⟩ := kind_unique hnode hkind hnode' hkind'
      cases hsame
      rw [← ha, ← ha', hchild.unique hchild', optionCalls_unique htoken htoken',
        hbranches.unique hbranches']
    | choice hnode' hkind' => nomatch (kind_unique hnode hkind hnode' hkind').2
  | .choice hnode hkind ha htoken hbranches =>
    cases h' with
    | terminal hnode' hkind' => nomatch (kind_unique hnode hkind hnode' hkind').2
    | repetition hnode' hkind' => nomatch (kind_unique hnode hkind hnode' hkind').2
    | choice hnode' hkind' ha' htoken' hbranches' =>
      obtain ⟨rfl, -⟩ := kind_unique hnode hkind hnode' hkind'
      rw [← ha, ← ha', optionCalls_unique htoken htoken', hbranches.unique hbranches']

theorem DepictsAll.unique {g : Grammar} {ids : List StateId} {ps qs : List Pattern}
    (h : g.DepictsAll ids ps) (h' : g.DepictsAll ids qs) : ps = qs := by
  match h, h' with
  | .nil, .nil => rfl
  | .cons h hs, .cons h' hs' => rw [h.unique h', hs.unique hs']

end

/-! ## The states that count -/

/-- Grammars that agree on some states, on the rules and on the names of tokens. -/
structure AgreesOn (states : StateId → Prop) (g g' : Grammar) : Prop where
  nodes : ∀ id node, states id → g.graph.node? id = some node → g'.graph.node? id = some node
  rules : ∀ id rule, g.rules.get? id = some rule → g'.rules.get? id = some rule
  tokens : ∀ id name, g.Calls id name → g'.Calls id name

/-- The states that some states of a set name are in the set. -/
def ClosedUnder (g : Grammar) (states : StateId → Prop) : Prop :=
  ∀ id node, states id → g.graph.node? id = some node → ∀ j ∈ node.successors, states j

theorem optionCalls_mono {g g' : Grammar} (h : ∀ id name, g.Calls id name → g'.Calls id name)
    {id : Option TokenId} {name : Option String} (hid : Option.Rel g.Calls id name) :
    Option.Rel g'.Calls id name := by
  cases hid with
  | none => exact .none
  | some hid => exact .some (h _ _ hid)

mutual

/-- A state depicts the same in a grammar that agrees on all the states it reaches. -/
theorem Depicts.transfer {states : StateId → Prop} {g g' : Grammar}
    (hagree : AgreesOn states g g') (hclosed : g.ClosedUnder states) {id : StateId} {p : Pattern}
    (hid : states id) (h : g.Depicts id p) : g'.Depicts id p := by
  match h with
  | .terminal hnode hkind hrule hplain ha hc htoken hbranches =>
    have hids := hclosed id _ hid hnode
    exact .terminal (hagree.nodes _ _ hid hnode) hkind (hagree.rules _ _ hrule) hplain ha hc
      (hagree.tokens _ _ htoken)
      (hbranches.transfer hagree hclosed fun j hj => hids j (Node.branch_mem_successors hj))
  | .repetition hnode hkind ha hchild htoken hbranches =>
    have hids := hclosed id _ hid hnode
    have htoken' := optionCalls_mono hagree.tokens htoken
    exact .repetition (hagree.nodes _ _ hid hnode) hkind ha
      (hchild.transfer hagree hclosed (hids _ (Node.child_mem_successors hkind))) htoken'
      (hbranches.transfer hagree hclosed fun j hj => hids j (Node.branch_mem_successors hj))
  | .choice hnode hkind ha htoken hbranches =>
    have hids := hclosed id _ hid hnode
    exact .choice (hagree.nodes _ _ hid hnode) hkind ha (optionCalls_mono hagree.tokens htoken)
      (hbranches.transfer hagree hclosed fun j hj => hids j (Node.branch_mem_successors hj))

theorem DepictsAll.transfer {states : StateId → Prop} {g g' : Grammar}
    (hagree : AgreesOn states g g') (hclosed : g.ClosedUnder states) {ids : List StateId}
    {ps : List Pattern} (hids : ∀ id ∈ ids, states id) (h : g.DepictsAll ids ps) :
    g'.DepictsAll ids ps := by
  match h with
  | .nil => exact .nil
  | .cons h hs =>
    exact .cons (h.transfer hagree hclosed (hids _ List.mem_cons_self))
      (hs.transfer hagree hclosed fun j hj => hids j (List.mem_cons_of_mem _ hj))

end

/-- The state that a grammar starts from does not matter for what states depict. -/
theorem Depicts.withRoot {g : Grammar} {id : StateId} {p : Pattern} (h : g.Depicts id p)
    (root : Option StateId) : { g with root }.Depicts id p := by
  have hagree : AgreesOn (fun _ => True) g { g with root } :=
    ⟨fun _ _ _ hnode => hnode, fun _ _ hrule => hrule, fun _ _ htoken => htoken⟩
  exact h.transfer hagree (fun _ _ _ _ _ _ => trivial) trivial

end Grammar

end Lexigraph
