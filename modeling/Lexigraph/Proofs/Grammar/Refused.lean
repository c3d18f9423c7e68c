/-
# Lexigraph.Proofs.Grammar.Refused -- what a call leaves that fails

A call that fails may leave new entries at the ends of the tables: a token name, the states of
whole patterns of a faulty text, or a choice with its first branches. All that was there stays as
it was, and so does the root, because calls look up what they name before they change anything.

A sequence looks up each pair of neighbours before it links the two, and not all pairs before the
first link. So one that fails keeps the links of the pairs before the first with an unknown state,
and nothing else is changed (`refused_leaves`).
-/

import Lexigraph.Proofs.Grammar.Append

namespace Lexigraph

namespace Attempt

variable {ε σ α β : Type}

/-! ## Failures that undo nothing -/

/-- An attempt that fails leaves the state as it was. -/
def Undone (x : Attempt ε σ α) : Prop := ∀ s e, (x s).1 = .error e → (x s).2 = s

/-- What never fails has nothing to undo. -/
theorem Undone.lift (m : StateM σ α) : Undone (liftM m : Attempt ε σ α) := fun _ _ he => nomatch he

theorem Undone.modify (change : σ → σ) : Undone (modify change : Attempt ε σ PUnit) :=
  fun _ _ he => nomatch he

theorem Undone.lift_bind_lift (m : StateM σ α) (f : α → StateM σ β) :
    Undone (liftM m >>= fun a => liftM (f a) : Attempt ε σ β) :=
  fun _ _ he => nomatch he

/-- To look before a change undoes nothing. -/
theorem Undone.ofExcept_bind {r : Except ε α} {f : α → Attempt ε σ β}
    (hf : ∀ a, r = .ok a → Undone (f a)) : Undone (ofExcept r >>= f) := by
  intro s e he
  rw [bind_apply, ofExcept_apply] at he ⊢
  cases r with
  | error e' => rfl
  | ok a => exact hf a rfl s e he

theorem Undone.get_bind {f : σ → Attempt ε σ β} (hf : ∀ s, Undone (f s)) : Undone (get >>= f) :=
  fun s e he => hf s s e he

end Attempt

open Attempt

/-! ## States of a graph -/

namespace Graph

variable {g g' : Graph} {id : StateId}

theorem require_bind_undone {α : Type} {f : Unit → Attempt GrammarError Graph α}
    (hf : Undone (f ⟨⟩)) : Undone (require id >>= f) := by
  intro g e he
  rw [bind_apply, require_apply] at he ⊢
  by_cases hid : id.index < g.size
  · rw [if_pos hid] at he ⊢
    exact hf g e he
  · rw [if_neg hid]

theorem update_undone (id : StateId) (f : Node → Node) : Undone (update id f) :=
  require_bind_undone (.lift _)

theorem link_undone (source target : StateId) : Undone (link source target) :=
  require_bind_undone (update_undone source _)

theorem setToken_undone (id : StateId) (token : Option TokenId) : Undone (setToken id token) :=
  update_undone id _

/-- A graph that has all states of another one has as many at least. -/
theorem Spares.size_le (h : Spares (fun _ => True) g g') : g.size ≤ g'.size := by
  by_contra hle
  have hlt : (⟨g'.size⟩ : StateId).index < g.size := Nat.lt_of_not_le hle
  obtain ⟨node, hnode⟩ := exists_node?_of_lt_size hlt
  have hthere := lt_size_of_node? (h ⟨g'.size⟩ node trivial hnode)
  exact Nat.lt_irrefl _ hthere

end Graph

namespace Grammar

variable {g g' g'' : Grammar} {α : Type}

/-! ## Calls that only add -/

theorem Extends.intern (h : Extends g g') (name : String) : Extends g (intern name g').2 :=
  h.trans (intern_extends name g')

theorem onGraph_extends {edit : Attempt GrammarError Graph α}
    (hedit : ∀ graph, Keeps (Graph.Spares (fun _ => True) graph) edit) (g : Grammar) :
    Extends g (onGraph edit g).2 := by
  have hspares : Graph.Spares (fun _ => True) g.graph (edit g.graph).2 :=
    (hedit g.graph g.graph fun _ _ _ hnode => hnode).2
  exact ⟨fun id node => hspares id node trivial, fun _ _ h => h, fun _ _ h => h,
    hspares.size_le, rfl⟩

theorem oneOf_extends (token : String) (choices : List String) (g : Grammar) :
    Extends g (oneOf token choices g).2 := by
  have hkeeps : Keeps (Extends g) (oneOf token choices) := by
    apply (Stays.lift fun h hh => hh.intern token).bind
    intro token
    apply Stays.ofExcept_bind fun _ _ => trivial
    intro rule _
    apply (Stays.lift fun h hh => hh.trans (addRule_extends rule h)).bind
    intro id
    exact .lift fun h hh => hh.trans (addNode_extends _ h)
  exact (hkeeps g (.refl g)).2

theorem terminal_extends (rule : RuleId) (g : Grammar) : Extends g (terminal rule g).2 := by
  have hkeeps : Keeps (Extends g) (terminal rule) :=
    .get_bind fun _ _ => .ofExcept_bind (fun _ _ => trivial) fun _ _ =>
      .lift fun h hh => hh.trans (addNode_extends _ h)
  exact (hkeeps g (.refl g)).2

/-! ## Calls that look first -/

theorem onGraph_undone {edit : Attempt GrammarError Graph α} (h : Undone edit) :
    Undone (onGraph edit) := by
  intro g e he
  have hgraph : (edit g.graph).2 = g.graph := h g.graph e he
  show { g with graph := (edit g.graph).2 } = g
  rw [hgraph]

theorem annotate_undone (state : StateId) (annotations : Annotations) :
    Undone (annotate state annotations) := by
  refine .get_bind fun g => .ofExcept_bind fun node _ => ?_
  rcases node with ⟨kind, token, own, branches⟩
  cases kind with
  | terminal id =>
    exact .get_bind fun g => .ofExcept_bind fun rule _ => .lift_bind_lift _ _
  | repetition child min max => exact .lift _
  | choice => exact .lift _

theorem setRoot_undone (state : StateId) : Undone (setRoot state) :=
  .get_bind fun _ => .ofExcept_bind fun _ _ => .modify _

/-- A token name is known from then on, also if there is no such state. -/
theorem retoken_extends {state : StateId} {token : Option String} {e : GrammarError}
    (h : (retoken state token g).1 = .error e) : Extends g (retoken state token g).2 := by
  have hset : ∀ id, Undone (onGraph (Graph.setToken state id)) := fun id =>
    onGraph_undone (Graph.setToken_undone state id)
  cases token with
  | none =>
    have hundone : (retoken state none g).2 = g := hset none g e h
    rw [hundone]
    exact .refl g
  | some name =>
    have hundone : (retoken state (some name) g).2 = (intern name g).2 :=
      hset (some (intern name g).1) (intern name g).2 e h
    rw [hundone]
    exact intern_extends name g

/-! ## Links -/

/-- Both states of a pair are there. -/
def Knows (g : Grammar) (pair : StateId × StateId) : Prop :=
  pair.1.index < g.graph.size ∧ pair.2.index < g.graph.size

/-- The states that pairs link a state to, in order. -/
def targets (pairs : List (StateId × StateId)) (id : StateId) : List StateId :=
  (pairs.filter (·.1 = id)).map (·.2)

/-- The second grammar is the first one with pairs of states linked, and nothing else. -/
structure Linked (g : Grammar) (pairs : List (StateId × StateId)) (g' : Grammar) : Prop where
  nodes : ∀ id, g'.graph.node? id =
    (g.graph.node? id).map fun node => { node with branches := node.branches ++ targets pairs id }
  size : g'.graph.size = g.graph.size
  rules : g'.rules = g.rules
  tokens : g'.tokens = g.tokens
  root : g'.root = g.root

theorem Linked.refl (g : Grammar) : Linked g [] g where
  nodes id := by simp [targets]
  size := rfl
  rules := rfl
  tokens := rfl
  root := rfl

theorem Linked.trans {pairs pairs' : List (StateId × StateId)} (h : Linked g pairs g')
    (h' : Linked g' pairs' g'') : Linked g (pairs ++ pairs') g'' where
  nodes id := by simp [h'.nodes, h.nodes, targets, Function.comp_def]
  size := h'.size.trans h.size
  rules := h'.rules.trans h.rules
  tokens := h'.tokens.trans h.tokens
  root := h'.root.trans h.root

theorem Linked.knows_iff {pairs : List (StateId × StateId)} (h : Linked g pairs g')
    (pair : StateId × StateId) : g'.Knows pair ↔ g.Knows pair := by
  unfold Knows
  rw [h.size]

/-- The graph with one state linked to another. -/
theorem linked_edit (pair : StateId × StateId) (g : Grammar) :
    Linked g [pair] { g with graph := (Graph.edit pair.1
      (fun n => { n with branches := n.branches ++ [pair.2] }) g.graph).2 } where
  nodes id := by
    by_cases hid : pair.1 = id
    · subst hid
      cases hnode : g.graph.node? pair.1 with
      | none =>
        have hmissing : ¬ pair.1.index < g.graph.size := by
          intro hlt
          obtain ⟨node, hfound⟩ := Graph.exists_node?_of_lt_size hlt
          cases hnode.symm.trans hfound
        cases hedited : (Graph.edit pair.1 _ g.graph).2.node? pair.1 with
        | none => rfl
        | some node =>
          have hlt := Graph.lt_size_of_node? hedited
          rw [Graph.size_edit] at hlt
          exact absurd hlt hmissing
      | some node =>
        rw [Graph.node?_edit_self _ hnode]
        simp [targets]
    · rw [Graph.node?_edit_of_ne _ hid]
      cases g.graph.node? id <;> simp [targets, hid]
  size := Graph.size_edit ..
  rules := rfl
  tokens := rfl
  root := rfl

/-- Two states are linked if both of them are there, and else nothing is changed. -/
theorem link_linked (pair : StateId × StateId) (g : Grammar) :
    (g.Knows pair ∧ ∃ g', link pair.1 pair.2 g = (.ok ⟨⟩, g') ∧ Linked g [pair] g') ∨
      (¬ g.Knows pair ∧ ∃ e, link pair.1 pair.2 g = (.error e, g)) := by
  have hlink : link pair.1 pair.2 g =
      ((Graph.link pair.1 pair.2 g.graph).1,
        { g with graph := (Graph.link pair.1 pair.2 g.graph).2 }) := rfl
  rw [hlink]
  unfold Graph.link Graph.update
  rw [bind_apply, Graph.require_apply]
  by_cases htarget : pair.2.index < g.graph.size
  · rw [if_pos htarget]
    simp only
    rw [bind_apply, Graph.require_apply]
    by_cases hsource : pair.1.index < g.graph.size
    · rw [if_pos hsource]
      exact .inl ⟨⟨hsource, htarget⟩, _, rfl, linked_edit pair g⟩
    · rw [if_neg hsource]
      exact .inr ⟨fun h => hsource h.1, _, rfl⟩
  · rw [if_neg htarget]
    exact .inr ⟨fun h => htarget h.2, _, rfl⟩

/-- Pairs are linked one after another up to the first with an unknown state. -/
def Broken (g : Grammar) (pairs : List (StateId × StateId)) (g' : Grammar) : Prop :=
  ∃ linked pair rest, pairs = linked ++ pair :: rest ∧ (∀ p ∈ linked, g.Knows p) ∧
    ¬ g.Knows pair ∧ Linked g linked g'

theorem forM_link_broken (pairs : List (StateId × StateId)) (g : Grammar) {e : GrammarError}
    {g' : Grammar}
    (h : (pairs.forM fun (source, target) => link source target) g = (.error e, g')) :
    Broken g pairs g' := by
  induction pairs generalizing g with
  | nil => cases h
  | cons pair pairs ih =>
    have hfirst : (link pair.1 pair.2 >>= fun _ =>
        pairs.forM fun (source, target) => link source target) g = (.error e, g') := h
    rw [bind_apply] at hfirst
    rcases link_linked pair g with ⟨hknown, g₁, hlink, hlinked⟩ | ⟨hunknown, e', hlink⟩
    · rw [hlink] at hfirst
      obtain ⟨linked, unknown, rest, rfl, hknows, hnot, hall⟩ := ih g₁ hfirst
      refine ⟨pair :: linked, unknown, rest, rfl, ?_, ?_, hlinked.trans hall⟩
      · simp only [hlinked.knows_iff] at hknows
        exact List.forall_mem_cons.2 ⟨hknown, hknows⟩
      · rwa [hlinked.knows_iff] at hnot
    · rw [hlink] at hfirst
      obtain ⟨-, rfl⟩ := Prod.mk.inj hfirst
      exact ⟨[], pair, pairs, rfl, by simp, hunknown, .refl g⟩

/-! ## Calls -/

/-- Does a call succeed? -/
def succeeds (g : Grammar) : Call → Bool
  | .intern _ | .addRule _ => true
  | .oneOf token choices => (oneOf token choices g).1.isOk
  | .terminal rule => (terminal rule g).1.isOk
  | .repetition child min max => (repetition child min max g).1.isOk
  | .choice branches => (choice branches g).1.isOk
  | .link source target => (link source target g).1.isOk
  | .sequence states => (sequence states g).1.isOk
  | .retoken state token => (retoken state token g).1.isOk
  | .annotate state annotations => (annotate state annotations g).1.isOk
  | .copy state => (copy state g).1.isOk
  | .read text => (read text g).1.isOk
  | .setRoot state => (setRoot state g).1.isOk

theorem exists_of_isOk_eq_false {ε : Type} {r : Except ε α} (h : r.isOk = false) :
    ∃ e, r = .error e := by
  cases r with
  | error e => exact ⟨e, rfl⟩
  | ok a => cases h

theorem extends_of_undone {x : GrammarEdit α} (hx : Undone x) (h : (x g).1.isOk = false) :
    Extends g (x g).2 := by
  obtain ⟨e, he⟩ := exists_of_isOk_eq_false h
  rw [hx g e he]
  exact .refl g

/-- A failed call other than a sequence leaves all that was there. -/
theorem extends_of_refused {call : Call} (hcall : ∀ ids, call ≠ .sequence ids)
    (h : g.succeeds call = false) : Extends g (g.after call) := by
  cases call with
  | intern name => exact intern_extends name g
  | addRule rule => exact addRule_extends rule g
  | oneOf token choices => exact oneOf_extends token choices g
  | terminal rule => exact terminal_extends rule g
  | repetition child min max =>
    exact onGraph_extends (fun _ => Graph.repetition_spares child min max) g
  | choice branches => exact onGraph_extends (fun _ => Graph.choice_spares branches) g
  | link source target => exact extends_of_undone (onGraph_undone (Graph.link_undone source target)) h
  | sequence ids => exact absurd rfl (hcall ids)
  | retoken state token =>
    obtain ⟨e, he⟩ := exists_of_isOk_eq_false h
    exact retoken_extends he
  | annotate state annotations => exact extends_of_undone (annotate_undone state annotations) h
  | copy state => exact onGraph_extends (fun _ => Graph.copy_spares state) g
  | read text => exact read_extends text g
  | setRoot state => exact extends_of_undone (setRoot_undone state) h

/-- A failed sequence has linked the pairs before the first with an unknown state. -/
theorem broken_of_refused {ids : List StateId} (h : g.succeeds (.sequence ids) = false) :
    Broken g (ids.zip ids.tail) (g.after (.sequence ids)) := by
  obtain ⟨e, he⟩ := exists_of_isOk_eq_false (r := (sequence ids g).1) h
  have hsequence : (((ids.zip ids.tail).forM fun (source, target) => link source target) >>=
      fun _ => pure ids.head?) g = (.error e, g.after (.sequence ids)) := Prod.ext he rfl
  rw [bind_apply] at hsequence
  rcases hlinks : ((ids.zip ids.tail).forM fun (source, target) => link source target) g with
    ⟨answer, g'⟩
  rw [hlinks] at hsequence
  cases answer with
  | ok => cases hsequence
  | error e' =>
    obtain ⟨-, rfl⟩ := Prod.mk.inj hsequence
    exact forM_link_broken _ g hlinks

/-- **A call that fails leaves all that was there, but for the links of a sequence.** Any other
call that fails leaves the states, the rules and the token names of the grammar under their
numbers as they were, and the root. A sequence that fails came to a pair of neighbours of which
one is unknown. Every state has been linked to the states that followed it in the pairs before that
one, and nothing else is changed. -/
theorem refused_leaves (g : Grammar) (call : Call) (h : g.succeeds call = false) :
    ((∀ ids, call ≠ .sequence ids) → Extends g (g.after call)) ∧
      ∀ ids, call = .sequence ids → Broken g (ids.zip ids.tail) (g.after call) := by
  refine ⟨fun hcall => extends_of_refused hcall h, ?_⟩
  rintro ids rfl
  exact broken_of_refused h

/-- Two letters. -/
def twoLetters : Grammar := empty.afterAll [.oneOf "a" ["a"], .oneOf "b" ["b"]]

theorem refused_leaves_twoLetters :
    Extends twoLetters (twoLetters.after (.link ⟨0⟩ ⟨9⟩)) ∧
      Broken twoLetters [(⟨0⟩, ⟨1⟩), (⟨1⟩, ⟨9⟩)]
        (twoLetters.after (.sequence [⟨0⟩, ⟨1⟩, ⟨9⟩])) := by
  have hlink : twoLetters.succeeds (.link ⟨0⟩ ⟨9⟩) = false := by decide +kernel
  have hsequence : twoLetters.succeeds (.sequence [⟨0⟩, ⟨1⟩, ⟨9⟩]) = false := by decide +kernel
  exact ⟨(refused_leaves _ _ hlink).1 nofun, (refused_leaves _ _ hsequence).2 _ rfl⟩

/-- The first letter goes on with the second, although the call fails. -/
theorem sequence_refused_twoLetters :
    Built twoLetters ∧ twoLetters.succeeds (.sequence [⟨0⟩, ⟨1⟩, ⟨9⟩]) = false ∧
      twoLetters.graph.node? ⟨0⟩ = some { kind := .terminal ⟨0⟩ } ∧
      (twoLetters.after (.sequence [⟨0⟩, ⟨1⟩, ⟨9⟩])).graph.node? ⟨0⟩ =
        some { kind := .terminal ⟨0⟩, branches := [⟨1⟩] } :=
  ⟨Built.empty.afterAll _, by decide +kernel, by decide +kernel, by decide +kernel⟩

end Grammar

end Lexigraph
