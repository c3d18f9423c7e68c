/-
# Lexigraph.Proofs.Grammar.Mirror -- states that are found again elsewhere

`Mirrors states f g h` says that some states of `g`, with all that they name, are found again in
`h`: state `id` is there as `f id`, made the same out of what it names. What there is besides in
either of the grammars is of no account. This is what a copy has in common with its original,
and what a state keeps when a grammar changes somewhere else.

Unfolding a state and its image comes to the same pattern or to the same error, with the states
in it renamed (`Mirrors.unfold`). There is one way out: a token that is not known in `g` may be
known in `h`, and then only the first one fails.
-/

import Mathlib.Data.Set.Function
import Lexigraph.Proofs.Grammar.Depicts
import Lexigraph.Proofs.Graph.Closed
import Lexigraph.Proofs.Graph.Walk

namespace Lexigraph

/-- The same error of states with other numbers. -/
def GrammarError.rename (f : StateId → StateId) : GrammarError → GrammarError
  | .unknownState id => .unknownState (f id)
  | .cyclic id => .cyclic (f id)
  | e => e

theorem GrammarError.rename_id (e : GrammarError) : e.rename id = e := by
  cases e <;> rfl

theorem Node.rename_id (n : Node) : n.rename id = n := by
  rcases n with ⟨kind, token, annotations, branches⟩
  cases kind <;> simp [Node.rename]

namespace Grammar

/-- Some states of `g` are found again in `h`, renamed by `f`. -/
structure Mirrors (states : StateId → Prop) (f : StateId → StateId) (g h : Grammar) : Prop where
  closed : g.ClosedUnder states
  there : ∀ id, states id → ∃ node, g.graph.node? id = some node
  nodes : ∀ id node, states id → g.graph.node? id = some node →
    h.graph.node? (f id) = some (node.rename f)
  rules : ∀ id node rule, states id → g.graph.node? id = some node →
    node.kind = .terminal rule → h.rules.get? rule = g.rules.get? rule
  tokens : ∀ id name, g.Calls id name → h.Calls id name
  injOn : Set.InjOn f {id | states id}

variable {g h : Grammar} {f : StateId → StateId} {states : StateId → Prop} {α β : Type}

/-! ## Answers -/

/-- The second answer is the first one with the states of an error renamed, unless the first is
for want of a token that `h` knows. -/
inductive Retells (g h : Grammar) (f : StateId → StateId) :
    Except GrammarError α → Except GrammarError α → Prop
  | same (x : Except GrammarError α) : Retells g h f x (x.mapError (.rename f))
  | learnt {id : TokenId} {name : String} {y : Except GrammarError α}
      (unknown : g.tokens.name? id = none) (known : h.Calls id name) :
      Retells g h f (.error (.unknownToken id)) y

theorem Retells.ok (a : α) : Retells g h f (.ok a) (.ok a) := .same _

theorem Retells.bind {x y : Except GrammarError α} {k k' : α → Except GrammarError β}
    (hxy : Retells g h f x y) (hk : ∀ a, x = .ok a → Retells g h f (k a) (k' a)) :
    Retells g h f (x >>= k) (y >>= k') := by
  cases hxy with
  | learnt unknown known => exact .learnt unknown known
  | same =>
    cases x with
    | error e => exact .same (.error e)
    | ok a => exact hk a rfl

theorem Retells.mapM {k k' : StateId → Except GrammarError α} {ids : List StateId}
    (hk : ∀ id ∈ ids, Retells g h f (k id) (k' (f id))) :
    Retells g h f (ids.mapM k) ((ids.map f).mapM k') := by
  induction ids with
  | nil => exact .ok []
  | cons id ids ih =>
    rw [List.forall_mem_cons] at hk
    rw [List.map_cons, List.mapM_cons, List.mapM_cons]
    apply hk.1.bind
    intro a _
    apply (ih hk.2).bind
    intro as _
    exact .ok (a :: as)

theorem Retells.rule {id : RuleId} (hrule : h.rules.get? id = g.rules.get? id) :
    Retells g h f (g.rules.get id) (h.rules.get id) := by
  unfold RuleTable.get
  rw [hrule]
  cases g.rules.get? id with
  | none => exact .same (.error (.unknownRule id))
  | some rule => exact .ok rule

/-! ## Patterns and texts -/

namespace Mirrors

theorem tokenName (hm : Mirrors states f g h) (id : TokenId) :
    Retells g h f (g.tokenName id) (h.tokenName id) := by
  unfold Grammar.tokenName
  cases hname : g.tokens.name? id with
  | some name =>
    rw [show h.tokens.name? id = some name from hm.tokens id name hname]
    exact .ok name
  | none =>
    cases hname' : h.tokens.name? id with
    | some name => exact .learnt hname hname'
    | none => exact .same (.error (.unknownToken id))

theorem optionTokenName (hm : Mirrors states f g h) (id : Option TokenId) :
    Retells g h f (id.mapM g.tokenName) (id.mapM h.tokenName) := by
  cases id with
  | none => exact .ok none
  | some id => exact (hm.tokenName id).bind fun name _ => .ok (some name)

/-- A state is on a path exactly if its image is on the image of the path. -/
theorem contains_map (hm : Mirrors states f g h) {path : List StateId} {id : StateId}
    (hid : states id) (hpath : ∀ i ∈ path, states i) :
    (path.map f).contains (f id) = path.contains id := by
  rw [Bool.eq_iff_iff, List.contains_iff_mem, List.contains_iff_mem, List.mem_map]
  constructor
  · rintro ⟨i, hi, heq⟩
    rwa [← hm.injOn (hpath i hi) hid heq]
  · intro hmem
    exact ⟨id, hmem, rfl⟩

/-- Neither graph has fewer states than there are in a path without repetition. -/
theorem length_le (hm : Mirrors states f g h) {path : List StateId} (hnodup : path.Nodup)
    (hpath : ∀ i ∈ path, states i) : path.length ≤ min g.graph.size h.graph.size := by
  apply Nat.le_min.2
  constructor
  · apply Graph.length_le_size hnodup
    intro i hi
    obtain ⟨node, hnode⟩ := hm.there i (hpath i hi)
    exact Graph.lt_size_of_node? hnode
  · rw [← List.length_map f]
    apply Graph.length_le_size (hnodup.map_on fun i hi j hj => hm.injOn (hpath i hi) (hpath j hj))
    intro j hj
    obtain ⟨i, hi, rfl⟩ := List.mem_map.1 hj
    obtain ⟨node, hnode⟩ := hm.there i (hpath i hi)
    exact Graph.lt_size_of_node? (hm.nodes i node (hpath i hi) hnode)

/-- The two paths stay images of one another, and as long as both are without repetition neither
fuel is used up. -/
theorem unfoldFrom (hm : Mirrors states f g h) {fuel fuel' : Nat} {path : List StateId}
    {id : StateId} (hid : states id) (hpath : ∀ i ∈ path, states i) (hnodup : path.Nodup)
    (hfuel : min g.graph.size h.graph.size < fuel + path.length)
    (hfuel' : min g.graph.size h.graph.size < fuel' + path.length) :
    Retells g h f (g.unfoldFrom fuel path id) (h.unfoldFrom fuel' (path.map f) (f id)) := by
  have hlength := hm.length_le hnodup hpath
  induction fuel generalizing fuel' path id with
  | zero => omega
  | succ fuel ih =>
    obtain ⟨fuel', rfl⟩ : ∃ n, fuel' = n + 1 := Nat.exists_eq_succ_of_ne_zero (by omega)
    rw [Grammar.unfoldFrom, Grammar.unfoldFrom, hm.contains_map hid hpath]
    by_cases hmet : path.contains id = true
    · rw [if_pos hmet, if_pos hmet]
      exact .same (.error (.cyclic id))
    rw [if_neg hmet, if_neg hmet]
    obtain ⟨node, hnode⟩ := hm.there id hid
    unfold unfoldNode
    rw [Graph.node_eq_ok_iff.2 hnode, Graph.node_eq_ok_iff.2 (hm.nodes id node hid hnode)]
    have hbelow : ∀ j ∈ node.successors, Retells g h f (g.unfoldFrom fuel (id :: path) j)
        (h.unfoldFrom fuel' ((id :: path).map f) (f j)) := by
      intro j hj
      have hpath' : ∀ i ∈ id :: path, states i := List.forall_mem_cons.2 ⟨hid, hpath⟩
      have hnodup' : (id :: path).Nodup :=
        List.nodup_cons.2 ⟨fun hmem => hmet (List.contains_iff_mem.2 hmem), hnodup⟩
      apply ih (hm.closed id node hid hnode j hj) hpath' hnodup'
      · rw [List.length_cons]
        omega
      · rw [List.length_cons]
        omega
      · exact hm.length_le hnodup' hpath'
    have hbranches : Retells g h f (node.branches.mapM (g.unfoldFrom fuel (id :: path)))
        ((node.branches.map f).mapM (h.unfoldFrom fuel' ((id :: path).map f))) :=
      Retells.mapM fun j hj => hbelow j (Node.branch_mem_successors hj)
    have hrules := hm.rules id node
    rcases node with ⟨kind, token, annotations, branches⟩
    cases kind with
    | terminal rule =>
      apply (Retells.rule (hrules rule hid hnode rfl)).bind
      intro rule _
      apply (hm.tokenName _).bind
      intro name _
      exact hbranches.bind fun _ _ => .ok _
    | repetition child min max =>
      apply (hbelow child (Node.child_mem_successors rfl)).bind
      intro child _
      apply (hm.optionTokenName token).bind
      intro name _
      exact hbranches.bind fun _ _ => .ok _
    | choice =>
      apply (hm.optionTokenName token).bind
      intro name _
      exact hbranches.bind fun _ _ => .ok _

/-- **Unfolding a state and its image** comes to the same. -/
theorem unfold (hm : Mirrors states f g h) {id : StateId} (hid : states id) :
    Retells g h f (g.unfold id) (h.unfold (f id)) := by
  apply hm.unfoldFrom hid (List.forall_mem_nil _) .nil
  · show min g.graph.size h.graph.size < g.graph.size + 1
    omega
  · show min g.graph.size h.graph.size < h.graph.size + 1
    omega

theorem textOf (hm : Mirrors states f g h) {id : StateId} (hid : states id) :
    Retells g h f (g.textOf id) (h.textOf (f id)) :=
  (hm.unfold hid).bind fun _ _ => .ok _

end Mirrors

end Grammar

end Lexigraph
