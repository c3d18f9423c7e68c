/-
# Lexigraph.Proofs.Grammar.Tree -- a text is read as a tree

A grammar that was read from a text has a state for each node of the tree that the text says,
and no other state: its root depicts the tree, every state is reached from the root, and there
are as many states as nodes (`ofPattern_isTree`). So no state is shared.
-/

import Lexigraph.Proofs.Grammar.Canonical

namespace Lexigraph

/-! ## How many nodes a pattern has -/

namespace Pattern

mutual

/-- How many patterns there are in a pattern, itself included. -/
def count (p : Pattern) : Nat :=
  match p with
  | .terminal _ _ _ branches => countAll branches + 1
  | .repetition _ child _ _ _ branches => count child + countAll branches + 1
  | .choice _ _ branches => countAll branches + 1

/-- How many patterns there are in some patterns. -/
def countAll (ps : List Pattern) : Nat :=
  match ps with
  | [] => 0
  | p :: ps => count p + countAll ps

end

end Pattern

namespace Grammar

/-- The grammar is a tree and nothing else: it starts from the state of the tree, reaches each of
its states from there, and has as many of them as the tree has nodes. -/
structure IsTree (g : Grammar) (root : StateId) (p : Pattern) : Prop where
  starts : g.root = some root
  depicts : g.Depicts root p
  reached : ∀ id, id.index < g.graph.size → g.graph.Reaches root id
  size : g.graph.size = p.count

/-! ## What is added is reached -/

/-- What was added to `g` to get `g'` is reached from some of the states. -/
def Covers (g : Grammar) (ids : List StateId) (g' : Grammar) : Prop :=
  ∀ j, IsNew g g' j → ∃ i ∈ ids, g'.graph.Reaches i j

variable {g g' g'' g₀ : Grammar} {i j : StateId}

theorem Extends.reaches (h : Extends g g') (hij : g.graph.Reaches i j) :
    g'.graph.Reaches i j := by
  refine Relation.ReflTransGen.mono ?_ _ _ hij
  rintro k l ⟨node, hnode, hl⟩
  exact ⟨node, h.nodes k node hnode, hl⟩

theorem covers_nil (g : Grammar) : Covers g [] g :=
  fun _ hj => absurd hj.2 (Nat.not_lt.2 hj.1)

theorem Covers.cons {id : StateId} {ids : List StateId} (h : Covers g [id] g')
    (hextends : Extends g' g'') (h' : Covers g' ids g'') : Covers g (id :: ids) g'' := by
  intro j hj
  rcases hj.left_or_right g' with hj | hj
  · obtain ⟨i, hi, hij⟩ := h j hj
    exact ⟨i, List.mem_cons.2 (.inl (List.mem_singleton.1 hi)), hextends.reaches hij⟩
  · obtain ⟨i, hi, hij⟩ := h' j hj
    exact ⟨i, List.mem_cons_of_mem _ hi, hij⟩

section Node

variable {node : Node} {ids : List StateId}

/-- A state without branches names what it named also when it gets some. -/
theorem withBranches_reaches (hnode : node.branches = []) (h : Extends (addNode node g).2 g')
    (ids : List StateId) (hij : g'.graph.Reaches i j) :
    (withBranches (addNode node g).1 ids g').graph.Reaches i j := by
  refine Relation.ReflTransGen.mono ?_ _ _ hij
  rintro k l ⟨n, hn, hl⟩
  by_cases hk : k = (addNode node g).1
  · subst hk
    have hadded := h.nodes _ _ (Graph.node?_alloc_self node g.graph)
    obtain rfl : node = n := Option.some.inj (hadded.symm.trans hn)
    refine ⟨_, node_withBranches h ids, List.mem_append_left _ ?_⟩
    have hl : l ∈ node.child?.toList ++ node.branches := hl
    rwa [hnode, List.append_nil] at hl
  · refine ⟨n, ?_, hl⟩
    rw [withBranches_node?_of_ne hk]
    exact hn

theorem withBranches_covers (hnode : node.branches = [])
    (hchild : ∀ i, IsNew g₀ g i → ∃ c ∈ node.child?, g.graph.Reaches c i)
    (h : Extends (addNode node g).2 g') (hids : Covers (addNode node g).2 ids g') :
    Covers g₀ [(addNode node g).1] (withBranches (addNode node g).1 ids g') := by
  intro j hj
  refine ⟨_, List.mem_singleton.2 rfl, ?_⟩
  have hself := node_withBranches h ids
  rcases isNew_withBranches_cases hj with rfl | hold | hbranch
  · exact .refl
  · obtain ⟨c, hc, hreach⟩ := hchild j hold
    have hname : c ∈ ({ node with branches := ids } : Node).successors :=
      List.mem_append_left _ (Option.mem_toList.2 hc)
    have hgrown := ((addNode_extends node g).trans h).reaches hreach
    exact .head ⟨_, hself, hname⟩ (withBranches_reaches hnode h ids hgrown)
  · obtain ⟨b, hb, hreach⟩ := hids j hbranch
    have hname : b ∈ ({ node with branches := ids } : Node).successors :=
      Node.branch_mem_successors hb
    exact .head ⟨_, hself, hname⟩ (withBranches_reaches hnode h ids hreach)

end Node

end Grammar

namespace Pattern

open Grammar

/-- A state is added, then its branches, which it then gets. -/
def sprout (node : Node) (ps : List Pattern) (g : Grammar) : StateId × Grammar :=
  let planted := plantAll ps (addNode node g).2
  ((addNode node g).1, Grammar.withBranches (addNode node g).1 planted.1 planted.2)

/-- To plant a pattern is to plant its child if it has one, and then to add its state. -/
theorem plant_eq_sprout (p : Pattern) (g : Grammar) :
    ∃ (g₁ : Grammar) (node : Node), node.branches = [] ∧ p.plant g = sprout node p.branches g₁ ∧
      match p with
      | .repetition _ child .. =>
        node.child? = some (child.plant g).1 ∧ g₁.graph = (child.plant g).2.graph
      | _ => node.child? = none ∧ g₁.graph = g.graph := by
  cases p with
  | terminal annotations choices token branches =>
    let g₁ := (intern token g).2
    let rule : Rule := { token := (intern token g).1, choices, annotations }
    refine ⟨(addRule rule g₁).2, { kind := .terminal (addRule rule g₁).1 }, rfl, ?_, rfl, rfl⟩
    exact plantBranches_apply _ [] branches _
  | repetition annotations child min max token branches =>
    obtain ⟨-, -, hgraph⟩ := mapM_intern token (child.plant g).2
    refine ⟨(token.mapM intern (child.plant g).2).2,
      { kind := .repetition (child.plant g).1 min max,
        token := (token.mapM intern (child.plant g).2).1, annotations }, rfl, ?_, rfl, hgraph⟩
    rw [plant]
    exact plantBranches_apply _ [] branches _
  | choice annotations token branches =>
    obtain ⟨-, -, hgraph⟩ := mapM_intern token g
    refine ⟨(token.mapM intern g).2,
      { kind := .choice, token := (token.mapM intern g).1, annotations }, rfl, ?_, rfl, hgraph⟩
    exact plantBranches_apply _ [] branches _

theorem sprout_size (node : Node) (ps : List Pattern) (g : Grammar) :
    (sprout node ps g).2.graph.size = (plantAll ps (addNode node g).2).2.graph.size :=
  withBranches_size _ _ _

mutual

/-- All that is planted is reached from the state of the pattern. -/
theorem plant_covers (p : Pattern) (g : Grammar) : Covers g [(p.plant g).1] (p.plant g).2 := by
  obtain ⟨g₁, node, hnode, happly, hkind⟩ := plant_eq_sprout p g
  have hextends := (plantAll_sprouts p.branches (addNode node g₁).2).toExtends
  rw [happly]
  refine withBranches_covers hnode (fun i hi => ?_) hextends ?_
  · match p with
    | .terminal .. | .choice .. =>
      obtain ⟨-, hgraph⟩ := hkind
      exact absurd hi.2 (by rw [hgraph]; exact Nat.not_lt.2 hi.1)
    | .repetition _ child .. =>
      obtain ⟨hchild, hgraph⟩ := hkind
      have hi : IsNew g (child.plant g).2 i := ⟨hi.1, hgraph ▸ hi.2⟩
      obtain ⟨c, hc, hreach⟩ := plant_covers child g i hi
      rw [List.mem_singleton.1 hc] at hreach
      exact ⟨_, hchild, hgraph ▸ hreach⟩
  · match p with
    | .terminal _ _ _ branches | .repetition _ _ _ _ _ branches | .choice _ _ branches =>
      exact plantAll_covers branches _

theorem plantAll_covers (ps : List Pattern) (g : Grammar) :
    Covers g (plantAll ps g).1 (plantAll ps g).2 := by
  match ps with
  | [] => exact covers_nil g
  | p :: ps =>
    rw [plantAll_cons]
    exact (plant_covers p g).cons (plantAll_sprouts ps (p.plant g).2).toExtends
      (plantAll_covers ps (p.plant g).2)

end

mutual

/-- As many states are planted as there are patterns. -/
theorem plant_size (p : Pattern) (g : Grammar) :
    (p.plant g).2.graph.size = g.graph.size + p.count := by
  obtain ⟨g₁, node, -, happly, hkind⟩ := plant_eq_sprout p g
  rw [happly, sprout_size]
  match p with
  | .terminal _ _ _ branches | .choice _ _ branches =>
    have hsize := plantAll_size branches (addNode node g₁).2
    rw [addNode_size, hkind.2] at hsize
    rw [count]
    exact hsize.trans (by omega)
  | .repetition _ child _ _ _ branches =>
    have hsize := plantAll_size branches (addNode node g₁).2
    rw [addNode_size, hkind.2, plant_size child g] at hsize
    rw [count]
    exact hsize.trans (by omega)

theorem plantAll_size (ps : List Pattern) (g : Grammar) :
    (plantAll ps g).2.graph.size = g.graph.size + countAll ps := by
  match ps with
  | [] => rfl
  | p :: ps =>
    rw [plantAll_cons, countAll, plantAll_size ps (p.plant g).2, plant_size p g]
    omega

end

end Pattern

namespace Grammar

/-- **The grammar of a pattern is its tree.** -/
theorem ofPattern_isTree (p : Pattern) : (ofPattern p).IsTree (p.plant empty).1 p where
  starts := rfl
  depicts := ofPattern_depicts p
  reached id hid := by
    obtain ⟨i, hi, hreach⟩ := p.plant_covers empty id ⟨Nat.zero_le _, hid⟩
    rwa [List.mem_singleton.1 hi] at hreach
  size := (p.plant_size empty).trans (Nat.zero_add _)

end Grammar

end Lexigraph
