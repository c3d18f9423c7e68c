/-
# Lexigraph.Proofs.Grammar.Plant -- what is planted stands for its pattern

To plant a pattern is to add its states without asking whether what they name is there, and to
give a state all its branches at once. It leaves all that was there as it was: states, rules and
token names keep their numbers. The state that it answers depicts the pattern, and the new
states name only new states, so it makes no difference what the pattern was planted into
(`plant_sprouts`). Nor is there a new state that depicts no pattern.
-/

import Lexigraph.Proofs.Grammar.Depicts
import Lexigraph.Proofs.Graph.Edit
import Lexigraph.Proofs.Token.Table

namespace Lexigraph

namespace Grammar

/-! ## Growing -/

/-- The second grammar has all that the first has, at the same numbers. -/
structure Extends (g g' : Grammar) : Prop where
  nodes : ∀ id node, g.graph.node? id = some node → g'.graph.node? id = some node
  rules : ∀ id rule, g.rules.get? id = some rule → g'.rules.get? id = some rule
  tokens : ∀ id name, g.Calls id name → g'.Calls id name
  size : g.graph.size ≤ g'.graph.size
  root : g'.root = g.root

variable {g g' g'' : Grammar}

theorem Extends.refl (g : Grammar) : Extends g g :=
  ⟨fun _ _ h => h, fun _ _ h => h, fun _ _ h => h, Nat.le_refl _, rfl⟩

theorem Extends.trans (h : Extends g g') (h' : Extends g' g'') : Extends g g'' where
  nodes id node hnode := h'.nodes id node (h.nodes id node hnode)
  rules id rule hrule := h'.rules id rule (h.rules id rule hrule)
  tokens id name hname := h'.tokens id name (h.tokens id name hname)
  size := Nat.le_trans h.size h'.size
  root := h'.root.trans h.root

/-- What has grown agrees with what it was on all that was there. -/
theorem Extends.agrees (h : Extends g g') (states : StateId → Prop) : AgreesOn states g g' :=
  ⟨fun id node _ => h.nodes id node, h.rules, h.tokens⟩

theorem Extends.depicts (h : Extends g g') {id : StateId} {p : Pattern} (hid : g.Depicts id p) :
    g'.Depicts id p :=
  hid.transfer (h.agrees fun _ => True) (fun _ _ _ _ _ _ => trivial) trivial

/-- States that were there are read back from what has grown. -/
theorem Extends.node?_of_lt (h : Extends g g') {id : StateId} {node : Node}
    (hid : id.index < g.graph.size) (hnode : g'.graph.node? id = some node) :
    g.graph.node? id = some node := by
  obtain ⟨node', hnode'⟩ := Graph.exists_node?_of_lt_size hid
  have heq := h.nodes id node' hnode'
  rw [hnode] at heq
  rw [hnode', heq]

theorem intern_extends (name : String) (g : Grammar) : Extends g (intern name g).2 where
  nodes _ _ h := h
  rules _ _ h := h
  tokens _ _ h := TokenTable.name?_intern_of_name? h name
  size := Nat.le_refl _
  root := rfl

theorem intern_calls (name : String) (g : Grammar) :
    (intern name g).2.Calls (intern name g).1 name :=
  TokenTable.name?_intern g.tokens name

theorem addRule_extends (rule : Rule) (g : Grammar) : Extends g (addRule rule g).2 where
  nodes _ _ h := h
  rules id rule' h := by
    have hlt : id.index < g.rules.rules.size := (Array.getElem?_eq_some_iff.1 h).1
    show (g.rules.rules.push rule)[id.index]? = some rule'
    rw [Array.getElem?_push, if_neg (Nat.ne_of_lt hlt)]
    exact h
  tokens _ _ h := h
  size := Nat.le_refl _
  root := rfl

theorem addRule_get? (rule : Rule) (g : Grammar) :
    (addRule rule g).2.rules.get? (addRule rule g).1 = some rule :=
  Array.getElem?_push_size

theorem addNode_extends (node : Node) (g : Grammar) : Extends g (addNode node g).2 where
  nodes _ _ h := Graph.node?_alloc node h
  rules _ _ h := h
  tokens _ _ h := h
  size := by
    rw [show (addNode node g).2.graph.size = g.graph.size + 1 from Graph.size_alloc node g.graph]
    exact Nat.le_succ _
  root := rfl

/-- A token that may be missing is interned if it is there. -/
theorem mapM_intern (token : Option String) (g : Grammar) :
    Extends g (token.mapM intern g).2 ∧
      Option.Rel (token.mapM intern g).2.Calls (token.mapM intern g).1 token ∧
      (token.mapM intern g).2.graph = g.graph := by
  cases token with
  | none => exact ⟨.refl g, .none, rfl⟩
  | some name => exact ⟨intern_extends name g, .some (intern_calls name g), rfl⟩

/-! ## New states -/

/-- The number is that of a state which was added to `g` to get `g'`. -/
def IsNew (g g' : Grammar) (id : StateId) : Prop :=
  g.graph.size ≤ id.index ∧ id.index < g'.graph.size

/-- What was added to `g` to get `g'` names nothing but what was added. -/
structure Grows (g g' : Grammar) : Prop extends Extends g g' where
  closed : ∀ id node, g.graph.size ≤ id.index → g'.graph.node? id = some node →
    ∀ j ∈ node.successors, IsNew g g' j

/-- Every state that was added to `g` to get `g'` stands for a pattern. -/
def Whole (g g' : Grammar) : Prop := ∀ id, IsNew g g' id → ∃ p, g'.Depicts id p

/-- The states of some patterns were added. -/
structure Sprouts (g : Grammar) (ids : List StateId) (ps : List Pattern) (g' : Grammar) : Prop
    extends Grows g g' where
  fresh : ∀ id ∈ ids, IsNew g g' id
  depicts : g'.DepictsAll ids ps
  whole : Whole g g'

theorem Grows.refl (g : Grammar) : Grows g g where
  toExtends := .refl g
  closed _ _ hid hnode := absurd (Graph.lt_size_of_node? hnode) (Nat.not_lt.2 hid)

theorem IsNew.left (h : Extends g g') {id : StateId} (hid : IsNew g' g'' id) : IsNew g g'' id :=
  ⟨Nat.le_trans h.size hid.1, hid.2⟩

theorem IsNew.right (h : Extends g' g'') {id : StateId} (hid : IsNew g g' id) : IsNew g g'' id :=
  ⟨hid.1, Nat.lt_of_lt_of_le hid.2 h.size⟩

/-- What is added in two parts is in one of them. -/
theorem IsNew.left_or_right {id : StateId} (hid : IsNew g g'' id) (g' : Grammar) :
    IsNew g g' id ∨ IsNew g' g'' id := by
  by_cases hlt : id.index < g'.graph.size
  · exact .inl ⟨hid.1, hlt⟩
  · exact .inr ⟨Nat.le_of_not_lt hlt, hid.2⟩

theorem Whole.of_graph_eq (hgraph : g'.graph = g.graph) : Whole g g' := by
  rintro id ⟨hle, hlt⟩
  rw [hgraph] at hlt
  exact absurd hlt (Nat.not_lt.2 hle)

theorem Whole.trans (h : Whole g g') (hextends : Extends g' g'') (h' : Whole g' g'') :
    Whole g g'' := by
  intro id hid
  rcases hid.left_or_right g' with hid | hid
  · obtain ⟨p, hp⟩ := h id hid
    exact ⟨p, hextends.depicts hp⟩
  · exact h' id hid

theorem Grows.trans (h : Grows g g') (h' : Grows g' g'') : Grows g g'' where
  toExtends := h.toExtends.trans h'.toExtends
  closed id node hid hnode j hj := by
    by_cases hlt : id.index < g'.graph.size
    · have hnode' := h'.toExtends.node?_of_lt hlt hnode
      exact (h.closed id node hid hnode' j hj).right h'.toExtends
    · exact (h'.closed id node (Nat.le_of_not_lt hlt) hnode j hj).left h.toExtends

/-- Where the states are the same, nothing was added. -/
theorem Grows.of_graph_eq (h : Extends g g') (hgraph : g'.graph = g.graph) : Grows g g' where
  toExtends := h
  closed id node hid hnode := by
    rw [hgraph] at hnode
    exact absurd (Graph.lt_size_of_node? hnode) (Nat.not_lt.2 hid)

theorem Sprouts.nil (g : Grammar) : Sprouts g [] [] g where
  toGrows := .refl g
  fresh := by simp
  depicts := .nil
  whole := .of_graph_eq rfl

theorem Sprouts.cons {id : StateId} {p : Pattern} {ids : List StateId} {ps : List Pattern}
    (h : Sprouts g [id] [p] g') (h' : Sprouts g' ids ps g'') :
    Sprouts g (id :: ids) (p :: ps) g'' where
  toGrows := h.toGrows.trans h'.toGrows
  fresh := by
    intro j hj
    rcases List.mem_cons.1 hj with rfl | hj
    · exact (h.fresh j List.mem_cons_self).right h'.toExtends
    · exact (h'.fresh j hj).left h.toExtends
  depicts := by
    cases h.depicts with
    | cons head _ => exact .cons (h'.toExtends.depicts head) h'.depicts
  whole := h.whole.trans h'.toExtends h'.whole

/-! ## A state and its branches -/

/-- Gives a state its branches. -/
def withBranches (id : StateId) (ids : List StateId) (g : Grammar) : Grammar :=
  (editNode id (fun n => { n with branches := ids }) g).2

section Node

variable {node : Node} {ids : List StateId} {ps : List Pattern}

theorem addNode_size (node : Node) (g : Grammar) :
    (addNode node g).2.graph.size = g.graph.size + 1 := Graph.size_alloc node g.graph

theorem withBranches_size (id : StateId) (ids : List StateId) (g : Grammar) :
    (withBranches id ids g).graph.size = g.graph.size := Graph.size_edit id _ g.graph

theorem withBranches_node?_of_ne {id i : StateId} (h : i ≠ id) (ids : List StateId) (g : Grammar) :
    (withBranches id ids g).graph.node? i = g.graph.node? i :=
  Graph.node?_edit_of_ne _ h.symm

/-- A state that is planted before its branches has them in the end. -/
theorem node_withBranches (h : Extends (addNode node g).2 g') (ids : List StateId) :
    (withBranches (addNode node g).1 ids g').graph.node? (addNode node g).1 =
      some { node with branches := ids } :=
  Graph.node?_edit_self _ (h.nodes _ _ (Graph.node?_alloc_self node g.graph))

theorem ne_of_lt_addNode {i : StateId} (h : i.index < g.graph.size) : i ≠ (addNode node g).1 := by
  rintro rfl
  exact Nat.lt_irrefl _ h

theorem ne_of_addNode_le {i : StateId} (h : (addNode node g).2.graph.size ≤ i.index) :
    i ≠ (addNode node g).1 := by
  rintro rfl
  rw [addNode_size] at h
  exact Nat.not_succ_le_self _ h

/-- All else that was there stays as it was. -/
theorem withBranches_extends (h : Extends (addNode node g).2 g') (ids : List StateId) :
    Extends g (withBranches (addNode node g).1 ids g') where
  nodes i n hn := by
    rw [withBranches_node?_of_ne (ne_of_lt_addNode (Graph.lt_size_of_node? hn))]
    exact h.nodes i n ((addNode_extends node g).nodes i n hn)
  rules := ((addNode_extends node g).trans h).rules
  tokens := ((addNode_extends node g).trans h).tokens
  size := by
    rw [withBranches_size]
    exact ((addNode_extends node g).trans h).size
  root := ((addNode_extends node g).trans h).root

/-- What came after a state is not touched when the state gets its branches. -/
theorem withBranches_agrees (node : Node) (g g' : Grammar) (ids : List StateId) :
    AgreesOn (fun i => (addNode node g).2.graph.size ≤ i.index) g'
      (withBranches (addNode node g).1 ids g') := by
  refine ⟨fun i n hi hn => ?_, fun _ _ hrule => hrule, fun _ _ htoken => htoken⟩
  rw [withBranches_node?_of_ne (ne_of_addNode_le hi)]
  exact hn

/-- The branches are not touched when they are given to their state. -/
theorem withBranches_depicts (h : Sprouts (addNode node g).2 ids ps g') :
    (withBranches (addNode node g).1 ids g').DepictsAll ids ps :=
  -- the branches name new states only, and the edited state is older than they are
  h.depicts.transfer (withBranches_agrees node g g' ids)
    (fun i n hi hn j hj => (h.closed i n hi hn j hj).1) fun i hi => (h.fresh i hi).1

/-- A new state was there before some state that got its branches, or is that state, or came with
the branches. -/
theorem isNew_withBranches_cases {g₀ : Grammar} {i : StateId}
    (hi : IsNew g₀ (withBranches (addNode node g).1 ids g') i) :
    i = (addNode node g).1 ∨ IsNew g₀ g i ∨ IsNew (addNode node g).2 g' i := by
  obtain ⟨hle, hlt⟩ := hi
  rw [withBranches_size] at hlt
  by_cases hid : i = (addNode node g).1
  · exact .inl hid
  · have hne : i.index ≠ g.graph.size := fun heq => hid (congrArg StateId.mk heq)
    rcases Nat.lt_or_ge i.index g.graph.size with hold | hnew
    · exact .inr (.inl ⟨hle, hold⟩)
    · refine .inr (.inr ⟨?_, hlt⟩)
      rw [addNode_size]
      omega

/-- A new state with its branches names new states only, if its kind does. -/
theorem withBranches_grows {g₀ : Grammar} (hg : Grows g₀ g)
    (hchild : ∀ j ∈ node.child?, IsNew g₀ g j) (h : Sprouts (addNode node g).2 ids ps g') :
    Grows g₀ (withBranches (addNode node g).1 ids g') where
  toExtends := hg.toExtends.trans (withBranches_extends h.toExtends ids)
  closed i n hi hn j hj := by
    have hextends := withBranches_extends h.toExtends ids
    have hadd : Extends g g' := (addNode_extends node g).trans h.toExtends
    have hsize := withBranches_size (addNode node g).1 ids g'
    have hfresh : ∀ k, IsNew (addNode node g).2 g' k →
        IsNew g₀ (withBranches (addNode node g).1 ids g') k := fun k hk =>
      ⟨Nat.le_trans (hg.toExtends.trans (addNode_extends node g)).size hk.1, by
        rw [hsize]
        exact hk.2⟩
    have hnew : IsNew g₀ (withBranches (addNode node g).1 ids g') i :=
      ⟨hi, Graph.lt_size_of_node? hn⟩
    rcases isNew_withBranches_cases hnew with rfl | hold | hbranch
    · rw [node_withBranches h.toExtends] at hn
      cases hn
      rcases List.mem_append.1 hj with hj | hj
      · exact (hchild j (Option.mem_toList.1 hj)).right hextends
      · exact hfresh j (h.fresh j hj)
    · rw [withBranches_node?_of_ne (ne_of_lt_addNode hold.2)] at hn
      exact (hg.closed i n hi (hadd.node?_of_lt hold.2 hn) j hj).right hextends
    · rw [withBranches_node?_of_ne (ne_of_addNode_le hbranch.1)] at hn
      exact hfresh j (h.closed i n hbranch.1 hn j hj)

/-- Where all new states stand for patterns, and so does a state that then gets its branches, all
still do. -/
theorem withBranches_whole {g₀ : Grammar} {p : Pattern} (hwhole : Whole g₀ g)
    (h : Sprouts (addNode node g).2 ids ps g')
    (hdepicts : (withBranches (addNode node g).1 ids g').Depicts (addNode node g).1 p) :
    Whole g₀ (withBranches (addNode node g).1 ids g') := by
  intro i hi
  rcases isNew_withBranches_cases hi with rfl | hold | hbranch
  · exact ⟨p, hdepicts⟩
  · obtain ⟨q, hq⟩ := hwhole i hold
    exact ⟨q, (withBranches_extends h.toExtends ids).depicts hq⟩
  · obtain ⟨q, hq⟩ := h.whole i hbranch
    exact ⟨q, hq.transfer (withBranches_agrees node g g' ids)
      (fun k n hk hn j hj => (h.closed k n hk hn j hj).1) hbranch.1⟩

theorem isNew_withBranches {g₀ : Grammar} (hg : Extends g₀ g) (h : Extends (addNode node g).2 g')
    (ids : List StateId) :
    IsNew g₀ (withBranches (addNode node g).1 ids g') (addNode node g).1 := by
  have hsize := h.size
  rw [addNode_size] at hsize
  refine ⟨hg.size, ?_⟩
  rw [withBranches_size]
  exact hsize

/-- A state that was added before its branches were, and then got them, stands for a pattern if a
state with these branches does in what has grown. -/
theorem sprouts_withBranches {g₀ : Grammar} {p : Pattern} (hg : Grows g₀ g) (hwhole : Whole g₀ g)
    (hchild : ∀ j ∈ node.child?, IsNew g₀ g j) (h : Sprouts (addNode node g).2 ids ps g')
    (hdepicts : ∀ {id done}, Extends g done →
      done.graph.node? id = some { node with branches := ids } → done.DepictsAll ids ps →
      done.Depicts id p) :
    Sprouts g₀ [(addNode node g).1] [p] (withBranches (addNode node g).1 ids g') := by
  have hdone := hdepicts (withBranches_extends h.toExtends ids) (node_withBranches h.toExtends ids)
    (withBranches_depicts h)
  refine ⟨withBranches_grows hg hchild h, ?_, .cons hdone .nil, withBranches_whole hwhole h hdone⟩
  intro j hj
  rw [List.mem_singleton.1 hj]
  exact isNew_withBranches hg.toExtends h.toExtends ids

end Node

end Grammar

/-! ## Planting -/

namespace Pattern

open Grammar

mutual

/-- Adds the states of a pattern to a grammar; answers the state of the pattern itself. A child
stands before, branches after what they belong to. -/
def plant (p : Pattern) : StateM Grammar StateId := do
  match p with
  | .terminal annotations choices token branches =>
    let token ← intern token
    let rule ← addRule { token, choices, annotations }
    let id ← addNode { kind := .terminal rule }
    plantBranches id [] branches
  | .repetition annotations child min max token branches =>
    let child ← plant child
    let token ← token.mapM intern
    let id ← addNode { kind := .repetition child min max, token, annotations }
    plantBranches id [] branches
  | .choice annotations token branches =>
    let token ← token.mapM intern
    let id ← addNode { kind := .choice, token, annotations }
    plantBranches id [] branches

/-- Adds the states of patterns that a state `id` goes on with, after the branches planted so
far, which are given last one first; answers `id`. -/
def plantBranches (id : StateId) (planted : List StateId) (ps : List Pattern) :
    StateM Grammar StateId := do
  match ps with
  | [] =>
    editNode id fun n => { n with branches := planted.reverse }
    return id
  | p :: ps =>
    let branch ← plant p
    plantBranches id (branch :: planted) ps

end

/-- Plants patterns one after another. -/
def plantAll (ps : List Pattern) : StateM Grammar (List StateId) := ps.mapM plant

theorem plantAll_cons (p : Pattern) (ps : List Pattern) (g : Grammar) :
    plantAll (p :: ps) g =
      ((p.plant g).1 :: (plantAll ps (p.plant g).2).1, (plantAll ps (p.plant g).2).2) := by
  unfold plantAll
  rw [List.mapM_cons]
  rfl

/-- To plant the branches of a state is to plant them all and then to give them to the state. -/
theorem plantBranches_apply (id : StateId) (planted : List StateId) (ps : List Pattern)
    (g : Grammar) :
    plantBranches id planted ps g = (id,
      Grammar.withBranches id (planted.reverse ++ (plantAll ps g).1) (plantAll ps g).2) := by
  induction ps generalizing planted g with
  | nil =>
    rw [plantBranches]
    show (id, Grammar.withBranches id planted.reverse g) =
      (id, Grammar.withBranches id (planted.reverse ++ []) g)
    rw [List.append_nil]
  | cons p ps ih =>
    rw [plantBranches]
    show plantBranches id ((p.plant g).1 :: planted) ps (p.plant g).2 = _
    rw [ih, plantAll_cons, List.reverse_cons, List.append_assoc]
    rfl

mutual

/-- **What is planted stands for its pattern.** -/
theorem plant_sprouts (p : Pattern) (g : Grammar) :
    Sprouts g [(p.plant g).1] [p] (p.plant g).2 := by
  match p with
  | .terminal annotations choices token branches =>
    let g₁ := (intern token g).2
    let rule : Rule := { token := (intern token g).1, choices, annotations }
    let g₂ := (addRule rule g₁).2
    let node : Node := { kind := .terminal (addRule rule g₁).1 }
    have happly : (Pattern.terminal annotations choices token branches).plant g =
        plantBranches (addNode node g₂).1 [] branches (addNode node g₂).2 := by
      rw [plant]
      rfl
    -- the name and the rule are there before the state, and adding them changes no state
    have hrule := addRule_extends rule g₁
    have hgrows : Grows g g₂ := .of_graph_eq ((intern_extends token g).trans hrule) rfl
    rw [happly, plantBranches_apply]
    refine sprouts_withBranches hgrows (.of_graph_eq rfl) (fun j hj => (nomatch hj))
      (plantAll_sprouts branches (addNode node g₂).2) fun hdone hnode hall => ?_
    have hcalls := hdone.tokens _ _ (hrule.tokens _ _ (intern_calls token g))
    exact .terminal hnode rfl (hdone.rules _ _ (addRule_get? rule g₁)) rfl rfl rfl hcalls hall
  | .repetition annotations child min max token branches =>
    let g₁ := (child.plant g).2
    let g₂ := (token.mapM intern g₁).2
    let node : Node := {
      kind := .repetition (child.plant g).1 min max
      token := (token.mapM intern g₁).1
      annotations }
    have happly : (Pattern.repetition annotations child min max token branches).plant g =
        plantBranches (addNode node g₂).1 [] branches (addNode node g₂).2 := by
      rw [plant]
      rfl
    -- the child is there before its parent, and nothing that follows touches it
    have hchild := plant_sprouts child g
    obtain ⟨htoken, hcalls, hgraph⟩ := mapM_intern token g₁
    have hgrows : Grows g g₂ := hchild.toGrows.trans (.of_graph_eq htoken hgraph)
    have hfresh : ∀ j ∈ node.child?, IsNew g g₂ j := by
      intro j hj
      rw [← Option.some.inj hj]
      exact (hchild.fresh _ (List.mem_singleton.2 rfl)).right htoken
    have hwhole : Whole g g₂ := hchild.whole.trans htoken (.of_graph_eq hgraph)
    rw [happly, plantBranches_apply]
    refine sprouts_withBranches hgrows hwhole hfresh
      (plantAll_sprouts branches (addNode node g₂).2) fun hdone hnode hall => ?_
    cases hchild.depicts with
    | cons hchild _ =>
      exact .repetition hnode rfl rfl (hdone.depicts (htoken.depicts hchild))
        (optionCalls_mono hdone.tokens hcalls) hall
  | .choice annotations token branches =>
    let g₁ := (token.mapM intern g).2
    let node : Node := { kind := .choice, token := (token.mapM intern g).1, annotations }
    have happly : (Pattern.choice annotations token branches).plant g =
        plantBranches (addNode node g₁).1 [] branches (addNode node g₁).2 := by
      rw [plant]
      rfl
    obtain ⟨htoken, hcalls, hgraph⟩ := mapM_intern token g
    rw [happly, plantBranches_apply]
    refine sprouts_withBranches (.of_graph_eq htoken hgraph) (.of_graph_eq hgraph)
      (fun j hj => (nomatch hj)) (plantAll_sprouts branches (addNode node g₁).2)
      fun hdone hnode hall => ?_
    exact .choice hnode rfl rfl (optionCalls_mono hdone.tokens hcalls) hall

theorem plantAll_sprouts (ps : List Pattern) (g : Grammar) :
    Sprouts g (plantAll ps g).1 ps (plantAll ps g).2 := by
  match ps with
  | [] => exact .nil g
  | p :: ps =>
    rw [plantAll_cons]
    exact (plant_sprouts p g).cons (plantAll_sprouts ps (p.plant g).2)

end

end Pattern

end Lexigraph
