/-
# Lexigraph.Proofs.Grammar.Build -- building comes to planting

A reader builds a pattern by calls that can fail: a terminal asks for a literal, a repetition for
its child and for bounds in order, a state that is changed has to be there, and so has each state
that one is linked to. None of them fails when the bounds are in order, since all that is named
was added just before. So building a pattern comes to planting it, with the same numbers and the
same grammar in the end (`build_eq_plant`), and reading a text to planting what it denotes
(`read_of_ofText`, `read_of_misread`).

Planting gives a state all its branches at the end, building links them one by one. The two agree
because it makes no difference to planting whether a state that is there is edited before or
after (`plant_commutes`).
-/

import Lexigraph.Proofs.Graph.Closed
import Lexigraph.Proofs.Grammar.Plant
import Lexigraph.Proofs.Pattern.Ordered

namespace Lexigraph

/-! ## Calls that name what is there -/

namespace Graph

variable {g : Graph} {id : StateId} {node : Node}

theorem require_of_node? (h : g.node? id = some node) : require id g = (.ok ⟨⟩, g) := by
  rw [require_apply, if_pos (lt_size_of_node? h)]

theorem update_of_node? (f : Node → Node) (h : g.node? id = some node) :
    update id f g = (.ok ⟨⟩, (edit id f g).2) := by
  unfold update
  rw [Attempt.bind_apply, require_of_node? h]
  rfl

/-- A repetition of a state that is there, with bounds in order, is added. -/
theorem repetition_of_node? {min : UInt32} {max : Option UInt32} (h : g.node? id = some node)
    (hbounds : checkBounds min max = .ok ()) :
    repetition id min max g = (.ok (alloc { kind := .repetition id min max } g).1,
      (alloc { kind := .repetition id min max } g).2) := by
  unfold repetition
  rw [Attempt.bind_apply, require_of_node? h]
  dsimp only
  rw [Attempt.bind_apply, hbounds]
  rfl

/-- A state that is there is linked to another one that is. -/
theorem link_of_node? {target : StateId} {node' : Node} (h : g.node? id = some node)
    (htarget : g.node? target = some node') :
    link id target g =
      (.ok ⟨⟩, (edit id (fun n => { n with branches := n.branches ++ [target] }) g).2) := by
  unfold link
  rw [Attempt.bind_apply, require_of_node? htarget]
  exact update_of_node? _ h

end Graph

namespace Grammar

variable {g : Grammar} {id : StateId} {node : Node}

theorem editNode_node?_self (f : Node → Node) (h : g.graph.node? id = some node) :
    (editNode id f g).2.graph.node? id = some (f node) :=
  Graph.node?_edit_self f h

theorem update_eq_editNode (f : Node → Node) (h : g.graph.node? id = some node) :
    onGraph (Graph.update id f) g = (.ok ⟨⟩, (editNode id f g).2) := by
  unfold onGraph Attempt.within
  rw [Graph.update_of_node? f h]
  rfl

/-- A repetition of a state that is there does as a state that is added as it is. -/
theorem repetition_eq_addNode {min : UInt32} {max : Option UInt32}
    (h : g.graph.node? id = some node) (hbounds : checkBounds min max = .ok ()) :
    repetition id min max g = (.ok (addNode { kind := .repetition id min max } g).1,
      (addNode { kind := .repetition id min max } g).2) := by
  unfold repetition onGraph Attempt.within
  rw [Graph.repetition_of_node? h hbounds]
  rfl

/-- A link between states that are there does as an edit of the first. -/
theorem link_eq_editNode {target : StateId} {node' : Node} (h : g.graph.node? id = some node)
    (htarget : g.graph.node? target = some node') :
    link id target g =
      (.ok ⟨⟩, (editNode id (fun n => { n with branches := n.branches ++ [target] }) g).2) := by
  unfold link onGraph Attempt.within
  rw [Graph.link_of_node? h htarget]
  rfl

/-- A state that is linked and then gets its branches has these in the end. -/
theorem withBranches_link (h : g.graph.node? id = some node) (target : StateId)
    (ids : List StateId) :
    withBranches id ids (editNode id (fun n => { n with branches := n.branches ++ [target] }) g).2 =
      withBranches id ids g :=
  congrArg (fun graph => { g with graph }) (Graph.edit_edit h rfl)

/-- A state with its own branches is what it was. -/
theorem withBranches_self (h : g.graph.node? id = some node) :
    withBranches id node.branches g = g :=
  congrArg (fun graph => { g with graph }) (Graph.edit_eq_self h rfl)

end Grammar

namespace Pattern

open Grammar

variable {g : Grammar} {id : StateId} {node : Node}

/-! ## Edits before and after planting -/

/-- It makes no difference whether a state that is there is edited before or after. -/
structure Commutes (f : Node → Node) (id : StateId) {α : Type} (x : StateM Grammar α) : Prop where
  eq : ∀ g, id.index < g.graph.size →
    x (editNode id f g).2 = ((x g).1, (editNode id f (x g).2).2)
  there : ∀ g, id.index < g.graph.size → id.index < (x g).2.graph.size

variable {α β : Type} {f : Node → Node} {i : StateId} {ps : List Pattern}

/-- What comes next may depend on an answer that is given where the state is there. -/
theorem Commutes.bind {x : StateM Grammar α} {k : α → StateM Grammar β} (hx : Commutes f id x)
    (hk : ∀ g, id.index < g.graph.size → Commutes f id (k (x g).1)) : Commutes f id (x >>= k) where
  eq g hid := by
    show k (x (editNode id f g).2).1 (x (editNode id f g).2).2 = _
    rw [hx.eq g hid]
    exact (hk g hid).eq _ (hx.there g hid)
  there g hid := (hk g hid).there _ (hx.there g hid)

theorem intern_commutes (name : String) : Commutes f id (intern name) :=
  ⟨fun _ _ => rfl, fun _ hid => hid⟩

theorem addRule_commutes (rule : Rule) : Commutes f id (addRule rule) :=
  ⟨fun _ _ => rfl, fun _ hid => hid⟩

theorem mapM_intern_commutes (token : Option String) : Commutes f id (token.mapM intern) := by
  cases token with
  | none => exact ⟨fun _ _ => rfl, fun _ hid => hid⟩
  | some name => exact ⟨fun _ _ => rfl, fun _ hid => hid⟩

theorem addNode_commutes (node : Node) : Commutes f id (addNode node) where
  eq g hid := by
    have halloc := Graph.alloc_edit f node hid
    show ((Graph.alloc node (Graph.edit id f g.graph).2).1,
      ({ g with graph := (Graph.alloc node (Graph.edit id f g.graph).2).2 } : Grammar)) = _
    rw [halloc]
    rfl
  there g hid := by
    rw [addNode_size]
    exact Nat.lt_succ_of_lt hid

/-- Another state may get its branches before or after. -/
theorem plantBranches_commutes (hne : id ≠ i) (planted : List StateId)
    (hps : Commutes f id (plantAll ps)) : Commutes f id (plantBranches i planted ps) where
  eq g hid := by
    rw [plantBranches_apply, plantBranches_apply, hps.eq g hid]
    let all := plantAll ps g
    have hcomm := Graph.edit_comm f (fun n => { n with branches := planted.reverse ++ all.1 }) hne
      all.2.graph
    exact congrArg (fun graph => (i, { all.2 with graph })) hcomm
  there g hid := by
    rw [plantBranches_apply, withBranches_size]
    exact hps.there g hid

/-- A state that is added is not one that is there. -/
theorem addNode_plantBranches_commutes (node : Node) (hps : Commutes f id (plantAll ps)) :
    Commutes f id (addNode node >>= fun i => plantBranches i [] ps) :=
  (addNode_commutes node).bind fun _ hid => plantBranches_commutes (ne_of_lt_addNode hid) [] hps

mutual

/-- **A state that is there may be edited before a pattern is planted or after.** -/
theorem plant_commutes (p : Pattern) : Commutes f id p.plant := by
  match p with
  | .terminal annotations choices token branches =>
    rw [plant]
    refine (intern_commutes token).bind fun _ _ => (addRule_commutes _).bind fun _ _ => ?_
    exact addNode_plantBranches_commutes _ (plantAll_commutes branches)
  | .repetition annotations child min max token branches =>
    rw [plant]
    refine (plant_commutes child).bind fun _ _ => (mapM_intern_commutes token).bind fun _ _ => ?_
    exact addNode_plantBranches_commutes _ (plantAll_commutes branches)
  | .choice annotations token branches =>
    rw [plant]
    refine (mapM_intern_commutes token).bind fun _ _ => ?_
    exact addNode_plantBranches_commutes _ (plantAll_commutes branches)

theorem plantAll_commutes (ps : List Pattern) : Commutes f id (plantAll ps) := by
  match ps with
  | [] => exact ⟨fun _ _ => rfl, fun _ hid => hid⟩
  | p :: ps =>
    unfold plantAll
    rw [List.mapM_cons]
    refine (plant_commutes p).bind fun _ _ => (plantAll_commutes ps).bind fun _ _ => ?_
    exact ⟨fun _ _ => rfl, fun _ hid => hid⟩

end

/-! ## Building -/

/-- Each branch is linked as soon as it is there. In the end that is to plant them all and then to
give them to the state. -/
theorem buildBranches_cons {p : Pattern} (hnode : g.graph.node? id = some node)
    (hp : p.build g = (.ok (p.plant g).1, (p.plant g).2))
    (hps : ∀ {g' node'}, g'.graph.node? id = some node' → buildBranches id ps g' =
      (.ok id, Grammar.withBranches id (node'.branches ++ (plantAll ps g').1) (plantAll ps g').2)) :
    buildBranches id (p :: ps) g = (.ok id, Grammar.withBranches id
      (node.branches ++ (plantAll (p :: ps) g).1) (plantAll (p :: ps) g).2) := by
  have hsprouts := p.plant_sprouts g
  have hkept := hsprouts.nodes id node hnode
  obtain ⟨branch, hbranch⟩ := Graph.exists_node?_of_lt_size
    (hsprouts.fresh _ (List.mem_singleton.2 rfl)).2
  have hall := (plantAll_sprouts ps (p.plant g).2).nodes id node hkept
  rw [buildBranches, Attempt.bind_apply, hp]
  dsimp only
  rw [Attempt.bind_apply, link_eq_editNode hkept hbranch]
  dsimp only
  rw [hps (editNode_node?_self _ hkept),
    (plantAll_commutes ps).eq _ (Graph.lt_size_of_node? hkept), plantAll_cons]
  dsimp only
  rw [withBranches_link hall, List.append_assoc]
  rfl

/-- A state without branches is added, and gets them. -/
theorem buildBranches_addNode (hnode : node.branches = [])
    (hps : ∀ {g' node'}, g'.graph.node? (addNode node g).1 = some node' →
      buildBranches (addNode node g).1 ps g' = (.ok (addNode node g).1, Grammar.withBranches
        (addNode node g).1 (node'.branches ++ (plantAll ps g').1) (plantAll ps g').2)) :
    buildBranches (addNode node g).1 ps (addNode node g).2 =
      (.ok (plantBranches (addNode node g).1 [] ps (addNode node g).2).1,
        (plantBranches (addNode node g).1 [] ps (addNode node g).2).2) := by
  rw [hps (Graph.node?_alloc_self node g.graph), hnode, plantBranches_apply]
  rfl

/-- A repetition is added, and then gets its token and its annotations. It might as well have been
added with them. -/
theorem repetition_calls {child : StateId} {found : Node} {min : UInt32} {max : Option UInt32}
    (hchild : g.graph.node? child = some found) (hbounds : checkBounds min max = .ok ())
    (token : Option String) (annotations : Annotations) (k : StateId → GrammarEdit α) :
    (do
      let id ← Grammar.repetition child min max
      let token ← (token.mapM intern : StateM Grammar (Option TokenId))
      onGraph (Graph.update id fun n => { n with token, annotations })
      k id : GrammarEdit α) g =
    (do
      let token ← (token.mapM intern : StateM Grammar (Option TokenId))
      let id ← addNode { kind := .repetition child min max, token, annotations }
      k id : GrammarEdit α) g := by
  let node : Node := { kind := .repetition child min max }
  have hnode : (addNode node g).2.graph.node? (addNode node g).1 = some node :=
    Graph.node?_alloc_self node g.graph
  have hedit := fun f => Graph.edit_alloc f node g.graph
  rw [Attempt.bind_apply, repetition_eq_addNode hchild hbounds]
  cases token with
  | none =>
    show (onGraph (Graph.update (addNode node g).1 _) >>= fun _ => k _) (addNode node g).2 = _
    rw [Attempt.bind_apply, update_eq_editNode _ hnode]
    exact congrArg (fun graph => k (addNode node g).1 { g with graph }) (hedit _)
  | some name =>
    show (onGraph (Graph.update (addNode node g).1 _) >>= fun _ => k _)
      (intern name (addNode node g).2).2 = _
    rw [Attempt.bind_apply, update_eq_editNode _ ((intern_extends name _).nodes _ _ hnode)]
    exact congrArg (fun graph => k (addNode node g).1 { (intern name g).2 with graph }) (hedit _)

mutual

/-- **To build a pattern with bounds in order is to plant it.** -/
theorem build_eq_plant (p : Pattern) (hp : p.Ordered) (g : Grammar) :
    p.build g = (.ok (p.plant g).1, (p.plant g).2) := by
  match p, hp with
  | .terminal annotations choices token branches, hp =>
    rw [build, plant]
    exact buildBranches_addNode rfl (buildBranches_eq_plantAll branches hp)
  | .repetition annotations child min max token branches, ⟨hbounds, hchild, hbranches⟩ =>
    obtain ⟨found, hfound⟩ := Graph.exists_node?_of_lt_size
      ((child.plant_sprouts g).fresh _ (List.mem_singleton.2 rfl)).2
    rw [build, Attempt.bind_apply, build_eq_plant child hchild g, plant]
    refine (repetition_calls hfound hbounds token annotations _).trans ?_
    exact buildBranches_addNode (g := (token.mapM intern (child.plant g).2).2) rfl
      (buildBranches_eq_plantAll branches hbranches)
  | .choice annotations token branches, hp =>
    rw [build, plant]
    exact buildBranches_addNode (g := (token.mapM intern g).2) rfl
      (buildBranches_eq_plantAll branches hp)

theorem buildBranches_eq_plantAll (ps : List Pattern) (hps : OrderedAll ps) {g : Grammar}
    {id : StateId} {node : Node} (hnode : g.graph.node? id = some node) : buildBranches id ps g =
      (.ok id, Grammar.withBranches id (node.branches ++ (plantAll ps g).1) (plantAll ps g).2) := by
  match ps, hps with
  | [], _ =>
    rw [buildBranches]
    show (_, g) = (_, Grammar.withBranches id (node.branches ++ []) g)
    rw [List.append_nil, Grammar.withBranches_self hnode]
  | p :: ps, ⟨hp, hps⟩ =>
    exact buildBranches_cons hnode (build_eq_plant p hp g) (buildBranches_eq_plantAll ps hps)

end

end Pattern

/-! ## Reading -/

namespace Grammar

open Attempt (Keeps)

variable {text : String}

/-- No call of a reader fails for what the grammar lacks. -/
theorem adapt_build {p : Pattern} (hp : p.Ordered) (g : Grammar) :
    (p.build.adapt .grammar : Attempt ReadError Grammar StateId) g =
      (.ok (p.plant g).1, (p.plant g).2) := by
  show ((p.build g).1.mapError _, (p.build g).2) = _
  rw [p.build_eq_plant hp g]
  rfl

/-- A text that denotes a pattern is read by planting the pattern. -/
theorem read_of_ofText {p : Pattern} (h : Pattern.ofText text.toList = .ok p) (g : Grammar) :
    read text g = (.ok (p.plant g).1, (p.plant g).2) := by
  unfold read
  rw [h]
  exact adapt_build (Pattern.ofText_ordered h) g

/-- What is built on the way to an error is planted. -/
theorem forM_build (ps : List Pattern) (hps : ∀ p ∈ ps, p.Ordered) (g : Grammar) :
    (ps.forM fun p => do
      let _ ← p.build.adapt .grammar : Attempt ReadError Grammar PUnit) g =
        (.ok ⟨⟩, (Pattern.plantAll ps g).2) := by
  induction ps generalizing g with
  | nil => rfl
  | cons p ps ih =>
    obtain ⟨hp, hps⟩ := List.forall_mem_cons.1 hps
    show ((p.build.adapt .grammar >>= fun _ => pure PUnit.unit) >>= fun _ => ps.forM _ :
      Attempt ReadError Grammar PUnit) g = _
    rw [Attempt.bind_apply, Attempt.bind_apply, adapt_build hp, Pattern.plantAll_cons]
    exact ih hps (p.plant g).2

/-- A faulty text is refused for its first fault, and the whole patterns before it are planted. -/
theorem read_of_misread {misread : Misread} (h : Pattern.ofText text.toList = .error misread)
    (g : Grammar) :
    read text g = (.error misread.error, (Pattern.plantAll misread.fragments g).2) := by
  unfold read
  rw [h]
  dsimp only
  rw [Attempt.bind_apply, forM_build _ (Pattern.fragments_ordered h)]
  rfl

/-- What planting keeps, reading keeps, also where it comes to an error. -/
theorem read_keeps_of_plant {inv : Grammar → Prop}
    (hplant : ∀ p : Pattern, p.Ordered → ∀ g, inv g → inv (p.plant g).2) (text : String) :
    Keeps inv (read text) := by
  have hall : ∀ (ps : List Pattern), (∀ p ∈ ps, p.Ordered) → ∀ g, inv g →
      inv (Pattern.plantAll ps g).2 := by
    intro ps hps
    induction ps with
    | nil => exact fun _ hg => hg
    | cons p ps ih =>
      obtain ⟨hp, hps⟩ := List.forall_mem_cons.1 hps
      intro g hg
      rw [Pattern.plantAll_cons]
      exact ih hps _ (hplant p hp g hg)
  refine .of_keeps fun g hg => ?_
  cases h : Pattern.ofText text.toList with
  | ok p =>
    rw [read_of_ofText h]
    exact hplant p (Pattern.ofText_ordered h) g hg
  | error misread =>
    rw [read_of_misread h]
    exact hall misread.fragments (Pattern.fragments_ordered h) g hg

end Grammar

end Lexigraph
