/-
# Lexigraph.Proofs.Graph.Closed -- states name what is there

A graph is closed if its states name only states of the graph, and terminals only rules of
which there are so many. Edits look up what they are to name before they name it, so they
keep a graph closed also where they fail, and a copy names states of the copy alone.
-/

import Mathlib.Data.List.TakeWhile
import Lexigraph.Graph.Copy
import Lexigraph.Proofs.Attempt
import Lexigraph.Proofs.Graph.Edit
import Lexigraph.Proofs.Graph.Reach

namespace Lexigraph

open Attempt

/-- The node names states before `size` and rules before `rules` alone. -/
structure Node.Bounded (size rules : Nat) (n : Node) : Prop where
  states : ∀ j ∈ n.successors, j.index < size
  rule : ∀ id, n.kind = .terminal id → id.index < rules

theorem Node.Bounded.mono {size size' rules rules' : Nat} {n : Node} (h : n.Bounded size rules)
    (hsize : size ≤ size') (hrules : rules ≤ rules') : n.Bounded size' rules' where
  states j hj := Nat.lt_of_lt_of_le (h.states j hj) hsize
  rule id hid := Nat.lt_of_lt_of_le (h.rule id hid) hrules

/-- Other branches are of account for the states that are named only. -/
theorem Node.Bounded.withBranches {size rules : Nat} {n : Node} (h : n.Bounded size rules)
    {branches : List StateId} (hbranches : ∀ j ∈ branches, j.index < size) :
    { n with branches }.Bounded size rules where
  states := by
    intro j hj
    rcases List.mem_append.1 hj with hj | hj
    · exact h.states j (List.mem_append_left _ hj)
    · exact hbranches j hj
  rule := h.rule

namespace Graph

/-- States of the graph name states of the graph and rules before `rules` alone. -/
def Closed (rules : Nat) (g : Graph) : Prop :=
  ∀ id node, g.node? id = some node → node.Bounded g.size rules

variable {g : Graph} {id : StateId} {rules : Nat} {α : Type}

theorem Closed.mono (hg : g.Closed rules) {rules' : Nat} (h : rules ≤ rules') : g.Closed rules' :=
  fun id node hnode => (hg id node hnode).mono (Nat.le_refl _) h

theorem Closed.alloc (hg : g.Closed rules) {node : Node} (hnode : node.Bounded (g.size + 1) rules) :
    (alloc node g).2.Closed rules := by
  intro i n hn
  rw [size_alloc]
  rcases eq_or_eq_of_node?_alloc hn with hn | rfl
  · exact (hg i n hn).mono (Nat.le_succ _) (Nat.le_refl _)
  · exact hnode

theorem Closed.edit (hg : g.Closed rules) {f : Node → Node}
    (hf : ∀ node, g.node? id = some node → (f node).Bounded g.size rules) :
    (edit id f g).2.Closed rules := by
  intro i n hn
  rw [size_edit]
  rcases eq_or_eq_of_node?_edit hn with hn | ⟨node, hnode, rfl⟩
  · exact hg i n hn
  · exact hf node hnode

/-! ## Edits that can fail -/

theorem require_apply (id : StateId) (g : Graph) :
    require id g = (if id.index < g.size then .ok ⟨⟩ else .error (.unknownState id), g) := by
  unfold require
  rw [get_bind_apply]
  by_cases h : id.index < g.size
  · rw [if_pos h, if_pos (show g.contains id = true from decide_eq_true h)]
    rfl
  · rw [if_neg h, if_neg (show ¬ g.contains id = true from fun hc => h (of_decide_eq_true hc))]
    rfl

/-- What comes after a state was looked up may rely on it. -/
theorem require_bind_keeps {inv : Graph → Prop} {f : Unit → Attempt GrammarError Graph α}
    (h : ∀ g, inv g → id.index < g.size → inv (f ⟨⟩ g).2) : Keeps inv (require id >>= f) := by
  refine .of_keeps fun g hg => ?_
  rw [bind_apply, require_apply]
  by_cases hid : id.index < g.size
  · rw [if_pos hid]
    exact h g hg hid
  · rw [if_neg hid]
    exact hg

/-- A state that was changed was there. -/
theorem update_of_ok {f : Node → Node} {g g' : Graph} (hok : update id f g = (.ok ⟨⟩, g')) :
    g' = (edit id f g).2 := by
  unfold update at hok
  rw [bind_apply, require_apply] at hok
  by_cases hid : id.index < g.size
  · rw [if_pos hid] at hok
    exact (Prod.mk.inj hok).2.symm
  · rw [if_neg hid] at hok
    cases hok

theorem update_closed {f : Node → Node} (hg : g.Closed rules)
    (hf : ∀ node, node.Bounded g.size rules → (f node).Bounded g.size rules) :
    (update id f g).2.Closed rules := by
  unfold update
  rw [bind_apply, require_apply]
  by_cases hid : id.index < g.size
  · rw [if_pos hid]
    exact hg.edit fun node hnode => hf node (hg id node hnode)
  · rw [if_neg hid]
    exact hg

theorem repetition_closed (child : StateId) (min : UInt32) (max : Option UInt32) :
    Keeps (Closed rules) (repetition child min max) := by
  refine require_bind_keeps fun g hg hchild => ?_
  rw [bind_apply, ofExcept_apply]
  cases checkBounds min max with
  | error e => exact hg
  | ok bounds =>
    refine hg.alloc ⟨fun j hj => ?_, nofun⟩
    rw [List.mem_singleton.1 hj]
    exact Nat.lt_succ_of_lt hchild

theorem link_closed (source target : StateId) : Keeps (Closed rules) (link source target) := by
  refine require_bind_keeps fun g hg htarget => update_closed hg fun node hnode => ?_
  refine hnode.withBranches fun j hj => ?_
  rcases List.mem_append.1 hj with hj | hj
  · exact hnode.states j (Node.branch_mem_successors hj)
  · rwa [List.mem_singleton.1 hj]

/-- A choice leaves an added state that has the branches before the first one that is not there. -/
theorem choice_snd (branches : List StateId) (g : Graph) :
    (choice branches g).2 = (update ⟨g.size⟩
      (fun n => { n with branches := branches.takeWhile (alloc { kind := .choice } g).2.contains })
      (alloc { kind := .choice } g).2).2 := by
  unfold choice
  rw [bind_apply, lift_apply]
  show ((get >>= _ : Attempt GrammarError Graph StateId) _).2 = _
  rw [get_bind_apply, bind_apply]
  have hid : (alloc { kind := .choice } g).1 = ⟨g.size⟩ := rfl
  rw [hid]
  generalize (alloc { kind := .choice } g).2 = h
  rcases update ⟨g.size⟩ (fun n => { n with branches := branches.takeWhile h.contains }) h
    with ⟨answer, h'⟩
  cases answer with
  | error e => rfl
  | ok u => cases branches.drop (branches.takeWhile h.contains).length <;> rfl

theorem choice_closed (branches : List StateId) : Keeps (Closed rules) (choice branches) := by
  refine .of_keeps fun g hg => ?_
  have halloc : (alloc { kind := .choice } g).2.Closed rules := hg.alloc ⟨nofun, nofun⟩
  rw [choice_snd]
  generalize (alloc { kind := .choice } g).2 = h at halloc ⊢
  refine update_closed halloc fun node hnode => hnode.withBranches fun j hj => ?_
  have hcontains : h.contains j = true := List.mem_takeWhile_imp hj
  exact of_decide_eq_true hcontains

theorem setToken_closed (id : StateId) (token : Option TokenId) :
    Keeps (Closed rules) (setToken id token) :=
  .of_keeps fun _ hg => update_closed hg fun _ h => ⟨h.states, h.rule⟩

/-! ## Copies -/

theorem successors_rename (f : StateId → StateId) (node : Node) :
    (node.rename f).successors = node.successors.map f := by
  rcases node with ⟨kind, token, annotations, branches⟩
  cases kind <;> simp [Node.rename, Node.successors, Node.child?]

theorem bounded_rename {size size' : Nat} {node : Node} (h : node.Bounded size rules)
    {f : StateId → StateId} (hf : ∀ j, (f j).index < size') :
    (node.rename f).Bounded size' rules where
  states := by
    intro j hj
    rw [successors_rename] at hj
    obtain ⟨i, -, rfl⟩ := List.mem_map.1 hj
    exact hf i
  rule := by
    intro id hid
    refine h.rule id ?_
    rcases node with ⟨kind, token, annotations, branches⟩
    cases kind with
    | terminal rule => exact hid
    | repetition child min max => cases hid
    | choice => cases hid

/-- The places of a walk are those of the states that it met. -/
structure Walk.Placed (g : Graph) (rules : Nat) (w : Walk) : Prop where
  met : ∀ node ∈ w.met, node.Bounded g.size rules
  place : ∀ id : StateId, w.place.getD id 0 ≤ w.met.size - 1

theorem walkFrom_placed (hg : g.Closed rules) (fuel : Nat) {pending : List StateId} {w w' : Walk}
    (hw : w.Placed g rules) (h : g.walkFrom fuel pending w = .ok w') : w'.Placed g rules := by
  induction fuel generalizing pending w with
  | zero =>
    cases h
    exact hw
  | succ fuel ih =>
    unfold walkFrom at h
    split at h
    · cases h
      exact hw
    · next id pending' _ =>
      obtain ⟨node, hnode, h⟩ := bind_eq_ok_iff.1 h
      refine ih ⟨fun n hn => ?_, fun i => ?_⟩ h
      · rcases Array.mem_push.1 hn with hn | rfl
        · exact hw.met n hn
        · exact hg id n (node_eq_ok_iff.1 hnode)
      · have hplace := hw.place i
        show (w.place.insert id w.met.size).getD i 0 ≤ (w.met.push node).size - 1
        rw [Std.HashMap.getD_insert, Array.size_push]
        split <;> omega

theorem copy_closed (root : StateId) : Keeps (Closed rules) (copy root) := by
  refine .of_keeps fun g hg => ?_
  show Closed rules ((ofExcept (g.walk root) >>= _) g).2
  rw [bind_apply, ofExcept_apply]
  cases hw : g.walk root with
  | error e => exact hg
  | ok w =>
    have hplaced : w.Placed g rules := walkFrom_placed hg _ ⟨by simp, by simp⟩ hw
    show Closed rules { nodes := g.nodes ++ w.met.map (Node.rename fun id =>
      ⟨g.size + w.place.getD id 0⟩) }
    intro id node hnode
    have hmem := Array.mem_of_getElem? hnode
    rw [show Graph.size _ = g.size + w.met.size by simp [size]]
    rcases Array.mem_append.1 hmem with h | h
    · obtain ⟨i, hi⟩ := Array.mem_iff_getElem?.1 h
      exact (hg ⟨i⟩ node hi).mono (Nat.le_add_right ..) (Nat.le_refl _)
    · obtain ⟨n, hn, rfl⟩ := Array.mem_map.1 h
      -- a state was met, so there is a place for each state that it names
      have hpos : 0 < w.met.size := Array.size_pos_of_mem hn
      refine bounded_rename (hplaced.met n hn) fun j => ?_
      have hplace := hplaced.place j
      show g.size + w.place.getD j 0 < g.size + w.met.size
      omega

end Graph

end Lexigraph
