/-
# Lexigraph.Proofs.Graph.Edit -- what an edit does to each state

An added state is found under the number that was answered, and an edited one changed;
all others are what they were. So edits of different states may be made in either order, and
an edit of a state that is there before or after another one is added.
-/

import Lexigraph.Graph

namespace Lexigraph.Graph

variable {g h : Graph} {id : StateId} {node : Node}

/-- Graphs with the same states under the same numbers are the same. -/
theorem ext_node? (heq : ∀ id, g.node? id = h.node? id) : g = h := by
  have hnodes : g.nodes = h.nodes := Array.ext_getElem? fun i => heq ⟨i⟩
  cases g
  cases h
  exact congrArg Graph.mk hnodes

theorem lt_size_of_node? (h : g.node? id = some node) : id.index < g.size :=
  (Array.getElem?_eq_some_iff.1 h).1

theorem exists_node?_of_lt_size (h : id.index < g.size) : ∃ node, g.node? id = some node :=
  ⟨g.nodes[id.index], Array.getElem?_eq_getElem h⟩

/-! ## Adding a state -/

theorem size_alloc (node : Node) (g : Graph) : (alloc node g).2.size = g.size + 1 :=
  Array.size_push node

theorem node?_alloc_self (node : Node) (g : Graph) :
    (alloc node g).2.node? (alloc node g).1 = some node :=
  Array.getElem?_push_size

theorem node?_alloc_of_lt (node : Node) (h : id.index < g.size) :
    (alloc node g).2.node? id = g.node? id := by
  show (g.nodes.push node)[id.index]? = g.nodes[id.index]?
  have hne : ¬ id.index = g.nodes.size := Nat.ne_of_lt h
  rw [Array.getElem?_push, if_neg hne]

theorem node?_alloc {node' : Node} (node : Node) (h : g.node? id = some node') :
    (alloc node g).2.node? id = some node' := by
  rw [node?_alloc_of_lt node (lt_size_of_node? h), h]

/-- What is found in a graph with a state added was there or is the added state. -/
theorem eq_or_eq_of_node?_alloc {n : Node} (h : (alloc node g).2.node? id = some n) :
    g.node? id = some n ∨ n = node := by
  have hfound : (g.nodes.push node)[id.index]? = some n := h
  rw [Array.getElem?_push] at hfound
  split at hfound
  · exact .inr (Option.some.inj hfound).symm
  · exact .inl hfound

/-! ## Changing a state -/

theorem size_edit (id : StateId) (f : Node → Node) (g : Graph) : (edit id f g).2.size = g.size :=
  Array.size_modify

theorem node?_edit_self (f : Node → Node) (h : g.node? id = some node) :
    (edit id f g).2.node? id = some (f node) := by
  show (g.nodes.modify id.index f)[id.index]? = _
  rw [Array.getElem?_modify, if_pos rfl, show g.nodes[id.index]? = some node from h]
  rfl

theorem node?_edit_of_ne {i : StateId} (f : Node → Node) (h : id ≠ i) :
    (edit id f g).2.node? i = g.node? i := by
  have hne : ¬ id.index = i.index := fun heq => h (by
    rcases id with ⟨id⟩
    rcases i with ⟨i⟩
    exact congrArg StateId.mk heq)
  show (g.nodes.modify id.index f)[i.index]? = g.nodes[i.index]?
  rw [Array.getElem?_modify, if_neg hne]

/-- What is found in a graph with a state changed was there or is the changed state. -/
theorem eq_or_eq_of_node?_edit {i : StateId} {n : Node} {f : Node → Node}
    (h : (edit id f g).2.node? i = some n) :
    g.node? i = some n ∨ ∃ node, g.node? id = some node ∧ n = f node := by
  by_cases hid : id = i
  · subst hid
    have hlt := lt_size_of_node? h
    rw [size_edit] at hlt
    obtain ⟨node, hnode⟩ := exists_node?_of_lt_size hlt
    rw [node?_edit_self f hnode] at h
    exact .inr ⟨node, hnode, (Option.some.inj h).symm⟩
  · rw [node?_edit_of_ne f hid] at h
    exact .inl h

/-- An edit that makes no difference to the state leaves all as it was. -/
theorem edit_eq_self {f : Node → Node} (h : g.node? id = some node) (hf : f node = node) :
    (edit id f g).2 = g := by
  apply ext_node?
  intro i
  by_cases hid : id = i
  · subst hid
    rw [node?_edit_self f h, hf, h]
  · exact node?_edit_of_ne f hid

/-! ## One edit after another -/

/-- Of two edits of one state nothing is left but what they come to. -/
theorem edit_edit {f f' f'' : Node → Node} (h : g.node? id = some node)
    (hf : f' (f node) = f'' node) : (edit id f' (edit id f g).2).2 = (edit id f'' g).2 := by
  apply ext_node?
  intro i
  by_cases hid : id = i
  · subst hid
    rw [node?_edit_self f' (node?_edit_self f h), node?_edit_self f'' h, hf]
  · rw [node?_edit_of_ne f' hid, node?_edit_of_ne f hid, node?_edit_of_ne f'' hid]

/-- Edits of two states may be made in either order. -/
theorem edit_comm {i : StateId} (f f' : Node → Node) (hne : id ≠ i) (g : Graph) :
    (edit i f' (edit id f g).2).2 = (edit id f (edit i f' g).2).2 := by
  show Graph.mk ((g.nodes.modify id.index f).modify i.index f') =
    Graph.mk ((g.nodes.modify i.index f').modify id.index f)
  congr 1
  apply Array.ext_getElem?
  intro k
  simp only [Array.getElem?_modify]
  by_cases hid : id.index = k
  · have hi : ¬ i.index = k := fun hi => hne (by
      rcases id with ⟨id⟩
      rcases i with ⟨i⟩
      exact congrArg StateId.mk (hid.trans hi.symm))
    simp only [if_pos hid, if_neg hi]
  · simp only [if_neg hid]

/-- A state that is there may be edited before another one is added or after. -/
theorem alloc_edit (f : Node → Node) (node : Node) (hid : id.index < g.size) :
    alloc node (edit id f g).2 = ((alloc node g).1, (edit id f (alloc node g).2).2) := by
  have hsize : (edit id f g).2.size = g.size := size_edit id f g
  refine Prod.ext (congrArg StateId.mk hsize) ?_
  show Graph.mk ((g.nodes.modify id.index f).push node) =
    Graph.mk ((g.nodes.push node).modify id.index f)
  congr 1
  apply Array.ext_getElem?
  intro k
  simp only [Array.getElem?_modify, Array.getElem?_push, Array.size_modify]
  by_cases hk : k = g.nodes.size
  · have hne : ¬ id.index = k := fun h => Nat.ne_of_lt hid (h.trans hk)
    rw [if_pos hk, if_pos hk, if_neg hne]
  · rw [if_neg hk, if_neg hk]

/-- To edit what was just added is to add what comes of it. -/
theorem edit_alloc (f : Node → Node) (node : Node) (g : Graph) :
    (edit (alloc node g).1 f (alloc node g).2).2 = (alloc (f node) g).2 := by
  apply ext_node?
  intro i
  by_cases hid : (alloc node g).1 = i
  · subst hid
    rw [node?_edit_self f (node?_alloc_self node g)]
    exact (node?_alloc_self (f node) g).symm
  · rw [node?_edit_of_ne f hid]
    have hne : ¬ i.index = g.nodes.size := fun h => hid (congrArg StateId.mk h.symm)
    show (g.nodes.push node)[i.index]? = (g.nodes.push (f node))[i.index]?
    rw [Array.getElem?_push, Array.getElem?_push, if_neg hne, if_neg hne]

end Lexigraph.Graph
