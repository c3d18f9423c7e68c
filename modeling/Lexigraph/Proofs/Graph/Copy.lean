/-
# Lexigraph.Proofs.Graph.Copy -- a copy has the shape of what was copied

A copy adds one state for each state that its root reaches and leaves all others alone. The
renaming of the one into the other is a bijection, and a copied state names the copies of
what its original names (`IsCopy`); so no copied state names an old one (`IsCopy.inward`).
A copy is refused exactly where the root reaches a state that is not there, and nothing is
changed then (`copy_copied`).
-/

import Mathlib.Data.Set.Function
import Lexigraph.Proofs.Attempt
import Lexigraph.Proofs.Graph.Closed
import Lexigraph.Proofs.Graph.Walk

namespace Lexigraph.Graph

variable {g g' : Graph} {root : StateId} {f : StateId → StateId}

/-- The second graph is the first one with a copy of all that `root` reaches; `f` answers the copy
of each state. -/
structure IsCopy (g : Graph) (root : StateId) (f : StateId → StateId) (g' : Graph) : Prop where
  /-- What was there is there as it was. -/
  old : ∀ id, id.index < g.size → g'.node? id = g.node? id
  /-- A copy is its original with the states that it names renamed. -/
  copied : ∀ id node, g.Reaches root id → g.node? id = some node →
    g'.node? (f id) = some (node.rename f)
  /-- There is one new state for each state that the root reaches. -/
  bijOn : Set.BijOn f {id | g.Reaches root id} {id | g.size ≤ id.index ∧ id.index < g'.size}

/-- How a copy comes out: it is made, or it is refused and changes nothing. -/
inductive Copied (g : Graph) (root : StateId) : Except GrammarError StateId × Graph → Prop
  | made {f : StateId → StateId} {g' : Graph}
      (there : ∀ id, g.Reaches root id → ∃ node, g.node? id = some node)
      (copy : g.IsCopy root f g') : Copied g root (.ok (f root), g')
  | refused {id : StateId} (reached : g.Reaches root id) (missing : g.node? id = none) :
      Copied g root (.error (.unknownState id), g)

/-- No edge leads from a copy to an older state. -/
theorem IsCopy.inward (h : g.IsCopy root f g')
    (there : ∀ id, g.Reaches root id → ∃ node, g.node? id = some node) {i j : StateId}
    (hi : g.size ≤ i.index) (hnames : g'.Names i j) : g.size ≤ j.index := by
  obtain ⟨node', hnode', hj⟩ := hnames
  obtain ⟨k, hk, rfl⟩ := h.bijOn.surjOn ⟨hi, lt_size_of_node? hnode'⟩
  obtain ⟨node, hnode⟩ := there k hk
  rw [h.copied k node hk hnode] at hnode'
  obtain rfl := Option.some.inj hnode'
  rw [successors_rename] at hj
  obtain ⟨l, hl, rfl⟩ := List.mem_map.1 hj
  exact (h.bijOn.mapsTo (hk.tail ⟨node, hnode, hl⟩)).1

/-- All that a copy reaches is new. -/
theorem IsCopy.le_of_reaches (h : g.IsCopy root f g')
    (there : ∀ id, g.Reaches root id → ∃ node, g.node? id = some node) {i : StateId}
    (hi : g'.Reaches (f root) i) : g.size ≤ i.index := by
  induction hi with
  | refl => exact (h.bijOn.mapsTo .refl).1
  | tail _ hnames ih => exact h.inward there ih hnames

/-! ## Copying -/

section Walked

variable {ids : List StateId} {w : Walk}

/-- The states met, renamed by their places and added to the graph, are a copy. -/
theorem Walk.Tours.isCopy (h : Walk.Tours g root ids [] w) :
    g.IsCopy root (fun id => ⟨g.size + w.place.getD id 0⟩)
      { nodes := g.nodes ++ w.met.map (Node.rename fun id => ⟨g.size + w.place.getD id 0⟩) } := by
  generalize hrename : (fun id : StateId => (⟨g.size + w.place.getD id 0⟩ : StateId)) = rename
  have hplace : ∀ n id, ids[n]? = some id → rename id = ⟨g.size + n⟩ := by
    intro n id hn
    subst hrename
    show (⟨g.size + w.place.getD id 0⟩ : StateId) = _
    rw [Std.HashMap.getD_eq_getD_getElem?, (h.place id n).2 hn, Option.getD_some]
  have hsize : Graph.size { nodes := g.nodes ++ w.met.map (Node.rename rename) } =
      g.size + ids.length := by
    simp [Graph.size, h.size]
  refine ⟨fun id hid => ?_, fun id node hid hnode => ?_, ?_, ?_, ?_⟩
  · exact Array.getElem?_append_left hid
  · obtain ⟨n, hn⟩ := List.mem_iff_getElem?.1 (h.mem_iff.2 hid)
    obtain ⟨node', hnode', hmet⟩ := h.met n id hn
    rw [hnode] at hnode'
    obtain rfl := Option.some.inj hnode'
    rw [hplace n id hn]
    show (g.nodes ++ w.met.map (Node.rename rename))[g.nodes.size + n]? = _
    rw [Array.getElem?_append_right (Nat.le_add_right ..), Nat.add_sub_cancel_left,
      Array.getElem?_map, hmet, Option.map_some]
  · intro id hid
    obtain ⟨n, hn⟩ := List.mem_iff_getElem?.1 (h.mem_iff.2 hid)
    have hlt := (List.getElem?_eq_some_iff.1 hn).1
    show g.size ≤ (rename id).index ∧ (rename id).index < _
    rw [hplace n id hn, hsize]
    exact ⟨Nat.le_add_right .., Nat.add_lt_add_left hlt _⟩
  · intro i hi j hj heq
    obtain ⟨m, hm⟩ := List.mem_iff_getElem?.1 (h.mem_iff.2 hi)
    obtain ⟨n, hn⟩ := List.mem_iff_getElem?.1 (h.mem_iff.2 hj)
    rw [hplace m i hm, hplace n j hn] at heq
    -- states with the same copy have the same place, and there is one state at each place
    obtain rfl : m = n := Nat.add_left_cancel (StateId.mk.inj heq)
    exact Option.some.inj (hm.symm.trans hn)
  · rintro ⟨index⟩ ⟨hle, hlt⟩
    rw [hsize] at hlt
    obtain ⟨n, rfl⟩ := Nat.exists_eq_add_of_le hle
    have hn : ids[n]? = some ids[n] := List.getElem?_eq_getElem (Nat.lt_of_add_lt_add_left hlt)
    exact ⟨_, h.mem_iff.1 (List.mem_of_getElem? hn), hplace n _ hn⟩

end Walked

/-- **A copy is made or refused.** -/
theorem copy_copied (g : Graph) (root : StateId) : Copied g root (copy root g) := by
  show Copied g root ((Attempt.ofExcept (g.walk root) >>= _) g)
  rw [Attempt.bind_apply, Attempt.ofExcept_apply]
  have hwalk := walk_walked g root
  revert hwalk
  cases g.walk root with
  | error e =>
    rintro ⟨id, rfl, hreached, hmissing⟩
    exact .refused hreached hmissing
  | ok w =>
    rintro ⟨ids, htours⟩
    refine .made (fun id hid => ?_) htours.isCopy
    exact htours.node? (htours.mem_iff.2 hid)

/-- A choice between another state, twice, and itself; the other state repeats the choice. -/
def knot : Graph where
  nodes := #[
    { kind := .choice, branches := [⟨1⟩, ⟨1⟩, ⟨0⟩] },
    { kind := .repetition ⟨0⟩ 1 none }]

example : (copy ⟨1⟩ knot).2.nodes = knot.nodes ++ #[
    { kind := .repetition ⟨3⟩ 1 none },
    { kind := .choice, branches := [⟨2⟩, ⟨2⟩, ⟨3⟩] }] := by
  cbv

end Lexigraph.Graph
