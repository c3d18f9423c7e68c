/-
# Lexigraph.Proofs.Grammar.Copy -- a copy does what its original does

A copy of a state is a twin of the state: each state that the original reaches is found again
under the copy, made the same, and the rules and tokens of the grammar serve both. So the two
scan, run and read the same, but for the numbers of the states below them (`copy_twin`). Of the
graph nothing is asked: what states name may be shared, may lead in circles, and may be missing
where the original does not reach it.
-/

import Lexigraph.Proofs.Graph.Copy
import Lexigraph.Proofs.Session.Mirror

namespace Lexigraph.Grammar

open Session (Fresh scan run renamed)

variable {g : Grammar} {graph : Graph} {root : StateId} {f : StateId → StateId}

/-- State `j` scans, runs and reads as state `i`, but for the states they reach: in place of
`id` below the first there is `f id` below the second. -/
structure Twin (g : Grammar) (f : StateId → StateId) (i j : StateId) : Prop where
  scans : ∀ s, Fresh s → scan g j s = renamed f (scan g i s)
  runs : ∀ s, Fresh s → run g j s = renamed f (run g i s)
  reads : g.textOf j = (g.textOf i).mapError (.rename f)

/-- What a state reaches is found again under its copy. -/
theorem mirrors_of_isCopy (g : Grammar) (hcopy : graph.IsCopy root f g.graph)
    (there : ∀ id, graph.Reaches root id → ∃ node, graph.node? id = some node) :
    g.Mirrors (graph.Reaches root) f g := by
  have hold : ∀ id, graph.Reaches root id → g.graph.node? id = graph.node? id := by
    intro id hid
    obtain ⟨node, hnode⟩ := there id hid
    exact hcopy.old id (Graph.lt_size_of_node? hnode)
  refine ⟨?_, ?_, ?_, fun _ _ _ _ _ _ => rfl, fun _ _ h => h, hcopy.bijOn.injOn⟩
  · intro id node hid hnode j hj
    rw [hold id hid] at hnode
    exact hid.tail ⟨node, hnode, hj⟩
  · intro id hid
    rw [hold id hid]
    exact there id hid
  · intro id node hid hnode
    rw [hold id hid] at hnode
    exact hcopy.copied id node hid hnode

/-- An answer that is retold within one grammar is the same but for the states. -/
theorem Retells.eq_mapError {α : Type} {x y : Except GrammarError α} (h : Retells g g f x y) :
    y = x.mapError (.rename f) := by
  cases h with
  | same => rfl
  | learnt unknown known => cases unknown.symm.trans known

theorem Mirrors.twin {states : StateId → Prop} (hm : g.Mirrors states f g) {i : StateId}
    (hi : states i) : g.Twin f i (f i) where
  scans _ hs := Session.scan_eq_renamed hm hi hs
  runs _ hs := Session.run_eq_renamed hm hi hs
  reads := (hm.textOf hi).eq_mapError

/-- **A copy is a twin.** In any graph, copying a state is refused exactly if the state reaches one
that is not there, and then it changes nothing. Else it adds one state for each that is reached,
with its contents and with what it names renamed, and changes no other; no edge leads out of the
copy. In every grammar with the graph, the copy then scans, runs and reads as the original. -/
theorem copy_twin (graph : Graph) (root : StateId) :
    (∃ id, graph.Reaches root id ∧ graph.node? id = none ∧
      Graph.copy root graph = (.error (.unknownState id), graph)) ∨
    (∀ id, graph.Reaches root id → ∃ node, graph.node? id = some node) ∧
      ∃ f graph', Graph.copy root graph = (.ok (f root), graph') ∧
        graph.IsCopy root f graph' ∧
        (∀ i j, graph.size ≤ i.index → graph'.Names i j → graph.size ≤ j.index) ∧
        ∀ g : Grammar, copy root { g with graph } = (.ok (f root), { g with graph := graph' }) ∧
          Twin { g with graph := graph' } f root (f root) := by
  have hcopied := Graph.copy_copied graph root
  generalize hcopy : Graph.copy root graph = outcome at hcopied
  cases hcopied with
  | refused reached missing => exact .inl ⟨_, reached, missing, rfl⟩
  | @made f graph' there isCopy =>
    refine .inr ⟨there, f, graph', rfl, isCopy, ?_, ?_⟩
    · intro i j hi hnames
      exact isCopy.inward there hi hnames
    · intro g
      constructor
      · have happly : copy root { g with graph } =
            ((Graph.copy root graph).1, { g with graph := (Graph.copy root graph).2 }) := rfl
        rw [happly, hcopy]
      · exact (mirrors_of_isCopy { g with graph := graph' } isCopy there).twin .refl

end Lexigraph.Grammar
