/-
# Lexigraph.Proofs.Passage.Depth -- how deep is deep enough

There are only so many states and places in a source, and with each depth either some more
of them come to an end or none ever will. So an evaluation that comes to an end at all does
so within the depth that scans without limits are given (`evaluate_of_ends`).
-/

import Mathlib.Data.Fintype.Prod
import Mathlib.Order.Monotone.Basic
import Lexigraph.Proofs.Passage.Agree

namespace Lexigraph

namespace Passage

/-- A state of the graph, a beginning of uncovered text and a position. -/
abbrev Place (g : Grammar) (source : Source) : Type :=
  Fin g.graph.size × Fin (source.size + 1) × Fin (source.size + 1)

/-- The places from which evaluations end within a depth. -/
def ended (g : Grammar) (source : Source) (shortfall : Shortfall) (depth : Nat) :
    Finset (Place g source) :=
  Finset.univ.filter fun (id, start, position) => start ≤ position ∧
    evaluate g source shortfall depth ⟨id⟩ start position ≠ .error .endless

/-- How many places there are. -/
def placeCount (g : Grammar) (source : Source) : Nat :=
  g.graph.size * ((source.size + 1) * (source.size + 1))

variable {g : Grammar} {source : Source} {shortfall : Shortfall} {start position : Nat}

theorem mem_ended {depth : Nat} {id : Fin g.graph.size}
    {start position : Fin (source.size + 1)} :
    (id, start, position) ∈ ended g source shortfall depth ↔ start ≤ position ∧
      evaluate g source shortfall depth ⟨id⟩ start position ≠ .error .endless := by
  simp [ended]

theorem card_ended_le (depth : Nat) :
    (ended g source shortfall depth).card ≤ placeCount g source := by
  refine (Finset.card_le_univ _).trans_eq ?_
  rw [Fintype.card_prod, Fintype.card_prod, Fintype.card_fin, Fintype.card_fin]
  rfl

theorem ended_mono : Monotone (ended g source shortfall) := by
  rintro depth depth' hle ⟨id, start, position⟩ hmem
  obtain ⟨hordered, hends⟩ := mem_ended.1 hmem
  have hw : Within source start position := ⟨hordered, Nat.le_of_lt_succ position.isLt⟩
  exact mem_ended.2 ⟨hordered, by rwa [evaluate_of_le hle hw hends]⟩

/-- A state that is not there is an error at every depth. -/
theorem evaluate_unknown {id : StateId} (hid : ¬ id.index < g.graph.size) (depth : Nat) :
    evaluate g source shortfall (depth + 1) id start position =
      .error (.error (.grammar (.unknownState id))) := by
  have hnode : g.graph.node id = .error (.unknownState id) := by
    have hnone : g.graph.node? id = none := Array.getElem?_eq_none (Nat.le_of_not_lt hid)
    exact Graph.node_eq_error_iff.2 ⟨hnone, rfl⟩
  show ofState g source shortfall _ id start position = _
  unfold ofState
  rw [hnode]

/-- Where every place of the graph that ends within a depth ends within another one, so does every
state. -/
theorem ends_of_ended_subset {depth depth' : Nat}
    (hsub : ended g source shortfall (depth + 1) ⊆ ended g source shortfall (depth' + 1))
    {id : StateId} (hw : Within source start position)
    (hends : evaluate g source shortfall (depth + 1) id start position ≠ .error .endless) :
    evaluate g source shortfall (depth' + 1) id start position ≠ .error .endless := by
  by_cases hid : id.index < g.graph.size
  · have hstart : start < source.size + 1 :=
      Nat.lt_succ_of_le (Nat.le_trans hw.ordered hw.inside)
    have hposition : position < source.size + 1 := Nat.lt_succ_of_le hw.inside
    have hmem : (⟨id.index, hid⟩, ⟨start, hstart⟩, ⟨position, hposition⟩) ∈
        ended g source shortfall (depth + 1) := mem_ended.2 ⟨hw.ordered, hends⟩
    exact (mem_ended.1 (hsub hmem)).2
  · rw [evaluate_unknown hid]
    nofun

/-- Once a depth adds no place, the next one adds none either. -/
theorem ended_stable {depth : Nat}
    (h : ended g source shortfall (depth + 1) = ended g source shortfall (depth + 2)) :
    ended g source shortfall (depth + 2) = ended g source shortfall (depth + 3) := by
  have hback : Agrees source (fun _ => True) (fun _ => True)
      (evaluate g source shortfall (depth + 2)) (evaluate g source shortfall (depth + 1)) := by
    intro id _ start position hw
    by_cases hend : evaluate g source shortfall (depth + 2) id start position = .error .endless
    · exact .inl hend
    · have hends := ends_of_ended_subset h.ge hw hend
      exact .inr ⟨evaluate_of_le (Nat.le_succ _) hw hends, evaluate_allowed (.all g source) trivial hw⟩
  refine (ended_mono (Nat.le_succ _)).antisymm ?_
  rintro ⟨id, start, position⟩ hmem
  obtain ⟨hordered, hends⟩ := mem_ended.1 hmem
  have hw : Within source start position := ⟨hordered, Nat.le_of_lt_succ position.isLt⟩
  -- the two depths before agree both ways, so the state comes to the same at both of these
  have hstate : Agrees source (fun _ => True) (fun _ => True)
      (evaluate g source shortfall (depth + 3)) (evaluate g source shortfall (depth + 2)) :=
    ofState_agrees (.all g source) hback
  rcases hstate ⟨id⟩ trivial start position hw with hend | ⟨heq, -⟩
  · exact absurd hend hends
  · exact mem_ended.2 ⟨hordered, fun hend => hends (heq.trans hend)⟩

/-- Beyond as many depths as there are places, none is added. -/
theorem ended_eq {depth : Nat} (hle : placeCount g source ≤ depth) :
    ended g source shortfall (depth + 1) = ended g source shortfall (placeCount g source + 1) := by
  have hmono : Monotone fun n => (ended g source shortfall (n + 1)).card := fun _ _ h =>
    Finset.card_le_card (ended_mono (Nat.succ_le_succ h))
  have hsame : ∀ n, (ended g source shortfall (n + 1)).card =
      (ended g source shortfall (n + 2)).card →
      ended g source shortfall (n + 1) = ended g source shortfall (n + 2) := fun n h =>
    Finset.eq_of_subset_of_card_le (ended_mono (Nat.le_succ _)) h.ge
  have hcard := Nat.stabilises_of_monotone hmono (fun n => card_ended_le (n + 1))
    (fun n h => congrArg Finset.card (ended_stable (hsame n h))) hle
  exact (Finset.eq_of_subset_of_card_le (ended_mono (Nat.succ_le_succ hle)) hcard.le).symm

/-- **What comes to an end does so within as many depths as there are places**, and one more. -/
theorem evaluate_of_ends {depth : Nat} {id : StateId} (hw : Within source start position)
    (hends : evaluate g source shortfall depth id start position ≠ .error .endless) :
    evaluate g source shortfall (placeCount g source + 1) id start position =
      evaluate g source shortfall depth id start position := by
  cases depth with
  | zero => exact absurd rfl hends
  | succ depth =>
    rcases Nat.le_total depth (placeCount g source) with hle | hle
    · exact evaluate_of_le (Nat.succ_le_succ hle) hw hends
    · have heq : ended g source shortfall (depth + 1) = _ := ended_eq hle
      have hends' := ends_of_ended_subset heq.le hw hends
      exact (evaluate_of_le (Nat.succ_le_succ hle) hw hends').symm

/-- A state comes to one end at most. -/
theorem Evaluates.unique {id : StateId} {q q' : Except ScanError Passage}
    (hw : Within source start position) (h : Evaluates g source shortfall id start position q)
    (h' : Evaluates g source shortfall id start position q') : q = q' := by
  obtain ⟨depth, hq⟩ := h
  obtain ⟨depth', hq'⟩ := h'
  have hends : ∀ q : Except ScanError Passage,
      (q.mapError .error : Except (Stop ScanError) Passage) ≠ .error .endless := by
    rintro (e | p) he <;> cases he
  have heq := (evaluate_of_ends hw (hq ▸ hends q)).symm.trans (evaluate_of_ends hw (hq' ▸ hends q'))
  rw [hq, hq'] at heq
  cases q <;> cases q' <;> cases heq <;> rfl

end Passage

end Lexigraph
