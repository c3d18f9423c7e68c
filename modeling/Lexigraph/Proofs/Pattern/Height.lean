/-
# Lexigraph.Proofs.Pattern.Height -- how high a pattern is

The height of a pattern is the number of patterns on the longest way down. It bounds the
nesting of whatever follows the pattern, and falls with every step down.
-/

import Lexigraph.Pattern

namespace Lexigraph

namespace Pattern

mutual

/-- How many patterns stand below one another in a pattern, itself included. -/
def height (p : Pattern) : Nat :=
  match p with
  | .terminal _ _ _ branches => heightAll branches + 1
  | .repetition _ child _ _ _ branches => max (height child) (heightAll branches) + 1
  | .choice _ _ branches => heightAll branches + 1

/-- The height of the highest of some patterns. -/
def heightAll (ps : List Pattern) : Nat :=
  match ps with
  | [] => 0
  | p :: ps => max (height p) (heightAll ps)

end

theorem height_pos (p : Pattern) : 0 < p.height := by
  cases p <;> exact Nat.succ_pos _

theorem height_le_heightAll {p : Pattern} {ps : List Pattern} (h : p ∈ ps) :
    p.height ≤ heightAll ps := by
  induction ps with
  | nil => cases h
  | cons q ps ih =>
    rw [heightAll]
    rcases List.mem_cons.1 h with rfl | h
    · exact Nat.le_max_left _ _
    · exact Nat.le_trans (ih h) (Nat.le_max_right _ _)

theorem exists_height_eq_heightAll {ps : List Pattern} (h : 0 < heightAll ps) :
    ∃ p ∈ ps, p.height = heightAll ps := by
  induction ps with
  | nil => cases h
  | cons q ps ih =>
    rw [heightAll] at h ⊢
    by_cases hle : heightAll ps ≤ q.height
    · exact ⟨q, List.mem_cons_self, (Nat.max_eq_left hle).symm⟩
    · obtain ⟨p, hp, heq⟩ := ih (by omega)
      exact ⟨p, List.mem_cons_of_mem _ hp, by omega⟩

end Pattern

end Lexigraph
