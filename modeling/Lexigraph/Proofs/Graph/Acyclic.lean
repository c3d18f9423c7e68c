/-
# Lexigraph.Proofs.Graph.Acyclic -- chains of names that do not close

From an acyclic state no chain of names comes back to where it was. No state stands twice in
such a chain, then, so it has one state more than the graph at most, and one of the chains is
the longest. The other way round, where all chains are bounded none of them closes
(`Within.acyclic`): a chain that did could be gone along again and again.
-/

import Mathlib.Data.List.Nodup
import Mathlib.Data.List.Perm.Subperm
import Mathlib.Data.Nat.Find
import Lexigraph.Proofs.Graph.Edit
import Lexigraph.Proofs.Graph.Reach

namespace Lexigraph.Graph

/-- A chain of names from a state on, with the states in order. -/
inductive IsPath (g : Graph) : StateId → List StateId → Prop
  | single (id : StateId) : IsPath g id [id]
  | cons {i j : StateId} {path : List StateId} (hnames : g.Names i j) (hpath : IsPath g j path) :
    IsPath g i (i :: path)

/-- No chain of names that begins at the state comes to any state twice. -/
def Acyclic (g : Graph) (root : StateId) : Prop :=
  ∀ id, g.Reaches root id → ¬ Relation.TransGen g.Names id id

/-- A path from the root with no fewer states than any other. -/
structure IsLongest (g : Graph) (root : StateId) (path : List StateId) : Prop where
  isPath : g.IsPath root path
  longest : ∀ other, g.IsPath root other → other.length ≤ path.length

variable {g : Graph} {n : Nat} {i j root : StateId} {path : List StateId}

/-! ## Bounded chains -/

instance decidableWithin (g : Graph) : ∀ n id, Decidable (g.Within n id)
  | 0, _ => .isFalse id
  | n + 1, id =>
    have (node : Node) : Decidable (∀ j ∈ node.successors, g.Within n j) :=
      have := decidableWithin g n
      inferInstance
    decidable_of_iff (∀ node ∈ g.node? id, ∀ j ∈ node.successors, g.Within n j) .rfl

theorem IsPath.length_pos (h : g.IsPath root path) : 0 < path.length := by
  cases h <;> exact Nat.succ_pos _

/-- Chains of names are bounded if paths are. -/
theorem within_iff : g.Within n root ↔ ∀ path, g.IsPath root path → path.length ≤ n := by
  induction n generalizing root with
  | zero =>
    refine ⟨False.elim, fun h => ?_⟩
    exact absurd (h [root] (.single root)) (Nat.not_succ_le_zero _)
  | succ n ih =>
    constructor
    · intro h path hpath
      cases hpath with
      | single => exact Nat.succ_le_succ (Nat.zero_le n)
      | cons hnames hpath =>
        obtain ⟨node, hnode, hj⟩ := hnames
        exact Nat.succ_le_succ (ih.1 (h node hnode _ hj) _ hpath)
    · intro h node hnode j hj
      refine ih.2 fun path hpath => ?_
      exact Nat.le_of_succ_le_succ (h _ (.cons ⟨node, hnode, hj⟩ hpath))

/-- From what a state names, no path is longer than from the state. -/
theorem Within.of_names (h : g.Within n i) (hnames : g.Names i j) : g.Within n j :=
  within_iff.2 fun _ hpath =>
    Nat.le_of_succ_le (within_iff.1 h _ (.cons hnames hpath))

theorem Within.of_reaches (h : g.Within n i) (hreaches : g.Reaches i j) : g.Within n j := by
  induction hreaches with
  | refl => exact h
  | tail _ hnames ih => exact ih.of_names hnames

/-- Where paths are bounded, none leads back to where it begins. -/
theorem Within.not_transGen (h : g.Within n i) : ¬ Relation.TransGen g.Names i i := by
  induction n generalizing i with
  | zero => exact h.elim
  | succ n ih =>
    intro hcycle
    -- the cycle can be entered one state later, where paths are shorter by one
    obtain ⟨j, ⟨node, hnode, hj⟩, hback⟩ := Relation.TransGen.head'_iff.1 hcycle
    exact ih (h node hnode j hj) (.tail' hback ⟨node, hnode, hj⟩)

/-- **Bounded chains of names do not close.** -/
theorem Within.acyclic (h : g.Within n root) : g.Acyclic root :=
  fun _ hreaches => (h.of_reaches hreaches).not_transGen

/-! ## Acyclic states -/

theorem Acyclic.of_names (h : g.Acyclic i) (hnames : g.Names i j) : g.Acyclic j :=
  fun id hreaches => h id (.head hnames hreaches)

theorem IsPath.reaches (h : g.IsPath root path) : ∀ id ∈ path, g.Reaches root id := by
  induction h with
  | single id =>
    intro j hj
    rw [List.mem_singleton.1 hj]
    exact .refl
  | cons hnames _ ih =>
    intro k hk
    rcases List.mem_cons.1 hk with rfl | hk
    · exact .refl
    · exact .head hnames (ih k hk)

theorem IsPath.nodup (h : g.IsPath root path) (hroot : g.Acyclic root) : path.Nodup := by
  induction h with
  | single id => exact List.nodup_singleton id
  | @cons i j path hnames hpath ih =>
    refine List.nodup_cons.2 ⟨fun hmem => ?_, ih (hroot.of_names hnames)⟩
    exact hroot i .refl (.head' hnames (hpath.reaches i hmem))

/-- All states of a path name the next one, up to the last. -/
theorem IsPath.lt_size_of_mem_dropLast (h : g.IsPath root path) :
    ∀ id ∈ path.dropLast, id.index < g.size := by
  induction h with
  | single => exact nofun
  | @cons i j path hnames hpath ih =>
    obtain ⟨node, hnode, -⟩ := hnames
    rw [List.dropLast_cons_of_ne_nil (List.ne_nil_of_length_pos hpath.length_pos)]
    intro id hid
    rcases List.mem_cons.1 hid with rfl | hid
    · exact lt_size_of_node? hnode
    · exact ih id hid

/-- The last state of a path may be unknown to the graph, but no other one. -/
theorem IsPath.length_le (h : g.IsPath root path) (hroot : g.Acyclic root) :
    path.length ≤ g.size + 1 := by
  have hnodup : (path.dropLast.map StateId.index).Nodup :=
    ((h.nodup hroot).sublist (List.dropLast_sublist path)).map fun _ _ => congrArg StateId.mk
  have hsubset : path.dropLast.map StateId.index ⊆ List.range g.size := by
    intro index hindex
    obtain ⟨id, hid, rfl⟩ := List.mem_map.1 hindex
    exact List.mem_range.2 (h.lt_size_of_mem_dropLast id hid)
  have hle := (hnodup.subperm hsubset).length_le
  rw [List.length_map, List.length_dropLast, List.length_range] at hle
  omega

/-- **Chains of names from an acyclic state are no longer than there are states**, but for one
that is unknown. -/
theorem Acyclic.within (h : g.Acyclic root) : g.Within (g.size + 1) root :=
  within_iff.2 fun _ hpath => hpath.length_le h

/-- One of the paths from an acyclic state is the longest. -/
theorem Acyclic.exists_isLongest (h : g.Acyclic root) : ∃ path, g.IsLongest root path := by
  classical
  have hbounded : ∃ n, g.Within n root := ⟨_, h.within⟩
  obtain ⟨n, hn⟩ : ∃ n, Nat.find hbounded = n + 1 := by
    refine Nat.exists_eq_succ_of_ne_zero fun hzero => ?_
    have hwithin := Nat.find_spec hbounded
    rw [hzero] at hwithin
    exact hwithin
  -- the bound is least, so it is the length of some path
  have hnot : ¬ g.Within n root := Nat.find_min hbounded (hn ▸ Nat.lt_succ_self n)
  rw [within_iff] at hnot
  push Not at hnot
  obtain ⟨path, hpath, hlt⟩ := hnot
  refine ⟨path, hpath, fun other hother => ?_⟩
  have hle := within_iff.1 (Nat.find_spec hbounded) other hother
  omega

theorem IsLongest.within (h : g.IsLongest root path) : g.Within path.length root :=
  within_iff.2 h.longest

end Lexigraph.Graph
