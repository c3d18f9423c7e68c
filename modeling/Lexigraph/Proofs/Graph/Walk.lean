/-
# Lexigraph.Proofs.Graph.Walk -- a walk meets what a state reaches

A walk keeps the states it has met, each once, and those that are still pending. It has met
or will meet all that its root reaches, and nothing else: that holds when it begins, and
meeting a state keeps it (`Tours.meet`). When nothing is pending any more the states met are
those that the root reaches (`Tours.mem_iff`). A walk fails only at a state that the root
reaches and that is not there, and it never runs out of steps (`walk_walked`).
-/

import Mathlib.Data.List.Nodup
import Mathlib.Data.List.Perm.Subperm
import Mathlib.Data.List.TakeWhile
import Lexigraph.Graph.Copy
import Lexigraph.Proofs.Graph.Edit
import Lexigraph.Proofs.Graph.Reach

namespace Lexigraph.Graph

variable {g : Graph} {root id : StateId} {ids pending : List StateId} {w : Walk}

/-- States of the graph without repetition are no more than the graph has. -/
theorem length_le_size (hnodup : ids.Nodup) (hids : ∀ id ∈ ids, id.index < g.size) :
    ids.length ≤ g.size := by
  have hindices : (ids.map StateId.index).Nodup := hnodup.map fun _ _ => congrArg StateId.mk
  have hsubset : ids.map StateId.index ⊆ List.range g.size := by
    intro index hindex
    obtain ⟨id, hid, rfl⟩ := List.mem_map.1 hindex
    exact List.mem_range.2 (hids id hid)
  have hle := (hindices.subperm hsubset).length_le
  rwa [List.length_map, List.length_range] at hle

/-- A state of a list with one more at the end was there before or is the one at the end. -/
theorem getElem?_concat_eq_some {j : StateId} {n : Nat} :
    (ids ++ [id])[n]? = some j ↔ ids[n]? = some j ∨ n = ids.length ∧ id = j := by
  rw [List.getElem?_append]
  by_cases hlt : n < ids.length
  · rw [if_pos hlt]
    simp [Nat.ne_of_lt hlt]
  · rw [if_neg hlt, List.getElem?_eq_none (Nat.le_of_not_lt hlt), List.getElem?_singleton]
    by_cases heq : n = ids.length
    · simp [heq]
    · have hne : ¬ n - ids.length = 0 := by omega
      simp [heq, hne]

/-! ## What a walk keeps -/

/-- The walk has met the states `ids`, in that order, and knows their nodes and places. -/
structure Walk.Knows (g : Graph) (ids : List StateId) (w : Walk) : Prop where
  nodup : ids.Nodup
  size : w.met.size = ids.length
  met : ∀ (n : Nat) (id : StateId), ids[n]? = some id →
    ∃ node, g.node? id = some node ∧ w.met[n]? = some node
  place : ∀ (id : StateId) (n : Nat), w.place[id]? = some n ↔ ids[n]? = some id

/-- A walk from `root` that has met `ids` and has `pending` before it. -/
structure Walk.Tours (g : Graph) (root : StateId) (ids pending : List StateId) (w : Walk) : Prop
    extends Walk.Knows g ids w where
  reached : ∀ id, id ∈ ids ∨ id ∈ pending → g.Reaches root id
  covered : ∀ id ∈ ids, ∀ j, g.Names id j → j ∈ ids ∨ j ∈ pending
  rooted : root ∈ ids ∨ root ∈ pending

namespace Walk

theorem Knows.hasMet_iff (h : Knows g ids w) : w.hasMet id = true ↔ id ∈ ids := by
  unfold hasMet
  rw [Std.HashMap.contains_eq_isSome_getElem?, Option.isSome_iff_exists, List.mem_iff_getElem?]
  exact exists_congr fun n => h.place id n

theorem Knows.node? (h : Knows g ids w) (hid : id ∈ ids) : ∃ node, g.node? id = some node := by
  obtain ⟨n, hn⟩ := List.mem_iff_getElem?.1 hid
  obtain ⟨node, hnode, -⟩ := h.met n id hn
  exact ⟨node, hnode⟩

theorem Knows.length_le (h : Knows g ids w) : ids.length ≤ g.size := by
  apply length_le_size h.nodup
  intro id hid
  obtain ⟨node, hnode⟩ := h.node? hid
  exact lt_size_of_node? hnode

theorem Knows.meet {node : Node} (h : Knows g ids w) (hnew : id ∉ ids)
    (hnode : g.node? id = some node) : Knows g (ids ++ [id]) (w.meet id node) where
  nodup := by
    simpa [List.nodup_append, h.nodup] using fun j hj (heq : j = id) => hnew (heq ▸ hj)
  size := by simp [Walk.meet, h.size]
  met := by
    intro n j hj
    show ∃ node', g.node? j = some node' ∧ (w.met.push node)[n]? = some node'
    rcases getElem?_concat_eq_some.1 hj with hj | ⟨rfl, rfl⟩
    · obtain ⟨node', hnode', hmet⟩ := h.met n j hj
      have hne : ¬ n = w.met.size := by
        have hlt := (List.getElem?_eq_some_iff.1 hj).1
        rw [h.size]
        exact Nat.ne_of_lt hlt
      exact ⟨node', hnode', by rw [Array.getElem?_push, if_neg hne, hmet]⟩
    · exact ⟨node, hnode, by rw [← h.size, Array.getElem?_push_size]⟩
  place := by
    intro j n
    show (w.place.insert id w.met.size)[j]? = some n ↔ _
    rw [Std.HashMap.getElem?_insert, getElem?_concat_eq_some, h.size]
    by_cases heq : id = j
    · -- the new state stands at the end, and nowhere else
      subst heq
      have hnot : ¬ ids[n]? = some id := fun hn => hnew (List.mem_of_getElem? hn)
      simp [hnot, eq_comm]
    · simp [heq, h.place]

/-- A state that is met leaves what it names pending, in front of what was pending before. -/
theorem Tours.meet {node : Node} (h : Tours g root ids (id :: pending) w) (hnew : id ∉ ids)
    (hnode : g.node? id = some node) :
    Tours g root (ids ++ [id]) (node.successors ++ pending) (w.meet id node) where
  toKnows := h.toKnows.meet hnew hnode
  reached := by
    have hid : g.Reaches root id := h.reached id (.inr List.mem_cons_self)
    intro j hj
    simp only [List.mem_append, List.mem_singleton] at hj
    rcases hj with (hj | rfl) | hj | hj
    · exact h.reached j (.inl hj)
    · exact hid
    · exact hid.tail ⟨node, hnode, hj⟩
    · exact h.reached j (.inr (List.mem_cons_of_mem _ hj))
  covered := by
    intro i hi j hj
    simp only [List.mem_append, List.mem_singleton] at hi ⊢
    rcases hi with hi | rfl
    · have hcovered := h.covered i hi j hj
      rw [List.mem_cons] at hcovered
      tauto
    · obtain ⟨node', hnode', hsuccessor⟩ := hj
      rw [hnode] at hnode'
      obtain rfl := Option.some.inj hnode'
      exact .inr (.inl hsuccessor)
  rooted := by
    have hrooted := h.rooted
    simp only [List.mem_append, List.mem_cons] at hrooted ⊢
    tauto

/-- What was met before need not stay pending. -/
theorem Tours.skip (h : Tours g root ids pending w) :
    Tours g root ids (pending.dropWhile w.hasMet) w := by
  have hleft : ∀ j, j ∈ pending → j ∈ ids ∨ j ∈ pending.dropWhile w.hasMet := by
    intro j hj
    rw [← List.takeWhile_append_dropWhile (p := w.hasMet) (l := pending)] at hj
    rcases List.mem_append.1 hj with hj | hj
    · exact .inl (h.hasMet_iff.1 (List.mem_takeWhile_imp hj))
    · exact .inr hj
  have hsub : pending.dropWhile w.hasMet ⊆ pending := (List.dropWhile_sublist _).subset
  refine { h with reached := ?_, covered := ?_, rooted := ?_ }
  · intro j hj
    exact h.reached j (hj.imp_right fun hj => hsub hj)
  · intro i hi j hj
    exact (h.covered i hi j hj).elim .inl (hleft j)
  · exact h.rooted.elim .inl (hleft root)

/-- Where nothing is pending, the states met are those that the root reaches. -/
theorem Tours.mem_iff (h : Tours g root ids [] w) : id ∈ ids ↔ g.Reaches root id := by
  constructor
  · intro hid
    exact h.reached id (.inl hid)
  · intro hreaches
    induction hreaches with
    | refl => simpa using h.rooted
    | tail _ hnames ih => simpa using h.covered _ ih _ hnames

theorem start_tours (g : Graph) (root : StateId) : Tours g root [] [root] {} where
  nodup := List.nodup_nil
  size := rfl
  met := by simp
  place := by simp
  reached := by
    intro id hid
    rw [show id = root by simpa using hid]
    exact .refl
  covered := by simp
  rooted := by simp

end Walk

/-! ## Walks to the end -/

/-- How a walk from `root` comes out: it has met all that the root reaches, or it came to a state
that is not there. -/
def Walked (g : Graph) (root : StateId) : Except GrammarError Walk → Prop
  | .ok w => ∃ ids, Walk.Tours g root ids [] w
  | .error e => ∃ id, e = .unknownState id ∧ g.Reaches root id ∧ g.node? id = none

/-- The steps are enough: with each of them one more state of the graph is met. -/
theorem walkFrom_walked (fuel : Nat) (h : Walk.Tours g root ids pending w)
    (hfuel : ids.length + fuel = g.size + 1) : Walked g root (g.walkFrom fuel pending w) := by
  induction fuel generalizing ids pending w with
  | zero =>
    have hle := h.length_le
    omega
  | succ fuel ih =>
    unfold walkFrom
    have hskip := h.skip
    revert hskip
    generalize hbefore : pending = before
    cases hleft : before.dropWhile w.hasMet with
    | nil => exact fun hskip => ⟨ids, hskip⟩
    | cons id pending =>
      intro hskip
      have hnew : id ∉ ids := by
        have hhead := List.head?_dropWhile_not w.hasMet before
        rw [hleft] at hhead
        rw [← hskip.hasMet_iff]
        simpa using hhead
      show Walked g root (g.node id >>= fun node =>
        g.walkFrom fuel (node.successors ++ pending) (w.meet id node))
      unfold Graph.node
      cases hnode : g.node? id with
      | none => exact ⟨id, rfl, hskip.reached id (.inr List.mem_cons_self), hnode⟩
      | some node =>
        apply ih (hskip.meet hnew hnode)
        rw [List.length_append, List.length_singleton]
        omega

/-- **A walk meets what its root reaches.** -/
theorem walk_walked (g : Graph) (root : StateId) : Walked g root (g.walk root) :=
  walkFrom_walked _ (Walk.start_tours g root) (Nat.zero_add _)

end Lexigraph.Graph
