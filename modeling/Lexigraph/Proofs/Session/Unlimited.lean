/-
# Lexigraph.Proofs.Session.Unlimited -- grammars that need no limit

Where no chain of names closes, scans nest no deeper than the longest chain from the scanned
state has states: a repetition scans its child at the same level round after round, and a run
its root pass after pass. So all scans and all runs come to an end without limits, and a limit
for the depth that the longest chain fits into is never met (`unlimited_of_acyclic`).

The grammar of a text is such a grammar, whichever of its states is scanned: all of them
depict patterns (`ofText_acyclic`).
-/

import Lexigraph.Proofs.Grammar.Canonical
import Lexigraph.Proofs.Grammar.SamePattern
import Lexigraph.Proofs.Graph.Acyclic
import Lexigraph.Proofs.Session.Watched

namespace Lexigraph

namespace Grammar

variable {g : Grammar}

/-! ## Grammars of texts -/

theorem Depicts.acyclic {id : StateId} {p : Pattern} (h : g.Depicts id p) : g.graph.Acyclic id :=
  (h.within (Nat.le_refl _)).acyclic

/-- All states of the grammar of a text depict patterns. -/
theorem exists_depicts_of_ofText {text : String} (h : ofText text = .ok g) {id : StateId}
    (hid : id.index < g.graph.size) : ∃ p, g.Depicts id p := by
  obtain ⟨p, -, rfl⟩ := ofText_eq_ok_iff.1 h
  obtain ⟨q, hq⟩ := (p.plant_sprouts empty).whole id ⟨Nat.zero_le _, hid⟩
  exact ⟨q, hq.withRoot _⟩

/-- **The grammar of a text is acyclic**, whichever of its states is taken for the root. -/
theorem ofText_acyclic {text : String} (h : ofText text = .ok g) (root : StateId) :
    g.graph.Acyclic root := by
  by_cases hroot : root.index < g.graph.size
  · obtain ⟨p, hp⟩ := exists_depicts_of_ofText h hroot
    exact hp.acyclic
  · -- a state that is not there names nothing
    have hwithin : g.graph.Within 1 root := fun node hnode =>
      absurd (Graph.lt_size_of_node? hnode) hroot
    exact hwithin.acyclic

end Grammar

namespace Session

open Attempt (Stays)

variable {g : Grammar} {s : Session} {root : StateId} {n : Nat}

/-! ## Depth -/

/-- The session, with another level for the deepest so far. -/
def withDeepest (deepest : Nat) (s : Session) : Session :=
  { s with guard := { s.guard with deepest } }

/-- The attempt nests at most so deep. Whatever the deepest level was before, afterwards it is still
that one or one of at most `n`; and no limit that allows so many levels stops the attempt. -/
structure NestsAtMost {α : Type} (n : Nat) (x : Scanning α) (s : Session) : Prop where
  deepest : ∀ deepest, (x (s.withDeepest deepest)).2.guard.deepest ≤ max deepest n
  unstopped : (∀ limit ∈ s.settings.maxDepth, n ≤ limit) →
    ∀ limit, (x s).1 ≠ .error (.error (.depthLimit limit))

theorem nestsAtMost_of_stays {α : Type} {x : Scanning α} (hs : Steady g s)
    (h : ∀ bound, n ≤ bound → Stays (Shallow s.settings 0 bound) (StopsBelow s.settings n) x) :
    NestsAtMost n x s := by
  have hshallow : ∀ deepest, Shallow s.settings 0 (max deepest n) (s.withDeepest deepest) :=
    fun deepest => ⟨⟨rfl, hs.limit⟩, hs.level, Nat.le_max_left _ _⟩
  constructor
  · intro deepest
    exact (h _ (Nat.le_max_right _ _) _ (hshallow deepest)).2.deepest
  · intro hfits limit hanswer
    exact (h _ (Nat.le_max_right _ _) s (hshallow s.guard.deepest)).1 _ hanswer hfits limit rfl

theorem scan_nestsAtMost (hs : Steady g s) (hwithin : g.graph.Within n root) :
    NestsAtMost n (scan g root) s :=
  nestsAtMost_of_stays hs fun _ hle => scan_shallow hle hwithin

theorem run_nestsAtMost (hs : Steady g s) (hwithin : g.graph.Within n root) :
    NestsAtMost n (run g root) s :=
  nestsAtMost_of_stays hs fun _ hle => run_stays (shallow_tame _ _ _ _) (scan_shallow hle hwithin)

/-! ## No limit -/

/-- Scans and runs of the state come to an end in every session, with limits or without, and nest
no deeper than the longest path from the state has states. -/
def Unlimited (g : Grammar) (root : StateId) : Prop :=
  ∃ path, g.graph.IsLongest root path ∧ ∀ s, Reached g s →
    (Halts (scanWatched g · root) (scan g root) s ∧ Halts (runWatched g · root) (run g root) s) ∧
      NestsAtMost path.length (scan g root) s ∧ NestsAtMost path.length (run g root) s

/-- **Acyclic grammars need no limit**, and the grammars of texts are acyclic. -/
theorem unlimited_of_acyclic (g : Grammar) (root : StateId) :
    (g.graph.Acyclic root → Unlimited g root) ∧
      ∀ text, Grammar.ofText text = .ok g → g.graph.Acyclic root := by
  refine ⟨fun hacyclic => ?_, fun text htext => Grammar.ofText_acyclic htext root⟩
  obtain ⟨path, hpath⟩ := hacyclic.exists_isLongest
  refine ⟨path, hpath, fun s hs => ?_⟩
  have hends : Ends (Governed s.settings) (scan g root) := scan_ends (.inr hacyclic.within)
  exact ⟨⟨scan_halts hs.steady hends, run_halts hs.steady hends⟩,
    scan_nestsAtMost hs.steady hpath.within, run_nestsAtMost hs.steady hpath.within⟩

theorem unlimited_of_acyclic_letters :
    Unlimited .letters ⟨1⟩ ∧ (run .letters ⟨1⟩ lettersFree).2.guard.deepest = 2 ∧
      ∃ g, Grammar.ofText Grammar.greetingText = .ok g ∧ Unlimited g ⟨1⟩ := by
  have hwithin : Grammar.letters.graph.Within 2 ⟨1⟩ := by decide
  refine ⟨(unlimited_of_acyclic .letters ⟨1⟩).1 hwithin.acyclic, by decide +kernel, ?_⟩
  have hok : (Grammar.ofText Grammar.greetingText).isOk = true := by decide +kernel
  cases htext : Grammar.ofText Grammar.greetingText with
  | ok g =>
    obtain ⟨hunlimited, hacyclic⟩ := unlimited_of_acyclic g ⟨1⟩
    exact ⟨g, rfl, hunlimited (hacyclic _ htext)⟩
  | error e =>
    rw [htext] at hok
    cases hok

end Session

end Lexigraph
