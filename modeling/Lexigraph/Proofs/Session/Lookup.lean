/-
# Lexigraph.Proofs.Session.Lookup -- what a scan looks up is there

A scan looks up the states that are named and the rules of terminals, and nothing else. In a well
formed grammar all of these are there, so neither a scan nor a run of a state that is there fails
with an error of the grammar, whatever the session, and tokenizing fails with one only where no
root is set (`assembled_wellFormed`).
-/

import Lexigraph.Grammar.Clone
import Lexigraph.Proofs.Grammar.WellFormed
import Lexigraph.Proofs.Session.Record
import Lexigraph.TokenStream

namespace Lexigraph.Grammar

open Session (scan run scan_logs run_logs)

variable {g : Grammar}

/-- In a well formed grammar a state leads to states and rules that are there. -/
theorem WellFormed.not_lacks (hg : g.WellFormed) {root : StateId} {node : Node}
    (hroot : g.graph.node? root = some node) (e : GrammarError) : ¬ g.Lacks root e := by
  have hthere : ∀ id, g.graph.Reaches root id → ∃ node, g.graph.node? id = some node := by
    intro id hid
    cases hid with
    | refl => exact ⟨node, hroot⟩
    | tail _ hnames =>
      obtain ⟨namer, hnamer, hid⟩ := hnames
      exact hg.states _ namer hnamer id hid
  rintro (⟨reached, missing⟩ | ⟨reached, found, kind, missing⟩)
  · obtain ⟨node, hnode⟩ := hthere _ reached
    cases missing.symm.trans hnode
  · obtain ⟨rule, hrule, -⟩ := hg.rules _ _ _ found kind
    cases missing.symm.trans hrule

/-- **Assembled grammars are well formed.** Whatever calls and clones led to it, and whether or not
they succeeded, all that a grammar names is there, and bounds and annotations are in order. So no
scan and no run of a state that is there fails for want of anything, on any source and in any
session; and tokenizing fails with an error of the grammar only if there is no root. -/
theorem assembled_wellFormed (hg : Assembled g) :
    g.WellFormed ∧
    (∀ id node, g.graph.node? id = some node → ∀ s e,
      (scan g id s).1 ≠ .error (.error (.grammar e)) ∧
        (run g id s).1 ≠ .error (.error (.grammar e))) ∧
    ∀ source settings e, g.tokenize source settings = .error (.error (.grammar e)) →
      e = .noRoot ∧ g.root = none := by
  have hwell : g.WellFormed := (assembled_iff_built.1 hg).wellFormed
  have hfound : ∀ id node, g.graph.node? id = some node → ∀ s e,
      (scan g id s).1 ≠ .error (.error (.grammar e)) ∧
        (run g id s).1 ≠ .error (.error (.grammar e)) := by
    intro id node hnode s e
    have hlacks := hwell.not_lacks hnode e
    exact ⟨fun h => hlacks ((scan_logs id s).lacking e h),
      fun h => hlacks ((run_logs id s).lacking e h)⟩
  refine ⟨hwell, hfound, fun source settings e h => ?_⟩
  unfold tokenize at h
  cases hroot : g.root with
  | none =>
    rw [hroot] at h
    cases h
    exact ⟨rfl, rfl⟩
  | some root =>
    obtain ⟨node, hnode⟩ := hwell.root root hroot
    have hrun := (hfound root node hnode (.start source settings) e).2
    rw [hroot] at h
    rcases houtcome : run g root (.start source settings) with ⟨stop | u, s⟩
    · rw [houtcome] at hrun
      simp only [houtcome] at h
      cases h
      exact absurd rfl hrun
    · simp only [houtcome] at h
      cases h

/-- The greeting, cloned after a call that fails and before it gets a root. -/
def greetingAgain : Grammar :=
  (greeting.after (.sequence [⟨0⟩, ⟨1⟩, ⟨7⟩])).clone.after (.setRoot ⟨1⟩)

theorem assembled_wellFormed_greetingAgain :
    greetingAgain.WellFormed ∧ greetingAgain.root = some ⟨1⟩ ∧
    ∀ s e, (scan greetingAgain ⟨1⟩ s).1 ≠ .error (.error (.grammar e)) := by
  have hgreeting : Assembled greeting := assembled_iff_built.2 (Built.empty.afterAll _)
  have hroot : greetingAgain.root = some ⟨1⟩ := by decide +kernel
  have hthere : greetingAgain.graph.contains ⟨1⟩ = true := by decide +kernel
  obtain ⟨node, hnode⟩ := Graph.exists_node?_of_lt_size (of_decide_eq_true hthere)
  obtain ⟨hwell, hfound, -⟩ := assembled_wellFormed ((hgreeting.after _).clone.after (.setRoot ⟨1⟩))
  exact ⟨hwell, hroot, fun s e => (hfound ⟨1⟩ node hnode s e).1⟩

end Lexigraph.Grammar
