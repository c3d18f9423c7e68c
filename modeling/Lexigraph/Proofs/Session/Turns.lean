/-
# Lexigraph.Proofs.Session.Turns -- where a repetition ends

A repetition scans its child in rounds, and the first that does not count is the last. What such
a round passed over is not given back. So there are two places: where the last round ended that
counts, and where the last one ended, which may be further on. A repetition goes on from the
second place: its own token covers all text up to there, its branches begin there, and there it
stays if it falls short and does not go back (`repetition_turns`).

`Turns` tells the rounds one after another, by what the evaluator says of the child, and a `Tally`
is what they come to. The two places are the same unless the last round passed over text and did
not count. They always are where repetitions go back and every one that the child reaches has a
token (`Turns.reached_eq`): a round without tokens has then passed over nothing.
-/

import Lexigraph.Proofs.Session.Limits
import Lexigraph.Proofs.Session.Settled

namespace Lexigraph

namespace Passage

/-- What rounds come to: how many count, where the last of those ended, and where the last of all
ended. Where none counts, that is where they began. -/
structure Tally where
  counted : Nat
  settled : Nat
  reached : Nat
  deriving DecidableEq, Repr

/-- The rounds of a repetition are over once the maximum is reached or nothing is left. -/
abbrev Over (source : Source) (max : Option UInt32) (done position : Nat) : Prop :=
  max.any (·.toNat ≤ done) = true ∨ source.size ≤ position

/-- A round counts if it emitted a token and moved forward. -/
abbrev Counts (position : Nat) (p : Passage) : Prop := p.emitted ≠ [] ∧ position < p.position

/-- The rounds of a repetition after the first `done`, each a passage of the child from where the
one before it ended. The first that does not count is the last. -/
inductive Turns (g : Grammar) (source : Source) (shortfall : Shortfall) (child : StateId)
    (max : Option UInt32) : Nat → Nat → Nat → Tally → Prop where
  | none {done start position : Nat} (h : Over source max done position) :
      Turns g source shortfall child max done start position ⟨done, position, position⟩
  | last {done start position : Nat} {p : Passage} (h : ¬ Over source max done position)
      (hround : Evaluates g source shortfall child start position (.ok p))
      (hcounts : ¬ Counts position p) :
      Turns g source shortfall child max done start position ⟨done, position, p.position⟩
  | next {done start position : Nat} {p : Passage} {tally : Tally}
      (h : ¬ Over source max done position)
      (hround : Evaluates g source shortfall child start position (.ok p))
      (hcounts : Counts position p)
      (hrest : Turns g source shortfall child max (done + 1) p.start p.position tally) :
      Turns g source shortfall child max done start position tally

variable {g : Grammar} {source : Source} {shortfall : Shortfall} {child : StateId}
  {max : Option UInt32} {done start position : Nat} {tally tally' : Tally} {p : Passage}

theorem Within.evaluates {id : StateId} (hw : Within source start position)
    (h : Evaluates g source shortfall id start position (.ok p)) :
    Advances source start position p := by
  obtain ⟨depth, heval⟩ := h
  exact advances_of_evaluate hw heval

/-- Rounds come to one tally. -/
theorem Turns.unique (hw : Within source start position)
    (h : Turns g source shortfall child max done start position tally)
    (h' : Turns g source shortfall child max done start position tally') : tally' = tally := by
  induction h with
  | none hover =>
    cases h' with
    | none => rfl
    | last hgoes | next hgoes => exact absurd hover hgoes
  | last hgoes hround hcounts =>
    cases h' with
    | none hover => exact absurd hover hgoes
    | last _ hround' =>
      obtain rfl := Except.ok.inj (hround.unique hw hround')
      rfl
    | next _ hround' hcounts' =>
      obtain rfl := Except.ok.inj (hround.unique hw hround')
      exact absurd hcounts' hcounts
  | next hgoes hround hcounts _ ih =>
    cases h' with
    | none hover => exact absurd hover hgoes
    | last _ hround' hcounts' =>
      obtain rfl := Except.ok.inj (hround.unique hw hround')
      exact absurd hcounts hcounts'
    | next _ hround' _ hrest' =>
      obtain rfl := Except.ok.inj (hround.unique hw hround')
      exact ih (hw.evaluates hround).within hrest'

/-- The rounds of the evaluator, told one after another. -/
theorem turns_of_rounds {depth counted reached : Nat}
    (h : rounds source (evaluate g source shortfall depth) child max done start position =
      .ok (counted, reached)) :
    ∃ settled, Turns g source shortfall child max done start position
      ⟨counted, settled, reached⟩ := by
  -- a round that counts takes a byte at least, so there is less left for those that follow
  induction hleft : source.size - position using Nat.strongRecOn generalizing done start position
    with
  | ind left ih =>
    by_cases hover : Over source max done position
    · rw [rounds_over hover] at h
      obtain ⟨rfl, rfl⟩ := Prod.mk.inj (Except.ok.inj h)
      exact ⟨_, .none hover⟩
    rw [rounds_goes hover] at h
    obtain ⟨p, hround, h⟩ := bind_eq_ok_iff.1 h
    by_cases hcounts : Counts position p
    · rw [if_pos hcounts] at h
      have hlt : position < source.size := Nat.lt_of_not_le fun hend => hover (.inr hend)
      obtain ⟨settled, hrest⟩ := ih _ (hleft ▸ Nat.sub_lt_sub_left hlt hcounts.2) h rfl
      exact ⟨settled, .next hover ⟨depth, hround⟩ hcounts hrest⟩
    · rw [if_neg hcounts] at h
      obtain ⟨rfl, rfl⟩ := Prod.mk.inj (Except.ok.inj h)
      exact ⟨_, .last hover ⟨depth, hround⟩ hcounts⟩

/-! ## Where a repetition ends -/

/-- How a repetition ends that began at `entry`, with text uncovered from `start`, after rounds that
came to a tally. If it is satisfied, its token covers the text up to where the last round ended, and
there its branches begin. Else it goes back to the entry, or stays where the last round ended. -/
inductive Concludes (g : Grammar) (source : Source) (shortfall : Shortfall) (node : Node)
    (start entry : Nat) (tally : Tally) : Bool → Passage → Prop where
  | satisfied {depth : Nat} {p q : Passage}
      (hown : q = Passage.emitOwn node.token { matched := true, start, position := tally.reached })
      (hon : goOn source (evaluate g source shortfall depth) node.branches q = .ok p) :
      Concludes g source shortfall node start entry tally true p
  | short {p : Passage}
      (hback : p = { matched := false, start, position :=
        match shortfall with
        | .rewind => entry
        | .keep => tally.reached }) :
      Concludes g source shortfall node start entry tally false p

/-- To go on from a match is a match. -/
theorem matched_goOn {eval : Evaluator} {branches : List StateId} {q : Passage}
    (hq : q.matched = true) (h : goOn source eval branches q = .ok p) : p.matched = true := by
  unfold goOn at h
  split at h
  · obtain rfl := Except.ok.inj h
    exact hq
  · obtain ⟨r, -, h⟩ := bind_eq_ok_iff.1 h
    obtain rfl := Except.ok.inj h
    rfl

/-- A repetition runs its rounds, and ends as it has to after them. -/
theorem turns_of_evaluate {id : StateId} {node : Node} {min : UInt32} {depth : Nat}
    (hnode : g.graph.node? id = some node) (hkind : node.kind = .repetition child min max)
    (h : evaluate g source shortfall depth id start position = .ok p) :
    ∃ tally, Turns g source shortfall child max 0 position position tally ∧
      p.matched = decide (min.toNat ≤ tally.counted) ∧
      Concludes g source shortfall node start position tally p.matched p := by
  cases depth with
  | zero => cases h
  | succ depth =>
    change ofState g source shortfall _ id start position = .ok p at h
    unfold ofState at h
    simp only [Graph.node_eq_ok_iff.2 hnode, hkind] at h
    obtain ⟨⟨counted, reached⟩, hrounds, hend⟩ := bind_eq_ok_iff.1 h
    obtain ⟨settled, hturns⟩ := turns_of_rounds hrounds
    refine ⟨_, hturns, ?_⟩
    dsimp only at hend ⊢
    cases hsatisfied : decide (min.toNat ≤ counted) with
    | true =>
      rw [hsatisfied] at hend
      have hmatched : p.matched = true := matched_goOn (Session.matched_emitOwn _) hend
      rw [hmatched]
      exact ⟨rfl, .satisfied rfl hend⟩
    | false =>
      rw [hsatisfied] at hend
      cases shortfall <;> obtain rfl := Except.ok.inj hend <;> exact ⟨rfl, .short rfl⟩

end Passage

namespace Session

open Attempt (Ensures)
open Passage (Evaluates Turns Concludes Tally)

variable {g : Grammar} {source : Source} {s t : Session} {id child : StateId}
  {max : Option UInt32} {done start position : Nat} {tally : Tally} {p : Passage}

/-! ## Rounds that leave nothing uncovered -/

/-- A session without limits, at a boundary of its source, that goes back from repetitions which
fall short. -/
def startingAt (source : Source) (position : Nat) (hok : source.IsBoundary position) : Session where
  scanner := { source, position, position_ok := hok }
  memo := .off
  settings := { maxDepth := none }
  active := .startingAt position

theorem startingAt_sound (hok : source.IsBoundary position) :
    Sound g (startingAt source position hok) where
  synced := rfl
  active := ⟨Nat.le_refl _, hok, hok⟩
  outer := nofun
  unmarked := rfl
  memo := Memo.coherent_off

/-- What scans leave uncovered, evaluations do. Where each repetition that a state reaches has a
token, that is nothing, so a passage without tokens went nowhere. -/
theorem evaluates_rests (hok : source.IsBoundary position) (htokened : g.graph.Tokened id)
    (h : Evaluates g source .rewind id position position (.ok p)) :
    source.IsBoundary p.position ∧ p.start = p.position ∧
      (p.emitted = [] → p.position = position) := by
  obtain ⟨depth, heval⟩ := h
  have hsound : Sound g (startingAt source position hok) := startingAt_sound hok
  have hfollows := (scanNested_follows depth).follows id _ ⟨hsound, rfl, rfl⟩
  have hrests := scanNested_rests depth id _ htokened ⟨hsound, rfl, rfl⟩
  unfold Ensures at hfollows hrests
  generalize (scanNested g depth id (startingAt source position hok)).1 = answer at hfollows hrests
  generalize (scanNested g depth id (startingAt source position hok)).2 = t at hfollows hrests
  cases answer with
  | error stop =>
    -- there are no limits, so a stop would be one of the evaluator
    rcases hfollows with (⟨limit, hlimit, -⟩ | ⟨limit, hlimit, -⟩) | hstop
    · cases hlimit
    · cases hlimit
    · cases hstop.symm.trans heval
  | ok found =>
    obtain ⟨q, hq, -, hstands⟩ := hfollows
    obtain rfl : q = p := Except.ok.inj (hq.symm.trans heval)
    have hsettled : q.start = q.position := by
      rw [← hstands.start_eq, ← hstands.position_eq]
      exact (hrests found rfl).settled
    refine ⟨?_, hsettled, fun hnone => ?_⟩
    · rw [← hstands.position_eq, ← show t.scanner.source = source from hstands.covers.source]
      exact hstands.sound.active.current_ok
    · obtain ⟨new, hnew, htiles, -⟩ := hstands.covers.tokens
      have htokens := hstands.tokens_eq
      rw [hnew, hnone] at htokens
      obtain rfl : new = [] := List.append_cancel_left htokens
      have hstart : position = t.active.start := htiles
      rw [← hsettled, ← hstands.start_eq, ← hstart]

/-- Where repetitions go back and every one that the child reaches has a token, the last round
passes over nothing unless it counts. -/
theorem reached_eq (hok : source.IsBoundary position) (htokened : g.graph.Tokened child)
    (h : Turns g source .rewind child max done start position tally) (hstart : start = position) :
    tally.reached = tally.settled := by
  induction h with
  | none => rfl
  | @last done start position p hgoes hround hcounts =>
    subst hstart
    obtain ⟨-, -, hnowhere⟩ := evaluates_rests hok htokened hround
    have hw : Passage.Within source start start := ⟨Nat.le_refl _, hok.le_size⟩
    by_cases hnone : p.emitted = []
    · exact hnowhere hnone
    · have hstay : ¬ start < p.position := fun hlt => hcounts ⟨hnone, hlt⟩
      exact Nat.le_antisymm (Nat.le_of_not_lt hstay) (hw.evaluates hround).position_le
  | next _ hround _ _ ih =>
    subst hstart
    obtain ⟨hok', hsettled, -⟩ := evaluates_rests hok htokened hround
    exact ih hok' hsettled

/-! ## Scans of repetitions -/

/-- **A repetition ends where its last round ended, whether or not that round counted.** Its rounds
come to one tally, and it is satisfied if enough of them count. If it is, its token covers all
text up to where the last round ended, and its branches begin there; if it falls short and does
not go back, it stays there. That is where the last round ended that counts, if repetitions go back
and all that the child reaches have tokens. -/
theorem repetition_turns (hs : Reached g s) {node : Node} {min : UInt32} {found : Bool}
    (hnode : g.graph.node? id = some node) (hkind : node.kind = .repetition child min max)
    (hscan : (scan g id s).1 = .ok found) :
    ∃ tally p, Turns g s.scanner.source s.settings.shortfall child max 0 s.position s.position
        tally ∧
      (∀ other, Turns g s.scanner.source s.settings.shortfall child max 0 s.position s.position
        other → other = tally) ∧
      found = decide (min.toNat ≤ tally.counted) ∧
      Concludes g s.scanner.source s.settings.shortfall node s.active.start s.position tally found p ∧
      Arrives s p (scan g id s).2 ∧
      (s.settings.shortfall = .rewind → g.graph.Tokened child →
        tally.reached = tally.settled) := by
  have hsteady := hs.steady
  have hfollows := (scanNested_follows (nestingBound g s.settings s.scanner.source.size)).follows
    id s ⟨hsteady.toSound, rfl, rfl⟩
  unfold Ensures at hfollows
  rw [← scan_eq_scanNested, hscan] at hfollows
  obtain ⟨p, heval, rfl, hp⟩ := hfollows
  obtain ⟨tally, hturns, hfound, hends⟩ := Passage.turns_of_evaluate hnode hkind heval
  have hok : s.scanner.source.IsBoundary s.position := hsteady.active.current_ok
  have hw : Passage.Within s.scanner.source s.position s.position := ⟨Nat.le_refl _, hok.le_size⟩
  refine ⟨tally, p, hturns, fun other => hturns.unique hw, hfound, hends, ?_, ?_⟩
  · exact ⟨hp.sound.synced.trans hp.position_eq, hp.position_eq, hp.start_eq, hp.tokens_eq,
      hp.covers.outer⟩
  · intro hrewind htokened
    rw [hrewind] at hturns
    exact reached_eq hok htokened hturns rfl

/-- One letter or more without a token, and that once or more. -/
def lettersTwice : Grammar :=
  { Grammar.letters with graph := { nodes := #[
    { kind := .terminal ⟨0⟩ },
    { kind := .repetition ⟨0⟩ 1 none },
    { kind := .repetition ⟨1⟩ 1 none }] } }

/-- A session that stays where a repetition falls short. -/
def lettersKept : Session := .start "a" { shortfall := .keep }

theorem lettersTwice_turns :
    Turns lettersTwice lettersKept.scanner.source .keep ⟨1⟩ none 0 0 0 ⟨0, 0, 1⟩ := by
  have hround : Evaluates lettersTwice lettersKept.scanner.source .keep ⟨1⟩ 0 0
      (.ok { matched := true, start := 0, position := 1 }) := ⟨2, by decide +kernel⟩
  have hgoes : ¬ Passage.Over lettersKept.scanner.source none 0 0 := by
    rintro (hmax | hend)
    · cases hmax
    · exact absurd hend (by decide +kernel)
  exact .last hgoes hround fun hcounts => hcounts.1 rfl

/-- The only round passes over the letter and emits nothing, so it does not count. -/
theorem repetition_turns_lettersTwice :
    ∃ p, Concludes lettersTwice lettersKept.scanner.source .keep { kind := .repetition ⟨1⟩ 1 none } 0 0
        ⟨0, 0, 1⟩ false p ∧
      Arrives lettersKept p (scan lettersTwice ⟨2⟩ lettersKept).2 := by
  have hs : Reached lettersTwice lettersKept := .start "a" { shortfall := .keep }
  have hnode : lettersTwice.graph.node? ⟨2⟩ = some { kind := .repetition ⟨1⟩ 1 none } := rfl
  have hscan : (scan lettersTwice ⟨2⟩ lettersKept).1 = .ok false := by decide +kernel
  obtain ⟨tally, p, -, hunique, -, hconcludes, harrives, -⟩ := repetition_turns hs hnode rfl hscan
  obtain rfl : (⟨0, 0, 1⟩ : Tally) = tally := hunique _ lettersTwice_turns
  exact ⟨p, hconcludes, harrives⟩

/-- No round counts, and yet the repetition does not stay where it began: the text of the round that
did not count is gone. -/
theorem uncounted_consumed :
    Turns lettersTwice lettersKept.scanner.source .keep ⟨1⟩ none 0 0 0 ⟨0, 0, 1⟩ ∧
      (scan lettersTwice ⟨2⟩ lettersKept).1 = .ok false ∧
      (scan lettersTwice ⟨2⟩ lettersKept).2.position = 1 :=
  ⟨lettersTwice_turns, by decide +kernel, by decide +kernel⟩

end Session

end Lexigraph
