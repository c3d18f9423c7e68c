/-
# Lexigraph.Proofs.Session.BeforeEnd -- the end of the source is never met by surprise

A terminal fails at the end of the source, and whoever scans one has to know that something
is left. Rounds and passes look before they scan, and so does whoever goes on after a match.
Alternatives are tried one after another without a look: that something is left for the
second rests on the first, which goes back where it does not match. Repetitions do so under
one of the two policies, and under that one no scan that begins before the end of the source
fails for the end (`scan_meets_no_end`).
-/

import Lexigraph.Proofs.TokenStream.Lossless
import Lexigraph.Proofs.Session.Limits
import Lexigraph.Proofs.Session.Refinement

namespace Lexigraph

namespace Passage

variable {g : Grammar} {source : Source} {eval : Evaluator} {start position : Nat} {α β : Type}

/-! ## Evaluations before the end -/

/-- The result is not that the source ended. -/
def NoEnd (r : Except (Stop ScanError) α) : Prop :=
  ∀ offset, r ≠ .error (.error (.unexpectedEnd offset))

theorem NoEnd.ok (a : α) : NoEnd (.ok a) := by
  rintro offset ⟨⟩

theorem NoEnd.bind {x : Except (Stop ScanError) α} {f : α → Except (Stop ScanError) β}
    (hx : NoEnd x) (hf : ∀ a, x = .ok a → NoEnd (f a)) : NoEnd (x >>= f) := by
  cases x with
  | error stop => exact fun offset he => hx offset (congrArg Except.error (Except.error.inj he))
  | ok a => exact hf a rfl

/-- A result that is not the end of the source, and that is at `position` again if it is a
passage without a match. -/
structure Guarded (position : Nat) (r : Except (Stop ScanError) Passage) : Prop where
  noEnd : NoEnd r
  back : ∀ p, r = .ok p → p.matched = false → p.position = position

theorem Guarded.of_matched {p : Passage} (h : p.matched = true) : Guarded position (.ok p) where
  noEnd := .ok p
  back := by
    rintro _ ⟨⟩ hunmatched
    rw [h] at hunmatched
    cases hunmatched

/-- Before the end of the source, evaluations are guarded. -/
def GuardsEnd (source : Source) (eval : Evaluator) : Prop :=
  ∀ id start position, position < source.size → Guarded position (eval id start position)

theorem firstOf_guarded (h : GuardsEnd source eval) (ids : List StateId)
    (hleft : position < source.size) : Guarded position (firstOf eval ids start position) := by
  induction ids generalizing start with
  | nil => exact ⟨.ok _, by rintro _ ⟨⟩ _; rfl⟩
  | cons id ids ih =>
    have hfirst := h id start position hleft
    show Guarded position (eval id start position >>= _)
    cases heval : eval id start position with
    | error stop =>
      rw [heval] at hfirst
      exact ⟨hfirst.noEnd, nofun⟩
    | ok p =>
      show Guarded position (if p.matched = true then _ else _)
      cases hmatched : p.matched with
      | true =>
        rw [if_pos rfl]
        exact .of_matched hmatched
      | false =>
        -- the first went back, so as much is left for the next one
        have hnext : Guarded p.position (firstOf eval ids p.start p.position) := by
          rw [hfirst.back p heval hmatched]
          exact ih
        rw [if_neg Bool.false_ne_true]
        refine ⟨hnext.noEnd.bind fun q _ => .ok _, ?_⟩
        rintro _ hq hunmatched
        obtain ⟨q, hfirst', hq⟩ := bind_eq_ok_iff.1 hq
        obtain rfl := Except.ok.inj hq
        exact (hnext.back q hfirst' hunmatched).trans (hfirst.back p heval hmatched)

/-- Who goes on looks first whether anything is left. -/
theorem goOn_noEnd (h : GuardsEnd source eval) (branches : List StateId) (p : Passage) :
    NoEnd (goOn source eval branches p) := by
  unfold goOn
  split
  · exact .ok p
  · next hleft =>
    exact (firstOf_guarded h branches (Nat.lt_of_not_le hleft)).noEnd.bind fun q _ => .ok _

/-- What comes of going on is a match. -/
theorem goOn_guarded (h : GuardsEnd source eval) (branches : List StateId) {p : Passage}
    (hmatched : p.matched = true) : Guarded position (goOn source eval branches p) where
  noEnd := goOn_noEnd h branches p
  back := by
    intro q hq
    unfold goOn at hq
    split at hq
    · obtain rfl := Except.ok.inj hq
      rw [hmatched]
      nofun
    · obtain ⟨r, -, hq⟩ := bind_eq_ok_iff.1 hq
      obtain rfl := Except.ok.inj hq
      nofun

theorem ofTerminal_guarded (h : GuardsEnd source eval) (node : Node) (ruleId : RuleId)
    (hleft : position < source.size) :
    Guarded position (ofTerminal g source eval node ruleId start position) := by
  unfold ofTerminal
  split
  · exact ⟨nofun, nofun⟩
  · rw [if_neg (Nat.not_le.2 hleft)]
    split
    · exact ⟨.ok _, by rintro _ ⟨⟩ _; rfl⟩
    · exact goOn_guarded h _ (Session.matched_emit _)

/-- A round begins only where something is left. -/
theorem rounds_noEnd (h : GuardsEnd source eval) (child : StateId) (max : Option UInt32)
    (done start position : Nat) : NoEnd (rounds source eval child max done start position) := by
  induction hsize : source.size - position using Nat.strongRecOn generalizing done start position
    with
  | ind left ih =>
    by_cases hover : max.any (·.toNat ≤ done) = true ∨ source.size ≤ position
    · rw [rounds_over hover]
      nofun
    have hleft : position < source.size := Nat.lt_of_not_le fun hend => hover (.inr hend)
    rw [rounds_goes hover]
    refine (h child start position hleft).noEnd.bind fun p _ => ?_
    split
    · next hcounts =>
      exact ih _ (hsize ▸ Nat.sub_lt_sub_left hleft hcounts.2) _ _ _ rfl
    · nofun

theorem ofRepetition_guarded (h : GuardsEnd source eval) (node : Node) (child : StateId)
    (min : UInt32) (max : Option UInt32) :
    Guarded position (ofRepetition source .rewind eval node child min max start position) := by
  have hrounds := rounds_noEnd h child max 0 position position
  unfold ofRepetition
  cases hr : rounds source eval child max 0 position position with
  | error stop =>
    rw [hr] at hrounds
    exact ⟨hrounds.bind nofun, nofun⟩
  | ok r =>
    show Guarded position (conclude source .rewind eval node (decide (min.toNat ≤ r.1)) start
      position r.2)
    cases decide (min.toNat ≤ r.1) with
    | true => exact goOn_guarded h _ (Session.matched_emitOwn _)
    | false => exact ⟨.ok _, by rintro _ ⟨⟩ _; rfl⟩

theorem ofChoice_guarded (h : GuardsEnd source eval) (node : Node)
    (hleft : position < source.size) : Guarded position (ofChoice eval node start position) := by
  have hfirst : Guarded position (firstOf eval node.branches start position) :=
    firstOf_guarded h node.branches hleft
  refine ⟨hfirst.noEnd.bind fun p _ => nofun, ?_⟩
  intro q hq hunmatched
  obtain ⟨p, hp, hq⟩ := bind_eq_ok_iff.1 hq
  cases hmatched : p.matched with
  | true =>
    obtain rfl : (p.emitOwn node.token) = q := by simpa [hmatched] using Except.ok.inj hq
    rw [Session.matched_emitOwn, hmatched] at hunmatched
    cases hunmatched
  | false =>
    obtain rfl : p = q := by simpa [hmatched] using Except.ok.inj hq
    exact hfirst.back p hp hmatched

/-- **Where repetitions go back, evaluations are guarded**, however deep they nest. -/
theorem evaluate_guarded (depth : Nat) : GuardsEnd source (evaluate g source .rewind depth) := by
  induction depth with
  | zero => exact fun _ _ _ _ => ⟨nofun, nofun⟩
  | succ depth ih =>
    intro id start position hleft
    show Guarded position (ofState g source .rewind _ id start position)
    unfold ofState
    split
    · exact ⟨nofun, nofun⟩
    · split
      · exact ofTerminal_guarded ih _ _ hleft
      · exact ofRepetition_guarded ih _ _ _ _
      · exact ofChoice_guarded ih _ hleft

end Passage

namespace Session

open Attempt (Ensures)
open Passage (NoEnd)

variable {g : Grammar} {s : Session}

/-! ## Scans and runs -/

/-- A scan that begins before the end of the source does not meet it. -/
theorem scan_noEnd (hs : Sound g s) (hrewind : s.settings.shortfall = .rewind)
    (hleft : s.atEnd = false) (id : StateId) : NoEnd (scan g id s).1 := by
  have hready : Ready g s.scanner.source .rewind s := ⟨hs, rfl, hrewind⟩
  have hfollows := (scanNested_follows (nestingBound g s.settings s.scanner.source.size)).follows
    id s hready
  have hposition : s.position < s.scanner.source.size := by
    rw [← Bool.not_eq_true, hready.atEnd_iff] at hleft
    exact Nat.lt_of_not_le hleft
  have hguarded := Passage.evaluate_guarded (g := g)
    (nestingBound g s.settings s.scanner.source.size) id s.active.start s.position hposition
  intro offset hanswer
  unfold Ensures at hfollows
  rw [← scan_eq_scanNested, hanswer] at hfollows
  -- a limit would have said so, and the evaluator says otherwise
  rcases hfollows with (⟨_, -, he⟩ | ⟨_, -, he⟩) | heval
  · cases he
  · cases he
  · exact hguarded.noEnd offset heval

/-- Passes begin before the end of the source, each of them. -/
theorem passes_noEnd (fuel : Nat) (hs : Sound g s) (hrewind : s.settings.shortfall = .rewind)
    (root : StateId) : Ensures (passes g root fuel) s fun answer _ => NoEnd answer := by
  induction fuel generalizing s with
  | zero => exact Ensures.pure (.ok _)
  | succ fuel ih =>
    unfold passes
    refine Ensures.get_bind ?_
    by_cases hend : s.atEnd = true
    · rw [if_pos hend]
      exact Ensures.pure (.ok _)
    rw [if_neg hend]
    refine Ensures.get_bind ?_
    have hpass : Ensures (scan g root) s fun answer t => Scanned g s answer t ∧ NoEnd answer :=
      ⟨scan_scanned root s hs, scan_noEnd hs hrewind (Bool.eq_false_iff.2 hend) root⟩
    refine hpass.bind (fun stop t h offset he => ?_) fun found t h => ?_
    · exact h.2 offset (congrArg Except.error (Except.error.inj he))
    have hmoved : Ensures (checkMoved s.position) t fun answer u => NoEnd answer ∧ u = t := by
      refine Ensures.get_bind ?_
      split
      · exact ⟨by rintro _ ⟨⟩, rfl⟩
      · exact Ensures.pure ⟨.ok _, rfl⟩
    refine hmoved.bind (fun stop u h' offset he => ?_) ?_
    · exact h'.1 offset (congrArg Except.error (Except.error.inj he))
    · rintro _ u ⟨-, rfl⟩
      exact ih h.1.sound (by rw [h.1.covers.settings, hrewind])

theorem run_noEnd (hs : Sound g s) (hrewind : s.settings.shortfall = .rewind) (root : StateId) :
    NoEnd (run g root s).1 := by
  have hrun : Ensures (run g root) s fun answer _ => NoEnd answer := by
    refine Ensures.get_bind ?_
    refine (passes_noEnd _ hs hrewind root).bind (fun stop t h offset he => ?_) fun _ t _ => ?_
    · exact h offset (congrArg Except.error (Except.error.inj he))
    · unfold Ensures
      rw [checkBalanced_eq]
      split
      · split <;> nofun
      · nofun
  exact hrun

/-- **The end of the source is never met by surprise.** Where repetitions go back when they fall
short, a scan of any state that begins before the end of the source does not fail for its end.
Neither does any run, nor tokenizing, whatever the limits. -/
theorem scan_meets_no_end (g : Grammar) :
    (∀ {s : Session}, Reached g s → s.settings.shortfall = .rewind →
      (s.atEnd = false → ∀ id, NoEnd (scan g id s).1) ∧ ∀ root, NoEnd (run g root s).1) ∧
    ∀ source settings, settings.shortfall = .rewind → NoEnd (g.tokenize source settings) := by
  refine ⟨fun hs hrewind => ?_, fun source settings hrewind => ?_⟩
  · have hsound := hs.steady.toSound
    exact ⟨scan_noEnd hsound hrewind, run_noEnd hsound hrewind⟩
  · have hsound : Sound g (.start source settings) :=
      start_sound source settings _ Memo.coherent_empty
    unfold Grammar.tokenize
    split
    · nofun
    · next root _ =>
      have hrun := run_noEnd hsound hrewind root
      split
      · nofun
      · next stop _ heq =>
        rw [heq] at hrun
        exact fun offset he => hrun offset (congrArg Except.error (Except.error.inj he))

/-- Two or more letters, or else one. -/
def lettersOrOne : Grammar :=
  { Grammar.letters with graph := { nodes :=
      Grammar.letters.graph.nodes.push { kind := .choice, branches := [⟨1⟩, ⟨0⟩] } } }

/-- Over one letter the repetition falls short at the end of the source. It goes back, and the
letter is found; where it stays, the letter is looked for at the end. -/
theorem scan_meets_no_end_lettersOrOne :
    NoEnd (scan lettersOrOne ⟨2⟩ (.start "a")).1 ∧
      (scan lettersOrOne ⟨2⟩ (.start "a" { shortfall := .keep })).1 =
        .error (.error (.unexpectedEnd 1)) := by
  have hs : Reached lettersOrOne (.start "a") := .start "a" {}
  have hleft : (Session.start "a").atEnd = false := by decide +kernel
  exact ⟨((scan_meets_no_end lettersOrOne).1 hs rfl).1 hleft ⟨2⟩, by decide +kernel⟩

end Session

end Lexigraph
