/-
# Lexigraph.Proofs.Session.Passes -- what the passes of a run answered

A run asks of a pass that it moved forward, and does not look at what it answered. The
passes of a run are told here one after another, each with its answer, so that the answers
can be asked about (`run_eq_ok_iff`). Where repetitions go back when they fall short, a pass
that did not match has not moved, and so a run that succeeds is made of passes that matched
(`accepts_of_run`). Where repetitions stay, a pass can fall short, move forward all the same,
and be accepted with nothing emitted (`letters_accepted`).
-/

import Mathlib.Data.Prod.Basic
import Lexigraph.Proofs.Session.Reached
import Lexigraph.Proofs.TokenStream.Lossless

namespace Lexigraph

namespace Session

open Attempt (Ensures)

/-- A pass of a run: the session that it began in, its answer, and the session that it left. -/
structure Pass where
  before : Session
  matched : Bool
  after : Session

/-- The pass added nothing to the frame that it worked in. -/
structure Pass.Silent (p : Pass) : Prop where
  start : p.after.active.start = p.before.active.start
  tokens : p.after.active.tokens = p.before.active.tokens

/-- Scans of a state one after another lead from a session to another. Each of them begins where
something is left, answers, and moves forward. -/
inductive Strides (g : Grammar) (root : StateId) : Session → List Pass → Session → Prop where
  | here (s : Session) : Strides g root s [] s
  | pass {s t u : Session} {matched : Bool} {told : List Pass} (hend : s.atEnd = false)
      (hscan : scan g root s = (.ok matched, t)) (hmoved : s.position < t.position)
      (rest : Strides g root t told u) : Strides g root s (⟨s, matched, t⟩ :: told) u

/-- Scans of a state lead to a session in which nothing is left. -/
structure Passed (g : Grammar) (root : StateId) (s : Session) (told : List Pass) (t : Session) :
    Prop where
  strides : Strides g root s told t
  atEnd : t.atEnd = true

/-- What a run that succeeded is made of. -/
structure Accepts (g : Grammar) (root : StateId) (s : Session) (told : List Pass) (t : Session) :
    Prop where
  passed : Passed g root s told t
  /-- Where repetitions go back, every pass matched. -/
  matched : s.settings.shortfall = .rewind → ∀ p ∈ told, p.matched = true
  /-- A pass that did not match added nothing. -/
  silent : ∀ p ∈ told, p.matched = false → p.Silent

variable {g : Grammar} {root : StateId} {s t : Session} {told : List Pass}

/-! ## The passes of a run -/

/-- Passes that succeed can be told, if there may be as many of them as bytes. -/
theorem passes_told (fuel : Nat) (hs : Sound g s) (hfuel : s.scanner.bytesLeft ≤ fuel) :
    Ensures (passes g root fuel) s fun answer t =>
      answer = .ok ⟨⟩ → ∃ told, Passed g root s told t := by
  induction fuel generalizing s with
  | zero =>
    exact Ensures.pure fun _ => ⟨[], .here s, atEnd_of_bytesLeft (Nat.le_zero.1 hfuel)⟩
  | succ fuel ih =>
    unfold passes
    refine Ensures.get_bind ?_
    by_cases hend : s.atEnd = true
    · rw [if_pos hend]
      exact Ensures.pure fun _ => ⟨[], .here s, hend⟩
    rw [if_neg hend]
    refine Ensures.get_bind ?_
    have hpass : Ensures (scan g root) s fun answer t =>
        Scanned g s answer t ∧ scan g root s = (answer, t) := ⟨scan_scanned root s hs, rfl⟩
    refine hpass.bind (fun e t _ h => by cases h) ?_
    rintro matched t ⟨ht, hscan⟩
    refine (checkMoved_ensures ht.sound _).bind (fun e u _ h => by cases h) ?_
    rintro _ t ⟨-, rfl, hmoved⟩
    have hlt : s.position < t.position := hmoved rfl
    have hleft := bytesLeft_le_of_lt hs ht.sound ht.covers.source hlt hfuel
    refine (ih ht.sound hleft).mono fun answer u h hok => ?_
    obtain ⟨told, rest, hdone⟩ := h hok
    exact ⟨_, .pass (Bool.eq_false_iff.2 hend) hscan hlt rest, hdone⟩

/-- Passes that are told succeed. -/
theorem Passed.passes_eq_ok (h : Passed g root s told t) (hs : Sound g s) {fuel : Nat}
    (hfuel : s.scanner.bytesLeft ≤ fuel) : passes g root fuel s = (.ok ⟨⟩, t) := by
  obtain ⟨hstrides, hdone⟩ := h
  induction hstrides generalizing fuel with
  | here => exact passes_atEnd fuel hdone
  | @pass s t u matched told hend hscan hmoved rest ih =>
    have ht : Scanned g s (.ok matched) t := (scan_scanned root s hs).of_eq hscan
    cases fuel with
    -- something is left at the beginning of a pass
    | zero => exact absurd (atEnd_of_bytesLeft (Nat.le_zero.1 hfuel)) (Bool.eq_false_iff.1 hend)
    | succ fuel =>
      have hleft := bytesLeft_le_of_lt hs ht.sound ht.covers.source hmoved hfuel
      have hcheck : checkMoved s.position t = (.ok ⟨⟩, t) := by
        unfold checkMoved
        rw [Attempt.get_bind_apply, if_neg (Nat.not_le.2 hmoved)]
        rfl
      unfold passes
      rw [Attempt.get_bind_apply, if_neg (Bool.eq_false_iff.1 hend), Attempt.get_bind_apply,
        Attempt.bind_apply, hscan]
      simp only
      rw [Attempt.bind_apply, hcheck]
      exact ih ht.sound hleft hdone

/-- Each pass is a scan in a sound session under the same settings. -/
theorem Strides.scanned (h : Strides g root s told t) (hs : Sound g s) :
    ∀ p ∈ told, Scanned g p.before (.ok p.matched) p.after ∧
      p.before.position < p.after.position ∧ p.before.settings = s.settings := by
  induction h with
  | here => simp
  | @pass s t u matched told hend hscan hmoved rest ih =>
    have ht : Scanned g s (.ok matched) t := (scan_scanned root s hs).of_eq hscan
    rw [List.forall_mem_cons]
    refine ⟨⟨ht, hmoved, rfl⟩, fun p hp => ?_⟩
    obtain ⟨hscanned, hlt, hsettings⟩ := ih ht.sound p hp
    exact ⟨hscanned, hlt, hsettings.trans ht.covers.settings⟩

/-- Passes leave the frames around the active one as they are. -/
theorem Strides.sound (h : Strides g root s told t) (hs : Sound g s) :
    Sound g t ∧ t.outer = s.outer := by
  induction h with
  | here => exact ⟨hs, rfl⟩
  | pass hend hscan hmoved rest ih =>
    have ht := (scan_scanned root _ hs).of_eq hscan
    obtain ⟨hu, houter⟩ := ih ht.sound
    exact ⟨hu, houter.trans ht.covers.outer⟩

theorem told_of_run (hs : Sound g s) (hrun : run g root s = (.ok ⟨⟩, t)) :
    ∃ told, Passed g root s told t := by
  have h : Ensures (run g root) s fun answer t =>
      answer = .ok ⟨⟩ → ∃ told, Passed g root s told t := by
    refine Ensures.get_bind ?_
    refine (passes_told _ hs (Nat.le_refl _)).bind (fun e t _ => nofun) ?_
    rintro _ t h
    refine (checkBalanced_ensures t).mono ?_
    rintro _ _ rfl -
    exact h rfl
  exact h.of_eq hrun rfl

/-- **A run in the root frame succeeds exactly if its passes can be told.** -/
theorem run_eq_ok_iff (hs : Sound g s) (houter : s.outer = []) :
    run g root s = (.ok ⟨⟩, t) ↔ ∃ told, Passed g root s told t := by
  refine ⟨told_of_run hs, ?_⟩
  rintro ⟨told, h⟩
  obtain ⟨ht, htouter⟩ := h.strides.sound hs
  unfold run
  rw [Attempt.get_bind_apply, Attempt.bind_apply, h.passes_eq_ok hs (Nat.le_refl _)]
  exact checkBalanced_apply ht (htouter.trans houter)

/-! ## What is accepted -/

theorem Passed.accepts (h : Passed g root s told t) (hs : Sound g s) :
    Accepts g root s told t where
  passed := h
  matched := by
    intro hrewind p hp
    obtain ⟨hscanned, hmoved, hsettings⟩ := h.strides.scanned hs p hp
    cases hmatched : p.matched with
    | true => rfl
    -- a pass that did not match would have gone back to where it began
    | false =>
      rw [hmatched] at hscanned
      have hstayed := hscanned.unmoved rfl (hsettings ▸ hrewind)
      exact absurd hstayed (Nat.ne_of_gt hmoved)
  silent := by
    intro p hp hmatched
    obtain ⟨hscanned, -⟩ := h.strides.scanned hs p hp
    rw [hmatched] at hscanned
    exact ⟨(hscanned.sameFrame rfl).start, (hscanned.sameFrame rfl).tokens⟩

/-- **A run that succeeds is made of passes that moved forward, and of nothing else.** Where
repetitions go back when they fall short, each of them matched. Where they stay, one that did not
match may be among them, but it added nothing. Tokenizing succeeds through such a run. -/
theorem accepts_of_run (g : Grammar) :
    (∀ {s t : Session} (root : StateId), Reached g s → run g root s = (.ok ⟨⟩, t) →
      ∃ told, Accepts g root s told t) ∧
    ∀ {source : String} {settings : Settings} {stream : TokenStream},
      g.tokenize source settings = .ok stream →
        ∃ root told t, g.root = some root ∧ Accepts g root (.start source settings) told t ∧
          stream = { source := t.scanner.source, tokens := t.tokens } := by
  constructor
  · intro s t root hs hrun
    have hsound := hs.steady.toSound
    obtain ⟨told, h⟩ := told_of_run hsound hrun
    exact ⟨told, h.accepts hsound⟩
  · intro source settings stream h
    obtain ⟨root, t, hroot, hrun, hstream⟩ := Grammar.tokenize_eq_ok h
    have hsound : Sound g (.start source settings) :=
      start_sound source settings _ Memo.coherent_empty
    obtain ⟨told, h⟩ := told_of_run hsound hrun
    exact ⟨root, told, t, hroot, h.accepts hsound, hstream⟩

theorem accepts_of_run_letters : ∃ told t,
    run .letters ⟨1⟩ (.start "aa") = (.ok ⟨⟩, t) ∧
      Accepts .letters ⟨1⟩ (.start "aa") told t ∧ ∀ p ∈ told, p.matched = true := by
  have hrun : (run .letters ⟨1⟩ (.start "aa")).1 = .ok ⟨⟩ := by decide +kernel
  have hrun' : run .letters ⟨1⟩ (.start "aa") = (.ok ⟨⟩, (run .letters ⟨1⟩ (.start "aa")).2) :=
    Prod.fst_eq_iff.1 hrun
  obtain ⟨told, h⟩ := (accepts_of_run .letters).1 ⟨1⟩ (.start "aa" {}) hrun'
  exact ⟨told, _, hrun', h, h.matched rfl⟩

/-- One letter, for a repetition that asks for two and stays where it falls short. -/
def letterKept : Session := .start "a" { shortfall := .keep }

/-- The one pass of this run did not match, and yet the run succeeds, without a token. -/
theorem letters_accepted : ∃ t, run .letters ⟨1⟩ letterKept = (.ok ⟨⟩, t) ∧ t.tokens = #[] ∧
    Passed .letters ⟨1⟩ letterKept [⟨letterKept, false, t⟩] t := by
  have hscan : scan .letters ⟨1⟩ letterKept = (.ok false, (scan .letters ⟨1⟩ letterKept).2) :=
    Prod.fst_eq_iff.1 (by decide +kernel)
  have hmoved : letterKept.position < (scan .letters ⟨1⟩ letterKept).2.position := by decide +kernel
  have hend : (scan .letters ⟨1⟩ letterKept).2.atEnd = true := by decide +kernel
  have htokens : (scan .letters ⟨1⟩ letterKept).2.tokens = #[] := by decide +kernel
  have hpassed : Passed .letters ⟨1⟩ letterKept [⟨letterKept, false, _⟩] _ :=
    ⟨.pass (by decide +kernel) hscan hmoved (.here _), hend⟩
  have hsound : Sound .letters letterKept := start_sound _ _ _ Memo.coherent_empty
  exact ⟨_, (run_eq_ok_iff hsound rfl).2 ⟨_, hpassed⟩, htokens, hpassed⟩

end Session

end Lexigraph
