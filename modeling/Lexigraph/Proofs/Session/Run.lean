/-
# Lexigraph.Proofs.Session.Run -- a run keeps sessions sound

Each pass of a run has to move forward, so a run makes no more passes than there are bytes,
and when it succeeds nothing is left (`passes_ensures`). A fresh session is sound, and one that
has the root frame alone passes the check at the end of a run (`run_ensures`).
-/

import Lexigraph.Proofs.Session.Scanned

namespace Lexigraph.Session

open Attempt (Ensures)

variable {g : Grammar} {s t : Session} {root : StateId}

theorem start_sound (source : String) (settings : Settings) (memo : Memo)
    (hmemo : memo.Coherent g.rules (.ofString source)) :
    Sound g (.start source settings memo) where
  synced := rfl
  active := ⟨Nat.le_refl _, Source.isBoundary_zero _, Source.isBoundary_zero _⟩
  outer := by simp [Session.start]
  unmarked := rfl
  memo := hmemo

/-! ## Passes -/

theorem passes_atEnd {root : StateId} (fuel : Nat) (hend : s.atEnd = true) :
    passes g root fuel s = (.ok ⟨⟩, s) := by
  cases fuel with
  | zero => rfl
  | succ fuel =>
    unfold passes
    rw [Attempt.get_bind_apply, if_pos hend]
    rfl

/-- A pass that got past the check moved forward. -/
theorem checkMoved_ensures (hs : Sound g s) (before : Nat) :
    Ensures (checkMoved before) s fun answer s' =>
      Works g s answer s' ∧ s' = s ∧ (answer = .ok ⟨⟩ → before < s.position) := by
  refine Ensures.get_bind ?_
  by_cases h : s.position ≤ before
  · rw [if_pos h]
    exact ⟨.fail hs _, rfl, nofun⟩
  · rw [if_neg h]
    exact Ensures.pure ⟨.pure hs _, rfl, fun _ => Nat.lt_of_not_le h⟩

/-- Passes keep a session sound. With as many passes as there are bytes left, nothing is left. -/
theorem passes_ensures (fuel : Nat) (hs : Sound g s) (hfuel : s.scanner.bytesLeft ≤ fuel) :
    Ensures (passes g root fuel) s fun answer s' =>
      Works g s answer s' ∧ (answer = .ok ⟨⟩ → s'.atEnd = true) := by
  induction fuel generalizing s with
  | zero =>
    exact Ensures.pure ⟨.pure hs _, fun _ => atEnd_of_bytesLeft (Nat.le_zero.1 hfuel)⟩
  | succ fuel ih =>
    unfold passes
    refine Ensures.get_bind ?_
    by_cases hend : s.atEnd = true
    · rw [if_pos hend]
      exact Ensures.pure ⟨.pure hs _, fun _ => hend⟩
    rw [if_neg hend]
    refine Ensures.get_bind ?_
    refine (scan_scanned root s hs).bind (fun e t h => ⟨h.toWorks.stop, nofun⟩) fun _ t ht => ?_
    refine (checkMoved_ensures ht.sound _).bind (fun e u h => ⟨.trans ht.covers h.1, nofun⟩) ?_
    rintro _ t ⟨-, rfl, hmoved⟩
    have hlt : s.position < t.position := hmoved rfl
    -- each pass takes at least a byte, so the passes last until nothing is left
    have hleft := bytesLeft_le_of_lt hs ht.sound ht.covers.source hlt hfuel
    exact (ih ht.sound hleft).mono fun answer u h => ⟨.trans ht.covers h.1, h.2⟩

/-! ## The end of a run -/

/-- The check looks at the frames around the active one and at the marks, and changes nothing. -/
theorem checkBalanced_eq (s : Session) : checkBalanced s =
    (if s.outer.isEmpty then
      if s.scanner.marks.isEmpty then .ok ⟨⟩ else .error (.fault .unbalancedMarks)
    else .error (.fault .unbalancedFrames), s) := by
  unfold checkBalanced
  rw [Attempt.get_bind_apply]
  cases s.outer.isEmpty with
  | false => rfl
  | true =>
    show (if s.scanner.marks.isEmpty = true then _ else _ : Scanning PUnit) s = _
    cases s.scanner.marks.isEmpty <;> rfl

/-- Only the root frame and no mark is left of a sound session that never had more. -/
theorem checkBalanced_apply (hs : Sound g s) (houter : s.outer = []) :
    checkBalanced s = (.ok ⟨⟩, s) := by
  rw [checkBalanced_eq, houter, hs.unmarked]
  rfl

theorem checkBalanced_ensures (s : Session) : Ensures checkBalanced s fun _ t => t = s := by
  unfold Ensures
  rw [checkBalanced_eq]

/-- A run keeps the session sound, whichever frame it is in. -/
theorem run_covers (hs : Sound g s) (root : StateId) :
    Ensures (run g root) s fun _ t => Sound g t ∧ Covers s t := by
  refine Ensures.get_bind ?_
  refine (passes_ensures _ hs (Nat.le_refl _)).bind (fun e t h => ⟨h.1.sound, h.1.covers⟩) ?_
  rintro _ t ⟨hworks, -⟩
  refine (checkBalanced_ensures t).mono ?_
  rintro _ _ rfl
  exact ⟨hworks.sound, hworks.covers⟩

/-- **A run in the root frame** keeps the session sound, breaks no promise, and leaves nothing
to scan when it succeeds. -/
theorem run_ensures (hs : Sound g s) (houter : s.outer = []) :
    Ensures (run g root) s fun answer s' =>
      Works g s answer s' ∧ (answer = .ok ⟨⟩ → s'.atEnd = true) := by
  refine Ensures.get_bind ?_
  refine (passes_ensures _ hs (Nat.le_refl _)).bind (fun e t h => ⟨h.1.stop, nofun⟩) ?_
  rintro _ t ⟨hworks, hend⟩
  have htouter : t.outer = [] := hworks.covers.outer.trans houter
  unfold Ensures
  rw [checkBalanced_apply hworks.sound htouter]
  exact ⟨⟨hworks.sound, hworks.covers, by simp⟩, fun _ => hend rfl⟩

end Lexigraph.Session
