/-
# Lexigraph.Proofs.Session.Account -- the record is a faithful account

The events that a scan adds to the record tell all that became of the tokens of the active frame:
played back from the tokens that were there before the scan they lead to those that are there
after it. They tell of repetitions from beginning to end, one inside the other, and what they say
of states, of tokens and of numbers is so (`scan_recorded`).
-/

import Mathlib.Data.Prod.Basic
import Lexigraph.Proofs.Session.Reached
import Lexigraph.Proofs.Session.Record

namespace Lexigraph.Session

variable {g : Grammar} {s t : Session} {id : StateId} {found : Bool}

/-- **The record of a scan is a faithful account.** From whatever session, the events of a scan that
comes to an end are played back without dropping the last list, and leave the tokens of the active
frame; the frames around it are as they were. Repetitions nest in them, with all their rounds. The
lengths that they tell are those of the topmost list at that point, and what they tell of states and
tokens is so in the grammar. -/
theorem scan_recorded (h : scan g id s = (.ok found, t)) :
    ∃ events, t.events.toList = s.events.toList ++ events ∧
      replayTokens events [s.active.tokens.toList] = some [t.active.tokens.toList] ∧
      Nested events ∧ Measured events [s.active.tokens.toList] ∧
      (∀ event ∈ events, g.Tells event) ∧ t.outer = s.outer := by
  obtain ⟨events, hrecorded, hnested⟩ := ((scan_logs id s).of_eq h).of_ok
  exact ⟨events, hrecorded.appended, hrecorded.replayed, hnested,
    hnested.measured s.active.tokens.toList [], hrecorded.told, hrecorded.outer⟩

/-- A session that has scanned a letter and has two more to go. -/
def letterScanned : Session := (scan .letters ⟨0⟩ (.start "aaa")).2

theorem scan_recorded_letters :
    (scan .letters ⟨1⟩ letterScanned).1 = .ok true ∧
    ∃ events, (scan .letters ⟨1⟩ letterScanned).2.events.toList =
        letterScanned.events.toList ++ events ∧ Nested events ∧
      replayTokens events [[⟨⟨0⟩, ⟨0, 1⟩⟩]] = some [[⟨⟨0⟩, ⟨0, 1⟩⟩, ⟨⟨1⟩, ⟨1, 3⟩⟩]] := by
  have hok : (scan .letters ⟨1⟩ letterScanned).1 = .ok true := by decide +kernel
  have hbefore : letterScanned.active.tokens.toList = [⟨⟨0⟩, ⟨0, 1⟩⟩] := by decide +kernel
  have hafter : (scan .letters ⟨1⟩ letterScanned).2.active.tokens.toList =
      [⟨⟨0⟩, ⟨0, 1⟩⟩, ⟨⟨1⟩, ⟨1, 3⟩⟩] := by decide +kernel
  have houtcome : scan .letters ⟨1⟩ letterScanned =
      (.ok true, (scan .letters ⟨1⟩ letterScanned).2) := Prod.fst_eq_iff.1 hok
  obtain ⟨events, happended, hreplayed, hnested, -⟩ := scan_recorded houtcome
  rw [hbefore, hafter] at hreplayed
  exact ⟨hok, events, happended, hnested, hreplayed⟩

end Lexigraph.Session
