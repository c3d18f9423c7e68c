/-
# Lexigraph.Proofs.Session.Translation -- a scan is the same wherever it takes place

Let a session stand between two parts of its source, with no text uncovered. A scan there comes
to the same as in a fresh session on the second part alone, with all offsets further on by the
first part: the same answer or the same error, the same place to stand at, and the same tokens
after those that the frame had (`scan_translated`). So nothing that was passed over, emitted or
remembered has a say in what comes.

The two sources may set different bounds for the nesting of scans. The scans are compared under a
bound that is large enough for both.
-/

import Lexigraph.Proofs.Session.Mirror
import Lexigraph.Proofs.Session.Shift

namespace Lexigraph.Session

variable {g : Grammar} {s t : Session}

/-! ## Large bounds -/

/-- Under a bound that is large enough a scan is what it is, or it is endless under both. -/
theorem scanNested_of_large (hs : Steady g s) (id : StateId) {bound : Nat}
    (hle : nestingBound g s.settings s.scanner.source.size ≤ bound) :
    scanNested g bound id s = scan g id s ∨
      (scanNested g bound id s).1 = .error .endless ∧ (scan g id s).1 = .error .endless := by
  by_cases hend : (scan g id s).1 = .error .endless
  · exact .inr ⟨scanNested_endless hs hend bound, hend⟩
  · exact .inl (scanNested_of_le hs hle hend)

/-! ## Behind a fresh session -/

/-- What a session has behind it that stands after a text. -/
def leadAfter (s : Session) (text : List Char) : Lead := ⟨text, s.active.tokens, s.outer⟩

/-- A session that stands after a text, with no text uncovered, is ahead of a fresh session on the
rest. -/
theorem ahead_of_fresh {u v : String} (hs : Steady g s) (ht : Fresh t)
    (hsource : s.scanner.source = .ofString (u ++ v)) (hrest : t.scanner.source = .ofString v)
    (hsettings : t.settings = s.settings) (hunlimited : s.settings.maxSteps = none)
    (hstart : s.active.start = Text.size u.toList) (hposition : s.position = Text.size u.toList) :
    Ahead g (s.leadAfter u.toList) 0 s t := by
  have hready := ht.reached (g := g) |>.steady
  have hactive : t.active = .startingAt 0 := by cases ht <;> rfl
  have houter : t.outer = [] := by cases ht <;> rfl
  have hzero : t.scanner.position = 0 := by cases ht <;> rfl
  refine {
    chars := ?_
    position := ?_
    settings := hsettings.symm
    unlimited := hsettings ▸ hunlimited
    limit := by rw [hs.limit, hready.limit, hsettings]
    depth := hs.level.trans hready.level.symm
    active := ?_
    outer := by rw [houter]; rfl
    level := by rw [houter]; rfl
    memo_left := hs.memo
    memo_right := hready.memo }
  · rw [hsource, hrest]
    exact String.toList_append
  · rw [hs.synced, hposition, hzero]
    rfl
  · rw [hactive, houter]
    have hcurrent : s.active.current = Text.size u.toList := hposition
    calc s.active = ⟨s.active.start, s.active.current, s.active.tokens⟩ := rfl
      _ = (s.leadAfter u.toList).frame s.active.tokens (.startingAt 0) := by
        rw [hstart, hcurrent]
        simp [leadAfter, Lead.frame, Lead.size, Frame.startingAt]

/-! ## The same scan further on -/

/-- A session stands where another one does, `n` bytes further on, and its frame has the tokens
that it had in `before`, and then those of the other one. -/
structure FurtherOn (n : Nat) (before s t : Session) : Prop where
  start : s.active.start = n + t.active.start
  position : s.position = n + t.position
  scanner : s.scanner.position = n + t.scanner.position
  tokens : s.active.tokens = before.active.tokens ++ t.active.tokens.map (Token.shift n)
  outer : s.outer = before.outer

theorem Ahead.furtherOn {text : List Char} {before : Session}
    (h : Ahead g (before.leadAfter text) 0 s t) : FurtherOn (Text.size text) before s t := by
  have houter : t.outer = [] := List.eq_nil_of_length_eq_zero h.level
  have hactive := h.active
  have houter' := h.outer
  rw [houter] at hactive houter'
  exact {
    start := congrArg Frame.start hactive
    position := h.current
    scanner := h.position
    tokens := congrArg Frame.tokens hactive
    outer := houter' }

/-- What was carried has the same answer, further on. -/
theorem Carried.furtherOn {text : List Char} {before : Session} {α : Type}
    {x y : Except (Stop ScanError) α × Session}
    (h : Carried g (before.leadAfter text) 0 0 Eq x y) :
    x.1 = y.1.mapError (Stop.shift (Text.size text)) ∧
      FurtherOn (Text.size text) before x.2 y.2 := by
  cases h with
  | ok hab hst => exact ⟨congrArg Except.ok hab, hst.furtherOn⟩
  | stop stop hst => exact ⟨rfl, hst.furtherOn⟩

theorem eq_endless_of_mapError {α : Type} {n : Nat} {answer : Except (Stop ScanError) α}
    (h : answer.mapError (Stop.shift n) = .error .endless) : answer = .error .endless := by
  cases answer with
  | ok a => cases h
  | error stop => rw [Stop.shift_eq_endless.1 (Except.error.inj h)]

/-- **A scan is the same wherever it takes place.** Let a session without a limit for steps, however
it was reached, stand between two parts of its source, with no text uncovered. A scan of any
state answers as in a fresh session with the same settings on the second part, an error with its
offset further on. Unless both are endless, the session then stands where the other one does,
further on, with the tokens of the other one after its own. -/
theorem scan_translated (g : Grammar) {u v : String} (hs : Reached g s) (ht : Fresh t)
    (hsource : s.scanner.source = .ofString (u ++ v)) (hrest : t.scanner.source = .ofString v)
    (hsettings : t.settings = s.settings) (hunlimited : s.settings.maxSteps = none)
    (hstart : s.active.start = Text.size u.toList) (hposition : s.position = Text.size u.toList)
    (id : StateId) :
    (scan g id s).1 = (scan g id t).1.mapError (Stop.shift (Text.size u.toList)) ∧
      ((scan g id t).1 ≠ .error .endless →
        FurtherOn (Text.size u.toList) s (scan g id s).2 (scan g id t).2) := by
  have hahead := ahead_of_fresh hs.steady ht hsource hrest hsettings hunlimited hstart hposition
  generalize hbound : max (nestingBound g s.settings s.scanner.source.size)
    (nestingBound g t.settings t.scanner.source.size) = bound
  obtain ⟨hanswer, hfurther⟩ := (scanNested_carries (g := g) bound id 0 s t hahead).furtherOn
  have hleft := scanNested_of_large hs.steady id (hbound ▸ Nat.le_max_left ..)
  have hright := scanNested_of_large (ht.reached (g := g)).steady id (hbound ▸ Nat.le_max_right ..)
  -- under the common bound both are endless or neither is, so both are what they are or endless
  by_cases hend : (scanNested g bound id t).1 = .error .endless
  · have hend' : (scan g id t).1 = .error .endless := by
      rcases hright with heq | ⟨-, hend'⟩
      · rwa [← heq]
      · exact hend'
    refine ⟨?_, fun hne => absurd hend' hne⟩
    rw [hend] at hanswer
    rw [hend']
    rcases hleft with heq | ⟨-, hleft⟩
    · rwa [← heq]
    · exact hleft
  · have hright := hright.resolve_right fun h => hend h.1
    have hleft := hleft.resolve_right fun h => hend <| by
      rw [h.1] at hanswer
      exact eq_endless_of_mapError hanswer.symm
    rw [← hleft, ← hright]
    exact ⟨hanswer, fun _ => hfurther⟩

/-- After the first letter of three, two letters are found as they are where there are no more. -/
theorem scan_translated_letters :
    (scan .letters ⟨1⟩ (perform .letters (.scan ⟨0⟩) (.start "aaa")).2).1 = .ok true ∧
      FurtherOn 1 (perform .letters (.scan ⟨0⟩) (.start "aaa")).2
        (scan .letters ⟨1⟩ (perform .letters (.scan ⟨0⟩) (.start "aaa")).2).2
        (scan .letters ⟨1⟩ (.start "aa")).2 := by
  have hs : Reached .letters (perform .letters (.scan ⟨0⟩) (.start "aaa")).2 :=
    .perform (.start "aaa" {}) (.scan ⟨0⟩)
  have hsource : (perform .letters (.scan ⟨0⟩) (.start "aaa")).2.scanner.source =
      .ofString ("a" ++ "aa") := by decide +kernel
  have hfound : (scan .letters ⟨1⟩ (.start "aa")).1 = .ok true := by decide +kernel
  obtain ⟨hanswer, hfurther⟩ := scan_translated .letters hs (.remembering "aa" {}) hsource rfl
    (by decide +kernel) (by decide +kernel) (by decide +kernel) (by decide +kernel) ⟨1⟩
  rw [hfound] at hanswer hfurther
  refine ⟨hanswer, hfurther ?_⟩
  rintro ⟨⟩

end Lexigraph.Session
