/-
# Lexigraph.Proofs.Session.Scanned -- scanning keeps sessions sound

One lemma for each part of a scan, from the steps up to the scan of a state. All of them
speak about sound sessions; those of the larger parts assume of the scans that they use what
`scanNested_scanned` proves by induction on the nesting.
-/

import Lexigraph.Proofs.Session.Sound

namespace Lexigraph.Session

open Attempt (Ensures)

variable {g : Grammar} {s t : Session}

/-! ## Steps -/

theorem Sound.note (hs : Sound g s) (event : Event) :
    Sound g { s with events := s.events.push event } := { hs with }

theorem Onward.note (h : Onward s t) (event : Event)
    (hevent : ∀ n ∈ event.rounds?, n ≤ t.scanner.source.size) :
    Onward s { t with events := t.events.push event } :=
  { h with tallied := fun hs => (h.tallied hs).note hevent }

theorem Covers.note (h : Covers s t) (event : Event)
    (hevent : ∀ n ∈ event.rounds?, n ≤ t.scanner.source.size) :
    Covers s { t with events := t.events.push event } :=
  { h.toOnward.note event hevent with tokens := h.tokens }

theorem emit_pending {id : StateId} {token : TokenId} (h : s.active.start < s.active.current) :
    emit id token s = (.ok ⟨⟩, { s with
      active := { s.active with
        start := s.active.current
        tokens := s.active.tokens.push ⟨token, s.active.pending⟩ }
      events := s.events.push (.emitted id ⟨token, s.active.pending⟩) }) := by
  show (_, ite _ _ _) = _
  rw [if_pos h]

theorem emit_nothing {id : StateId} {token : TokenId} (h : ¬ s.active.start < s.active.current) :
    emit id token s = (.ok ⟨⟩, s) := by
  show (_, ite _ _ _) = _
  rw [if_neg h]

/-- Emitting covers all uncovered text. -/
theorem emit_ensures (hs : Sound g s) (id : StateId) (token : TokenId) :
    Ensures (emit id token) s fun answer s' =>
      Works g s answer s' ∧ s'.active.start = s'.position := by
  unfold Ensures
  by_cases h : s.active.start < s.active.current
  · rw [emit_pending h]
    refine ⟨⟨?_, ?_, by simp⟩, rfl⟩
    · exact { hs with active := ⟨Nat.le_refl _, hs.active.current_ok, hs.active.current_ok⟩ }
    · have hnote := (Onward.refl s).note (.emitted id ⟨token, s.active.pending⟩) nofun
      refine ⟨{ hnote with start := hs.active.ordered }, [⟨token, s.active.pending⟩], ?_, ?_, ?_⟩
      · exact Array.toList_push
      · exact Tiles.singleton h hs.active.current_ok
      · exact fun t ht => List.mem_singleton.1 ht ▸ Nat.le_refl _
  -- where nothing is pending nothing is emitted, and all text is covered already
  · rw [emit_nothing h]
    exact ⟨.pure hs _, Nat.le_antisymm hs.active.ordered (Nat.not_lt.1 h)⟩

theorem emitOwn_ensures (hs : Sound g s) (id : StateId) (token : Option TokenId) :
    Ensures (emitOwn id token) s (Works g s) := by
  cases token with
  | none => exact Ensures.pure (.pure hs _)
  | some token => exact (emit_ensures hs id token).mono fun _ _ h => h.1

/-- The check of the positions succeeds in a sound session. -/
theorem checkSynced_ensures (hs : Sound g s) :
    Ensures checkSynced s fun answer s' => answer = .ok ⟨⟩ ∧ s' = s := by
  refine Ensures.get_bind ?_
  rw [if_pos hs.synced]
  exact ⟨rfl, rfl⟩

/-- A look-up in the grammar changes nothing. -/
theorem ofResult_ensures {α : Type} (x : Except GrammarError α) (s : Session) :
    Ensures (Action.ofResult (x.mapError .grammar) : Scanning α) s fun answer s' =>
      s' = s ∧ match answer with
        | .ok a => x = .ok a
        | .error e => ∃ e', e = .error e' := by
  cases x with
  | ok a => exact ⟨rfl, rfl⟩
  | error e => exact ⟨rfl, _, rfl⟩

/-! ## Going on -/

section Visit

variable {scan : StateId → Scanning Bool}

/-- What is assumed of the scans that a scan uses. -/
def Scans (g : Grammar) (scan : StateId → Scanning Bool) : Prop :=
  ∀ id s, Sound g s → Ensures (scan id) s (Scanned g s)

theorem firstOf_ensures (hscan : Scans g scan) (ids : List StateId) (hs : Sound g s) :
    Ensures (firstOf scan ids) s (Scanned g s) := by
  induction ids generalizing s with
  | nil => exact ⟨.pure hs _, fun _ => ⟨rfl, rfl⟩, fun _ _ => rfl⟩
  | cons id ids ih =>
    refine (hscan id s hs).bind (fun e s' h => h.toWorks.scanned) ?_
    intro found s' h
    cases found with
    | true => exact h
    -- a state that does not match leaves the frame as it was, so the next one starts alike
    | false => exact (ih h.sound).mono fun _ _ h' => h.trans h'

theorem goOn_ensures (hscan : Scans g scan) (node : Node) (hs : Sound g s) :
    Ensures (goOn scan node) s (Works g s) := by
  refine Ensures.get_bind ?_
  by_cases hend : s.atEnd = true
  · rw [if_pos hend]
    exact Ensures.pure (.pure hs _)
  · rw [if_neg hend]
    refine (firstOf_ensures hscan node.branches hs).bind (fun e s' h => h.toWorks.stop) ?_
    exact fun found s' h => .trans h.covers (.pure h.sound _)

/-! ## Terminals -/

/-- The session with the active frame moved to a position. -/
def advance (s : Session) (position : Nat) : Session :=
  { s with active := { s.active with current := position } }

/-- To move to where the active frame is already is to stay. -/
theorem advance_of_active_eq (h : t.active = s.active) : t.advance s.position = t := by
  cases t
  cases h
  rfl

/-- Where an outcome leaves the scanner, the frame can follow. -/
theorem Sound.advance {scanner : Scanner} {memo : Memo} {rule : Rule} {n : Nat} (hs : Sound g s)
    (hmemo : memo.Coherent g.rules s.scanner.source) (hleaves : rule.Leaves s.scanner scanner n) :
    Sound g (advance { s with scanner, memo } scanner.position) ∧
      Covers s (advance { s with scanner, memo } scanner.position) := by
  have hle : s.position ≤ scanner.position := by
    rw [hleaves.position, ← hs.synced]
    exact rule.le_outcome_stop _ _
  refine ⟨⟨rfl, ?_, ?_, hleaves.marks.trans hs.unmarked, ?_⟩, ?_⟩
  · refine ⟨Nat.le_trans hs.active.ordered hle, ?_, scanner.position_ok⟩
    show scanner.source.IsBoundary s.active.start
    rw [hleaves.source]
    exact hs.active.start_ok
  · show ∀ f ∈ s.outer, f.Fits scanner.source
    rw [hleaves.source]
    exact hs.outer
  · show memo.Coherent g.rules scanner.source
    rw [hleaves.source]
    exact hmemo
  · refine .of_sameFrame { Onward.refl s with source := hleaves.source, current := hle, tallied := ?_ }
      ⟨rfl, rfl⟩
    intro h
    show ∀ e ∈ s.events.toList, ∀ n ∈ e.rounds?, n ≤ scanner.source.size
    rw [hleaves.source]
    exact h

/-- Evaluation ends the scan at the end of the source. Else the frame can follow the scanner to
where the outcome left it; for a failure that is where it was. -/
theorem evaluate_ensures {rule : Rule} {id : RuleId} (hs : Sound g s)
    (hrule : g.rules.get? id = some rule) :
    Ensures (evaluate rule id) s fun answer s' =>
      match answer with
      | .error e => s' = s ∧ ∃ e', e = .error e'
      | .ok result => s'.active = s.active ∧ (∀ p, result = .failure p → p = s.position) ∧
          Sound g (s'.advance result.stop) ∧ Covers s (s'.advance result.stop) := by
  unfold Ensures
  cases hend : s.scanner.atEnd with
  | true =>
    rw [evaluate_atEnd hend]
    exact ⟨rfl, _, rfl⟩
  | false =>
    obtain ⟨scanner, memo, he, -, hmemo, hleaves⟩ := evaluate_eq_outcome hend hrule hs.memo
    have hadvance := hs.advance hmemo hleaves
    rw [hleaves.position] at hadvance
    rw [he]
    refine ⟨rfl, fun p hp => ?_, hadvance⟩
    rw [← hs.synced, ← rule.outcome_position s.scanner.remaining s.scanner.position, hp]
    rfl

theorem scanTerminal_ensures (hscan : Scans g scan) (id : StateId) (node : Node) (ruleId : RuleId)
    (hs : Sound g s) : Ensures (scanTerminal g scan id node ruleId) s (Scanned g s) := by
  refine (ofResult_ensures (g.rules.get ruleId) s).bind ?_ ?_
  · rintro _ s ⟨rfl, e, rfl⟩
    exact (Works.fail (α := Bool) hs e).scanned
  rintro rule s ⟨rfl, hrule⟩
  refine (checkSynced_ensures hs).bind (by simp) ?_
  rintro _ s ⟨-, rfl⟩
  refine (evaluate_ensures hs (RuleTable.get_eq_ok_iff.1 hrule)).bind ?_ ?_
  · rintro _ s ⟨rfl, e, rfl⟩
    exact (Works.fail (α := Bool) hs e).scanned
  rintro result s' ⟨hactive, hfailure, hsound, hcovers⟩
  cases result with
  | success span =>
    refine Ensures.modify_bind ?_
    refine (emit_ensures hsound id _).bind (fun e t h => ?_) fun _ t h => ?_
    · exact (Works.trans hcovers h.1).scanned
    · have ht := Works.trans hcovers h.1
      refine (goOn_ensures hscan node ht.sound).bind (fun e u h' => ?_) fun _ u h' => ?_
      · exact (Works.trans ht.covers h').scanned
      · exact Ensures.pure (Works.trans ht.covers h').matched
  | failure position =>
    -- a failure leaves the frame where it was, so to follow the scanner is to stay
    have hstay : s'.advance position = s' := by
      rw [hfailure position rfl]
      exact advance_of_active_eq hactive
    have hsound' : Sound g s' := hstay ▸ hsound
    have hcovers' : Covers s s' := hstay ▸ hcovers
    refine Ensures.modify_bind (Ensures.pure ?_)
    refine ⟨⟨{ hsound' with }, { hcovers' with }, by simp⟩, fun _ => ?_, fun _ _ => ?_⟩
    · exact ⟨congrArg Frame.start hactive, congrArg Frame.tokens hactive⟩
    · exact congrArg Frame.current hactive

/-! ## Repetitions -/

/-- The session with a frame begun at the current position. -/
def pushed (s : Session) : Session :=
  { s with active := .startingAt s.position, outer := s.active :: s.outer }

theorem Sound.pushed (hs : Sound g s) : Sound g s.pushed where
  synced := hs.synced
  active := ⟨Nat.le_refl _, hs.active.current_ok, hs.active.current_ok⟩
  outer := by
    intro f hf
    rcases List.mem_cons.1 hf with rfl | hf
    · exact hs.active
    · exact hs.outer f hf
  unmarked := hs.unmarked
  memo := hs.memo

theorem pop_apply {parent : Frame} {outer : List Frame} (h : s.outer = parent :: outer)
    (publish : Bool) :
    pop publish s = (.ok ⟨⟩, { s with
      outer
      active := { parent with
        current := s.active.current
        tokens := if publish then parent.tokens ++ s.active.tokens else parent.tokens } }) := by
  unfold pop
  rw [Attempt.get_bind_apply, h]
  rfl

theorem pop_root (h : s.outer = []) (publish : Bool) :
    pop publish s = (.error (.fault .rootPopped), s) := by
  unfold pop
  rw [Attempt.get_bind_apply, h]
  rfl

/-- What comes to an ordinary end leaves the frame there. -/
theorem orDrop_of_ok {α : Type} {body : Scanning α} {a : α} (h : body s = (.ok a, t)) :
    orDrop body s = (.ok a, t) := by
  unfold orDrop
  rw [h]

/-- Where a frame can be dropped, dropping it changes nothing about the stop. -/
theorem orDrop_of_error {α : Type} {body : Scanning α} {stop : Stop ScanError}
    (h : body s = (.error stop, t)) (hin : t.outer ≠ []) :
    orDrop body s = (.error stop, (pop false t).2) := by
  obtain ⟨parent, outer, houter⟩ := List.exists_cons_of_ne_nil hin
  unfold orDrop
  rw [h]
  dsimp only
  rw [Attempt.bind_apply, pop_apply houter]
  rfl

/-- Work in a frame of its own comes to nothing but a new position once the frame is dropped. -/
theorem pop_ensures (hs : Sound g s) (ht : Sound g t) (h : Onward s.pushed t) :
    Ensures (pop false) t fun answer s' => Works g s answer s' ∧ SameFrame s s' := by
  have hle : s.active.current ≤ t.active.current := h.current
  unfold Ensures
  rw [pop_apply h.outer]
  have hframe : SameFrame s { t with
      outer := s.outer, active := { s.active with current := t.active.current } } := ⟨rfl, rfl⟩
  refine ⟨⟨?_, .of_sameFrame ?_ hframe, by simp⟩, hframe⟩
  · refine { ht with active := ⟨?_, ?_, ht.active.current_ok⟩, outer := ?_ }
    · exact Nat.le_trans hs.active.ordered hle
    · show t.scanner.source.IsBoundary s.active.start
      rw [h.source]
      exact hs.active.start_ok
    · show ∀ f ∈ s.outer, f.Fits t.scanner.source
      rw [h.source]
      exact hs.outer
  · exact { h with outer := rfl, start := Nat.le_refl _, current := hle }

/-- What work in the frame of a repetition comes to. After an ordinary end the frame is still there,
and work in it went on; a stop has dropped it. -/
def InFrame {α : Type} (g : Grammar) (s : Session) (answer : Except (Stop ScanError) α)
    (s' : Session) : Prop :=
  match answer with
  | .ok _ => Sound g s' ∧ Onward s s'
  | .error e => (∀ f, e ≠ .fault f) ∧
      ∃ t, Sound g t ∧ Onward s t ∧ s' = (pop false t).2

theorem InFrame.trans {α : Type} {answer : Except (Stop ScanError) α} {s' : Session}
    (h : Onward s t) (h' : InFrame g t answer s') : InFrame g s answer s' := by
  cases answer with
  | ok n => exact ⟨h'.1, h.trans h'.2⟩
  | error e =>
    obtain ⟨hfault, u, hu, honward, rfl⟩ := h'
    exact ⟨hfault, u, hu, h.trans honward, rfl⟩

theorem orDrop_ensures (hscan : Scans g scan) (id : StateId) (hs : Sound g s)
    (hin : s.outer ≠ []) : Ensures (orDrop (scan id)) s (InFrame g s) := by
  have h := hscan id s hs
  unfold Ensures at h ⊢
  rcases hanswer : scan id s with ⟨e | found, t⟩
  · rw [hanswer] at h
    rw [orDrop_of_error hanswer (h.covers.outer ▸ hin)]
    exact ⟨fun f hf => h.faultless f (by rw [hf]), t, h.sound, h.covers.toOnward, rfl⟩
  · rw [hanswer] at h
    rw [orDrop_of_ok hanswer]
    exact ⟨h.sound, h.covers.toOnward⟩

/-- The session after a round that counted: the tokens of the round are gone, and where it got to
is kept. -/
def cleared (s : Session) (id : StateId) (done : Nat) : Session :=
  { s with
    active := { s.active with tokens := #[] }
    events := ((s.events.push (.afterChild id done s.active.tokens.size)).push
      (.beforeClear id)).push (.afterClear id (done + 1)) }

theorem Sound.cleared (hs : Sound g s) (id : StateId) (done : Nat) : Sound g (s.cleared id done) :=
  { hs with active := { hs.active with } }

theorem Onward.cleared (h : Onward s t) (id : StateId) {done : Nat}
    (hin : done + 1 ≤ t.scanner.source.size) : Onward s (t.cleared id done) := by
  have hafter := h.note (.afterChild id done t.active.tokens.size)
    fun n hn => Option.some.inj hn ▸ Nat.le_of_succ_le hin
  have hclear := (hafter.note (.beforeClear id) nofun).note (.afterClear id (done + 1))
    fun n hn => Option.some.inj hn ▸ hin
  exact { hclear with }

/-- No round is begun when the maximum is reached or nothing is left. -/
theorem oneRound_over {id child : StateId} {max : Option UInt32} {done : Nat}
    (hover : (max.any (·.toNat ≤ done) || s.atEnd) = true) :
    oneRound scan id child max done s = (.ok false, s) := by
  unfold oneRound
  rw [Attempt.get_bind_apply, if_pos hover]
  rfl

theorem rounds_over {id child : StateId} {max : Option UInt32} {done : Nat} (fuel : Nat)
    (hover : (max.any (·.toNat ≤ done) || s.atEnd) = true) :
    rounds scan id child max fuel done s = (.ok done, s) := by
  cases fuel with
  | zero => rfl
  | succ fuel =>
    rw [rounds, Attempt.bind_apply, oneRound_over hover]
    rfl

/-- A round that counts takes a byte at least. -/
theorem oneRound_ensures (hscan : Scans g scan) (id child : StateId) (max : Option UInt32)
    (done : Nat) (hs : Sound g s) (hin : s.outer ≠ [])
    (hroom : s.atEnd = false → done + 1 ≤ s.scanner.source.size) :
    Ensures (oneRound scan id child max done) s fun answer t =>
      InFrame g s answer t ∧ (answer = .ok true → s.position < t.position) := by
  refine Ensures.get_bind ?_
  by_cases hover : (max.any (·.toNat ≤ done) || s.atEnd) = true
  · rw [if_pos hover]
    exact Ensures.pure ⟨⟨hs, .refl s⟩, nofun⟩
  rw [if_neg hover]
  have hroom : done + 1 ≤ s.scanner.source.size := by
    rw [Bool.not_eq_true, Bool.or_eq_false_iff] at hover
    exact hroom hover.2
  have hnote : Onward s { s with events := s.events.push (.beforeChild id done) } :=
    (Onward.refl s).note _ fun n hn => Option.some.inj hn ▸ Nat.le_of_succ_le hroom
  refine Ensures.get_bind (Ensures.modify_bind ?_)
  refine (orDrop_ensures hscan child (hs.note _) hin).bind (fun e t h => ⟨h.trans hnote, nofun⟩) ?_
  rintro found t ⟨ht, honward⟩
  have hst := hnote.trans honward
  rw [← hst.source] at hroom
  refine Ensures.get_bind (Ensures.modify_bind (Ensures.get_bind ?_))
  split
  · refine Ensures.pure ⟨⟨ht.note _, hst.note _ fun n hn => ?_⟩, nofun⟩
    exact Option.some.inj hn ▸ Nat.le_of_succ_le hroom
  · next hcounts =>
    refine Ensures.modify_bind (Ensures.modify_bind (Ensures.modify_bind (Ensures.pure ?_)))
    simp only [Bool.or_eq_true, decide_eq_true_eq, not_or, Nat.not_le] at hcounts
    exact ⟨⟨ht.cleared id done, hst.cleared id hroom⟩, fun _ => hcounts.2⟩

/-- No more rounds count than there is fuel for. -/
theorem rounds_ensures (hscan : Scans g scan) (id child : StateId) (max : Option UInt32)
    (fuel done : Nat) (hs : Sound g s) (hin : s.outer ≠ [])
    (hroom : done + fuel ≤ s.scanner.source.size) :
    Ensures (rounds scan id child max fuel done) s fun answer s' =>
      InFrame g s answer s' ∧ ∀ counted, answer = .ok counted → counted ≤ done + fuel := by
  have hdone : ∀ done fuel n, (.ok done : Except (Stop ScanError) Nat) = .ok n → n ≤ done + fuel :=
    fun _ _ n hn => Except.ok.inj hn ▸ Nat.le_add_right ..
  induction fuel generalizing s done with
  | zero => exact Ensures.pure ⟨⟨hs, .refl s⟩, hdone done 0⟩
  | succ fuel ih =>
    have hround := oneRound_ensures hscan id child max done hs hin fun _ => by omega
    refine hround.bind (fun e t h => ⟨h.1, nofun⟩) ?_
    rintro counts t ⟨⟨ht, honward⟩, -⟩
    cases counts with
    | false => exact Ensures.pure ⟨⟨ht, honward⟩, hdone done _⟩
    | true =>
      rw [← honward.source] at hroom
      have hrest : done + 1 + fuel ≤ t.scanner.source.size := by omega
      refine Ensures.mono (ih (done + 1) ht (honward.outer ▸ hin) hrest) fun answer s' h => ?_
      exact ⟨h.1.trans honward, fun n hn => Nat.le_trans (h.2 n hn) (by omega)⟩

/-- However the rounds end, their frame is dropped. -/
theorem runRounds_ensures (hscan : Scans g scan) (id child : StateId) (max : Option UInt32)
    (hs : Sound g s) :
    Ensures (runRounds scan id child max) s fun answer s' =>
      Works g s answer s' ∧ SameFrame s s' ∧
        ∀ counted, answer = .ok counted → counted ≤ s.scanner.source.size := by
  refine Ensures.modify_bind (Ensures.get_bind ?_)
  have hroom : 0 + s.pushed.scanner.bytesLeft ≤ s.pushed.scanner.source.size := by
    rw [Nat.zero_add]
    exact Nat.sub_le ..
  refine (rounds_ensures hscan id child max _ 0 hs.pushed (List.cons_ne_nil _ _) hroom).bind ?_ ?_
  -- a stop has dropped the frame, so what is left is what dropping it makes of `t`
  · rintro e _ ⟨⟨hfault, t, ht, honward, rfl⟩, -⟩
    obtain ⟨hworks, hframe⟩ := pop_ensures hs ht honward
    exact ⟨⟨hworks.sound, hworks.covers, fun f hf => hfault f (Except.error.inj hf)⟩, hframe, nofun⟩
  rintro counted t ⟨⟨ht, honward⟩, hcounted⟩
  refine Ensures.modify_bind ?_
  refine (pop_ensures hs (ht.note _) (honward.note (.beforePop id) nofun)).bind ?_ ?_
  · rintro e s' ⟨hworks, hframe⟩
    exact ⟨hworks.stop, hframe, nofun⟩
  rintro _ s' ⟨hworks, hframe⟩
  refine Ensures.modify_bind (Ensures.pure ⟨⟨hworks.sound.note _, ?_, by simp⟩, ?_, ?_⟩)
  · exact hworks.covers.note _ nofun
  · exact { hframe with }
  · exact fun n hn => Nat.le_trans (hcounted n (congrArg _ (Except.ok.inj hn))) hroom

/-- The session at a boundary of its source. -/
def movedTo (s : Session) (position : Nat) (h : s.scanner.source.IsBoundary position) : Session :=
  { s with
    scanner := { s.scanner with position, position_ok := h }
    active := { s.active with current := position } }

theorem fallBack_apply {position : Nat} (hok : s.scanner.source.IsBoundary position) :
    fallBack position s = (.ok ⟨⟩, match s.settings.shortfall with
      | .rewind => s.movedTo position hok
      | .keep => s) := by
  unfold fallBack
  rw [Attempt.get_bind_apply]
  cases hshortfall : s.settings.shortfall with
  | rewind =>
    have hin : ¬ s.scanner.source.size < position := Nat.not_lt.2 hok.le_size
    rw [if_pos rfl, moveTo_apply]
    simp only [Scanner.moveTo, if_neg hin, dif_pos hok]
    rfl
  | keep => rfl

/-- A repetition that fell short leaves the frame as it was, and where it was if it goes back. -/
theorem fallBack_ensures (hs : Sound g s) (ht : Sound g t) (hcovers : Covers s t)
    (hframe : SameFrame s t) :
    Ensures (fallBack s.position) t fun answer s' =>
      Works g s answer s' ∧ SameFrame s s' ∧
        (s.settings.shortfall = .rewind → s'.position = s.position) := by
  -- the session came from this position, so the scanner can go back to it
  have hok : t.scanner.source.IsBoundary s.position := by
    rw [hcovers.source]
    exact hs.active.current_ok
  unfold Ensures
  rw [fallBack_apply hok, hcovers.settings]
  cases hshortfall : s.settings.shortfall with
  | rewind =>
    have hframe' : SameFrame s (t.movedTo s.position hok) := ⟨hframe.start, hframe.tokens⟩
    refine ⟨⟨?_, .of_sameFrame ?_ hframe', by simp⟩, hframe', fun _ => rfl⟩
    · refine { ht with synced := rfl, active := ⟨?_, ht.active.start_ok, hok⟩ }
      show t.active.start ≤ s.active.current
      rw [hframe.start]
      exact hs.active.ordered
    · exact { hcovers.toOnward with current := Nat.le_refl _ }
  | keep => exact ⟨⟨ht, hcovers, by simp⟩, hframe, nofun⟩

theorem conclude_ensures (hscan : Scans g scan) (id : StateId) (node : Node) (satisfied : Bool)
    (hs : Sound g s) (ht : Sound g t) (hcovers : Covers s t) (hframe : SameFrame s t) :
    Ensures (conclude scan id node s.position satisfied) t fun answer s' =>
      Works g s answer s' ∧ (satisfied = false → SameFrame s s' ∧
        (s.settings.shortfall = .rewind → s'.position = s.position)) := by
  cases satisfied with
  | true =>
    refine (emitOwn_ensures ht id node.token).bind (fun e u h => ?_) fun _ u h => ?_
    · exact ⟨Works.trans hcovers h, nofun⟩
    · refine (goOn_ensures hscan node h.sound).mono fun answer s' h' => ⟨?_, nofun⟩
      exact Works.trans hcovers (Works.trans h.covers h')
  | false =>
    refine (fallBack_ensures hs ht hcovers hframe).mono ?_
    exact fun answer s' h => ⟨h.1, fun _ => h.2⟩

theorem scanRepetition_ensures (hscan : Scans g scan) (id : StateId) (node : Node)
    (child : StateId) (min : UInt32) (max : Option UInt32) (hs : Sound g s) :
    Ensures (scanRepetition scan id node child min max) s (Scanned g s) := by
  refine Ensures.modify_bind (Ensures.get_bind ?_)
  have hnote : Covers s { s with events := s.events.push (.enter id min max) } :=
    (Covers.refl s).note _ nofun
  refine (runRounds_ensures hscan id child max (hs.note _)).bind ?_ ?_
  · rintro e s' ⟨hworks, -⟩
    exact (Works.trans hnote hworks).scanned
  rintro counted t ⟨hworks, hframe, hcounted⟩
  refine Ensures.modify_bind ?_
  have hst : Covers s t := hnote.trans hworks.covers
  have hexit : Covers s { t with
      events := t.events.push (.exit id counted (decide (min.toNat ≤ counted))) } := by
    refine hst.note _ fun n hn => ?_
    rw [← Option.some.inj hn, hst.source]
    exact hcounted counted rfl
  refine (conclude_ensures hscan id node _ hs (hworks.sound.note _) hexit
    ⟨hframe.start, hframe.tokens⟩).bind ?_ ?_
  · rintro e s' ⟨hworks', -⟩
    exact hworks'.scanned
  rintro _ s' ⟨hworks', hshort⟩
  refine Ensures.pure ⟨⟨hworks'.sound, hworks'.covers, by simp⟩, fun h => ?_, fun h => ?_⟩
  -- only a repetition that fell short answers that it does not match
  · exact (hshort (Except.ok.inj h)).1
  · exact (hshort (Except.ok.inj h)).2

/-! ## Choices, states and scans -/

theorem scanChoice_ensures (hscan : Scans g scan) (id : StateId) (node : Node) (hs : Sound g s) :
    Ensures (scanChoice scan id node) s (Scanned g s) := by
  refine (firstOf_ensures hscan node.branches hs).bind (fun e t h => h.toWorks.scanned) ?_
  intro found t h
  cases found with
  | false => exact Ensures.pure h
  | true =>
    refine (emitOwn_ensures h.sound id node.token).bind (fun e u h' => ?_) fun _ u h' => ?_
    · exact (Works.trans h.covers h').scanned
    · exact Ensures.pure (Works.trans h.covers h').matched

theorem visit_ensures (hscan : Scans g scan) (id : StateId) (hs : Sound g s) :
    Ensures (visit g scan id) s (Scanned g s) := by
  refine (ofResult_ensures (g.graph.node id) s).bind ?_ ?_
  · rintro _ s ⟨rfl, e, rfl⟩
    exact (Works.fail (α := Bool) hs e).scanned
  rintro node s ⟨rfl, -⟩
  split
  · exact scanTerminal_ensures hscan id node _ hs
  · exact scanRepetition_ensures hscan id node _ _ _ hs
  · exact scanChoice_ensures hscan id node hs

end Visit

/-- Counting a step changes nothing but the count. -/
theorem step_ensures (hs : Sound g s) :
    Ensures step s fun answer s' => Works g s answer s' ∧ s'.active = s.active := by
  have hcount : Works g s (.ok ⟨⟩ : Except (Stop ScanError) Unit) { s with steps := s.steps + 1 } :=
    ⟨{ hs with }, { Covers.refl s with steps := Nat.le_succ _ }, by simp⟩
  refine Ensures.modify_bind (Ensures.get_bind ?_)
  split
  · split
    · exact ⟨⟨hcount.sound, hcount.covers, nofun⟩, rfl⟩
    · exact ⟨hcount, rfl⟩
  · exact ⟨hcount, rfl⟩

/-- The session one level deeper. -/
def deeper (s : Session) : Session :=
  { s with guard := { s.guard with
      depth := s.guard.depth + 1, deepest := max s.guard.deepest (s.guard.depth + 1) } }

/-- The session back up at a depth. -/
def backAt (depth : Nat) (s : Session) : Session := { s with guard := { s.guard with depth } }

/-- What may go deeper runs there and comes back up, unless it used up the levels. -/
theorem nested_entered {refused : DepthExceeded → ScanError} {body : Scanning Bool}
    (hroom : s.guard.HasRoom) :
    nested refused body s = match (body s.deeper).2.guard.depth with
      | 0 => (.error (.fault .unpairedExit), (body s.deeper).2)
      | depth + 1 => ((body s.deeper).1, (body s.deeper).2.backAt depth) := by
  have henter : (Guarded.guard s).enter = .ok s.deeper.guard :=
    DepthGuard.enter_eq_ok_iff.2 ⟨hroom, rfl⟩
  have hinner : body (Guarded.withGuard s s.deeper.guard) = body s.deeper := rfl
  unfold nested
  simp only [henter, hinner]
  rcases body s.deeper with ⟨answer, t⟩
  cases hdepth : t.guard.depth with
  | zero =>
    have hexit : (Guarded.guard t).exit = .error .unpairedExit := by
      show (if 0 < t.guard.depth then _ else _) = _
      rw [hdepth, if_neg (Nat.lt_irrefl 0)]
    simp only [hexit]
  | succ depth =>
    have hexit : (Guarded.guard t).exit = .ok (t.backAt depth).guard := by
      show (if 0 < t.guard.depth then
        Except.ok { t.guard with depth := t.guard.depth - 1 } else _) = _
      rw [hdepth, if_pos (Nat.succ_pos _)]
      rfl
    simp only [hexit]
    rfl

/-- What runs one level deeper comes back up to the same level. -/
theorem nested_apply {refused : DepthExceeded → ScanError} {body : Scanning Bool}
    (hroom : s.guard.HasRoom) (hdepth : (body s.deeper).2.guard.depth = s.guard.depth + 1) :
    nested refused body s = ((body s.deeper).1, (body s.deeper).2.backAt s.guard.depth) := by
  rw [nested_entered hroom, hdepth]

/-- What is refused to go deeper does not run. -/
theorem nested_refused {refused : DepthExceeded → ScanError} {body : Scanning Bool}
    {e : DepthExceeded} (h : s.guard.enter = .error e) :
    nested refused body s = (.error (.error (refused e)), s) :=
  nested_of_enter_error h

/-- Only what runs one level deeper makes a difference. -/
theorem nested_eq_nested {refused : DepthExceeded → ScanError} {body body' : Scanning Bool}
    (h : body s.deeper = body' s.deeper) : nested refused body s = nested refused body' s := by
  cases henter : s.guard.enter with
  | error e => rw [nested_refused henter, nested_refused henter]
  | ok inner =>
    obtain ⟨hroom, -⟩ := DepthGuard.enter_eq_ok_iff.1 henter
    rw [nested_entered hroom, nested_entered hroom, h]

theorem nested_ensures {refused : DepthExceeded → ScanError} {body : Scanning Bool}
    (hbody : ∀ s, Sound g s → Ensures body s (Scanned g s)) (hs : Sound g s) :
    Ensures (nested refused body) s (Scanned g s) := by
  unfold Ensures
  cases henter : s.guard.enter with
  | error e =>
    rw [nested_refused henter]
    exact (Works.fail (α := Bool) hs _).scanned
  | ok inner =>
    obtain ⟨hroom, -⟩ := DepthGuard.enter_eq_ok_iff.1 henter
    have hinner : Scanned g s.deeper (body s.deeper).1 (body s.deeper).2 :=
      hbody s.deeper { hs with }
    rw [nested_apply hroom hinner.covers.depth]
    refine ⟨⟨{ hinner.sound with }, { hinner.covers with depth := rfl }, hinner.faultless⟩,
      fun h => ?_, hinner.unmoved⟩
    exact ⟨(hinner.sameFrame h).start, (hinner.sameFrame h).tokens⟩

/-- **Scanning keeps a session sound.** It goes on, emits tokens that tile what they cover,
breaks no promise, and leaves the frame as it was if the state does not match. -/
theorem scanNested_scanned (fuel : Nat) : Scans g (scanNested g fuel) := by
  induction fuel with
  | zero => exact fun _ s hs => ⟨⟨hs, .refl s, nofun⟩, nofun, nofun⟩
  | succ fuel ih =>
    intro id s hs
    refine (step_ensures hs).bind (fun e t h => h.1.scanned) ?_
    rintro _ t ⟨h, hactive⟩
    -- a counted step is like a scan that matches nothing
    have hstep : Scanned g s (.ok false) t := by
      refine ⟨⟨h.sound, h.covers, by simp⟩, fun _ => ?_, fun _ _ => congrArg Frame.current hactive⟩
      exact ⟨congrArg Frame.start hactive, congrArg Frame.tokens hactive⟩
    exact (nested_ensures (fun s hs => visit_ensures ih id hs) h.sound).mono
      fun answer u h' => hstep.trans h'

theorem scan_scanned : Scans g (scan g) := fun id _ hs =>
  Ensures.get_bind (scanNested_scanned _ id _ hs)

end Lexigraph.Session
