/-
# Lexigraph.Proofs.Session.Stuck -- what a run that is stuck says

A run is stuck when a pass leaves it where it was. It says then how far matching has got: to where
it stands, or to the last offset at which a rule failed since the session began, in this run or
before it, in work that was kept or in work that came to nothing, by comparing literals or from
what is remembered (`run_stuck_at_furthest`).

What carries this is an invariant of the list of evaluations: the furthest failure that a session
keeps is the greatest of the list (`Failing`). A rule is not evaluated at the end of the source, so
all failures of the list lie before it.
-/

import Mathlib.Data.Prod.Basic
import Mathlib.Order.Bounds.Basic
import Lexigraph.Proofs.Session.Evaluations
import Lexigraph.Proofs.Session.Mirror
import Lexigraph.Proofs.Session.Passes
import Lexigraph.Proofs.Session.Refinement

namespace Lexigraph.Session

open Attempt (Ensures)

variable {g : Grammar} {root : StateId} {s t u : Session} {log : List Evaluation}
  {told : List Pass} {offset : Nat}

/-! ## Failures of a session -/

/-- The offsets at which evaluations failed. -/
def failures (log : List Evaluation) : Set Nat := { n | ∃ e ∈ log, e.result = .failure n }

@[simp] theorem failures_nil : failures [] = ∅ := by
  ext n
  simp [failures]

theorem failures_concat_success {e : Evaluation} {span : Span} (h : e.result = .success span) :
    failures (log ++ [e]) = failures log := by
  ext n
  simp [failures, or_and_right, exists_or, h]

theorem failures_concat_failure {e : Evaluation} (h : e.result = .failure offset) :
    failures (log ++ [e]) = insert offset (failures log) := by
  ext n
  simp [failures, or_and_right, exists_or, h, or_comm, eq_comm]

/-- A session keeps the greatest of the offsets at which the evaluations in a list failed, and all
of these are boundaries of the source before its end. -/
structure Failing (source : Source) (log : List Evaluation) (t : Session) : Prop where
  source_eq : t.scanner.source = source
  inside : ∀ n ∈ failures log, source.IsBoundary n ∧ n < source.size
  /-- From any position on, the furthest offset is the greatest. -/
  furthest : ∀ p, IsGreatest (insert p (failures log)) (t.furthest.elim p (max p))

theorem Fresh.failing (h : Fresh s) : Failing s.scanner.source [] s where
  source_eq := rfl
  inside := by simp
  furthest p := by
    have hnone : s.furthest = none := by cases h <;> rfl
    simp [hnone]

/-- One more evaluation before the end of the source is taken into account. -/
theorem Failing.evaluate {source : Source} {rule : Rule} {id : RuleId} {result : MatchResult}
    (h : Failing source log t) (hmemo : t.memo.Coherent g.rules t.scanner.source)
    (hrule : g.rules.get? id = some rule) (hleft : t.atEnd = false)
    (heval : evaluate rule id t = (.ok result, u)) :
    Failing source (log ++ [.between id result t u]) (u.noting result) := by
  obtain ⟨scanner, memo, heval', -, -, hleaves⟩ := evaluate_eq_outcome hleft hrule hmemo
  obtain ⟨hresult, hu⟩ := Prod.mk.inj (heval.symm.trans heval')
  have hresult := Except.ok.inj hresult
  have hsource : (u.noting result).scanner.source = source := by
    rw [noting_scanner, hu]
    exact hleaves.source.trans h.source_eq
  have hfurthest : u.furthest = t.furthest := by rw [hu]
  cases hcase : result with
  | success span =>
    have hlog : failures (log ++ [.between id (.success span) t u]) = failures log :=
      failures_concat_success rfl
    refine ⟨hcase ▸ hsource, hlog ▸ h.inside, fun p => ?_⟩
    show IsGreatest _ (u.furthest.elim p (max p))
    rw [hlog, hfurthest]
    exact h.furthest p
  | failure n =>
    -- a rule fails where the scanner stands, and something is left there
    have hn : t.scanner.position = n := by
      have hposition := rule.outcome_position t.scanner.remaining t.scanner.position
      rw [← hresult, hcase] at hposition
      exact hposition.symm
    have hlt : t.scanner.position < t.scanner.source.size :=
      Nat.lt_of_not_le (of_decide_eq_false hleft)
    have hboundary := t.scanner.position_ok
    rw [h.source_eq, hn] at hboundary hlt
    have hlog : failures (log ++ [.between id (.failure n) t u]) = insert n (failures log) :=
      failures_concat_failure rfl
    refine ⟨hcase ▸ hsource, ?_, fun p => ?_⟩
    · rw [hlog]
      exact Set.forall_mem_insert.2 ⟨⟨hboundary, hlt⟩, h.inside⟩
    · show IsGreatest _ (max p (u.furthest.elim n (max n)))
      rw [hlog, hfurthest]
      exact (h.furthest n).insert p

/-- **The furthest failure of a session is the greatest of its evaluations.** -/
theorem Evaluations.failing (h : Evaluations g s log t) (hs : Fresh s) :
    Failing s.scanner.source log t := by
  have hmemo : s.memo.Coherent g.rules s.scanner.source := hs.reached.steady.memo
  induction h with
  | none => exact hs.failing
  | idle _ hidle ih =>
    exact ⟨hidle.source.trans ih.source_eq, ih.inside, fun p => hidle.furthest ▸ ih.furthest p⟩
  | evaluate hlog hrule hleft heval ih => exact ih.evaluate (hlog.coherent hmemo) hrule hleft heval

/-! ## Passes before a stop -/

/-- Passes that moved forward, and a last one that begins where something is left, answers, and
stays where it was. -/
structure Stuck (g : Grammar) (root : StateId) (s : Session) (told : List Pass) (last : Pass) :
    Prop where
  strides : Strides g root s told last.before
  left : last.before.atEnd = false
  scanned : scan g root last.before = (.ok last.matched, last.after)
  unmoved : last.after.position = last.before.position

/-- The position of a session, or the last offset at which a rule failed if that is greater. -/
def farthest (s : Session) : Nat := s.furthest.elim s.position (max s.position)

/-- A scan fails for its limits, at the end of the source or for what the grammar lacks. Only a run
is stuck. -/
theorem scan_ne_nothingMatched (hs : Sound g s) (id : StateId) (offset : Nat) :
    (scan g id s).1 ≠ .error (.error (.nothingMatched offset)) := by
  intro hanswer
  have hfollows := (scanNested_follows (nestingBound g s.settings s.scanner.source.size)).follows
    id s ⟨hs, rfl, rfl⟩
  change Ensures (scan g id) s _ at hfollows
  unfold Ensures at hfollows
  rw [hanswer] at hfollows
  have hconfines : Passage.Confines g s.scanner.source (fun _ => True)
      fun e => ∀ n, e ≠ .nothingMatched n := by constructor <;> simp
  rcases hfollows with (⟨limit, -, he⟩ | ⟨limit, -, he⟩) | heval
  · cases he
  · cases he
  · exact Passage.error_of_evaluate hconfines trivial hs.within heval offset rfl

theorem checkMoved_eq_nothingMatched {before : Nat}
    (h : (checkMoved before s).1 = .error (.error (.nothingMatched offset))) :
    s.position ≤ before ∧ offset = s.furthest.elim before (max before) := by
  unfold checkMoved at h
  rw [Attempt.get_bind_apply] at h
  split at h
  · next hle => exact ⟨hle, by simpa using (Except.error.inj h).symm⟩
  · cases h

/-- Passes that are stuck can be told. -/
theorem passes_stuck (fuel : Nat) (hs : Sound g s) :
    Ensures (passes g root fuel) s fun answer t => ∀ offset,
      answer = .error (.error (.nothingMatched offset)) →
        ∃ told last, Stuck g root s told last ∧ last.after = t ∧ offset = t.farthest := by
  induction fuel generalizing s with
  | zero => exact Ensures.pure fun _ => nofun
  | succ fuel ih =>
    unfold passes
    refine Ensures.get_bind ?_
    by_cases hend : s.atEnd = true
    · rw [if_pos hend]
      exact Ensures.pure fun _ => nofun
    rw [if_neg hend]
    refine Ensures.get_bind ?_
    have hleft : s.atEnd = false := Bool.eq_false_iff.2 hend
    have hpass : Ensures (scan g root) s fun answer t =>
        Scanned g s answer t ∧ scan g root s = (answer, t) := ⟨scan_scanned root s hs, rfl⟩
    refine hpass.bind (fun stop t ht offset h => ?_) ?_
    · -- the stop of a scan is not that of a run
      have hanswer : (scan g root s).1 = .error stop := congrArg Prod.fst ht.2
      rw [Except.error.inj h] at hanswer
      exact absurd hanswer (scan_ne_nothingMatched hs root offset)
    rintro matched t ⟨ht, hscan⟩
    have hcheck : Ensures (checkMoved s.position) t fun answer u =>
        (checkMoved s.position t).1 = answer ∧ u = t ∧ (answer = .ok ⟨⟩ → s.position < t.position) :=
      ⟨rfl, (checkMoved_ensures ht.sound _).2⟩
    refine hcheck.bind (fun stop u hu offset h => ?_) ?_
    · obtain ⟨hstop, rfl, -⟩ := hu
      rw [Except.error.inj h] at hstop
      obtain ⟨hle, rfl⟩ := checkMoved_eq_nothingMatched hstop
      have hunmoved : u.position = s.position := Nat.le_antisymm hle ht.covers.current
      refine ⟨[], ⟨s, matched, u⟩, ⟨.here s, hleft, hscan, hunmoved⟩, rfl, ?_⟩
      unfold farthest
      rw [hunmoved]
    · rintro _ u ⟨-, rfl, hmoved⟩
      refine (ih ht.sound).mono fun answer v h offset hanswer => ?_
      obtain ⟨told, last, hstuck, hlast, hoffset⟩ := h offset hanswer
      have hstrides := Strides.pass hleft hscan (hmoved rfl) hstuck.strides
      exact ⟨_, last, { hstuck with strides := hstrides }, hlast, hoffset⟩

/-- A run that is stuck is made of passes that moved forward and of a last one that did not. -/
theorem stuck_of_run (hs : Sound g s)
    (hrun : run g root s = (.error (.error (.nothingMatched offset)), t)) :
    ∃ told last, Stuck g root s told last ∧ last.after = t ∧ offset = t.farthest := by
  have h : Ensures (run g root) s fun answer t => ∀ offset,
      answer = .error (.error (.nothingMatched offset)) →
        ∃ told last, Stuck g root s told last ∧ last.after = t ∧ offset = t.farthest := by
    refine Ensures.get_bind ?_
    refine (passes_stuck _ hs).bind (fun stop t h offset hanswer => ?_) fun _ t _ => ?_
    · exact h offset (congrArg Except.error (Except.error.inj hanswer))
    · unfold Ensures
      rw [checkBalanced_eq]
      split
      · split <;> nofun
      · nofun
  exact h.of_eq hrun offset rfl

/-- Passes up to the end of the source lead to its size. -/
theorem Passed.position_eq_size (h : Passed g root s told t) (hs : Sound g s) :
    t.position = t.scanner.source.size := by
  have ht := (h.strides.sound hs).1
  have hle : t.scanner.source.size ≤ t.scanner.position := of_decide_eq_true h.atEnd
  rw [ht.synced] at hle
  exact Nat.le_antisymm ht.active.current_ok.le_size hle

/-- A run that is stuck ends in step with its scanner and before the end of the source. -/
theorem Stuck.position_lt_size {last : Pass} (h : Stuck g root s told last) (hs : Sound g s) :
    last.after.scanner.position = last.after.position ∧
      last.after.scanner.position < last.after.scanner.source.size := by
  have hbefore := (h.strides.sound hs).1
  have hscanned := (scan_scanned root _ hbefore).of_eq h.scanned
  have hleft : last.before.scanner.position < last.before.scanner.source.size :=
    Nat.lt_of_not_le (of_decide_eq_false h.left)
  rw [hbefore.synced, ← h.unmoved, ← hscanned.sound.synced, ← hscanned.covers.source] at hleft
  exact ⟨hscanned.sound.synced, hleft⟩

/-- Where something is left, the farthest offset is a boundary before the end of the source. -/
theorem Failing.farthest_inside {source : Source} (h : Failing source log t)
    (hleft : t.scanner.position = t.position ∧ t.scanner.position < t.scanner.source.size) :
    source.IsBoundary t.farthest ∧ t.farthest < source.size := by
  have hposition : source.IsBoundary t.position ∧ t.position < source.size := by
    rw [← h.source_eq, ← hleft.1]
    exact ⟨t.scanner.position_ok, hleft.2⟩
  -- the position is inside the source, and so are the failures
  have hinside : ∀ n ∈ insert t.position (failures log), source.IsBoundary n ∧ n < source.size :=
    Set.forall_mem_insert.2 ⟨hposition, h.inside⟩
  exact hinside _ (h.furthest t.position).1

/-! ## Operations before a run -/

/-- The session after operations, one after another, whether or not they succeed. -/
def after (g : Grammar) (s : Session) (ops : List Op) : Session :=
  ops.foldl (fun s op => (perform g op s).2) s

theorem Reached.after (hs : Reached g s) (ops : List Op) : Reached g (after g s ops) := by
  induction ops generalizing s with
  | nil => exact hs
  | cons op ops ih => exact ih (hs.perform op)

theorem after_evaluations (ops : List Op) (hs : s.memo.Coherent g.rules s.scanner.source)
    (ht : ∃ log, Evaluations g s log t) : ∃ log, Evaluations g s log (after g t ops) := by
  induction ops generalizing t with
  | nil => exact ht
  | cons op ops ih => exact ih (perform_endures (evaluations_endure hs) op t ht).2

/-- A run adds evaluations to those of the operations before it. -/
theorem run_evaluations (hs : Fresh s) (ops : List Op) (root : StateId) :
    ∃ log, Evaluations g s log (run g root (after g s ops)).2 := by
  have hmemo : s.memo.Coherent g.rules s.scanner.source := hs.reached.steady.memo
  have hbefore := after_evaluations ops hmemo ⟨[], .none⟩
  exact (run_endures (evaluations_endure hmemo) root _ hbefore).2

/-- **A run that is stuck says how far matching got.** Take a fresh session, any operations, and
then a run. If the run succeeds, it is made of passes that moved forward, and the source is at its
end. If it is stuck, the source is not at its end, the passes before the last one moved forward,
and the last one stayed where it was. The offset that the run names lies there or later and before
the end of the source, where a character begins. It is the greatest of the position and of all
offsets at which an evaluation of a rule has failed in the session. -/
theorem run_stuck_at_furthest (hs : Fresh s) (ops : List Op) (root : StateId) :
    (∀ t, run g root (after g s ops) = (.ok ⟨⟩, t) →
      t.position = s.scanner.source.size ∧ ∃ told, Passed g root (after g s ops) told t) ∧
    ∀ offset t, run g root (after g s ops) = (.error (.error (.nothingMatched offset)), t) →
      t.atEnd = false ∧
      (∃ told last, Stuck g root (after g s ops) told last ∧ last.after = t) ∧
      (t.position ≤ offset ∧ offset < s.scanner.source.size ∧ s.scanner.source.IsBoundary offset) ∧
      (∃ log, Evaluations g s log t) ∧
      ∀ log, Evaluations g s log t → IsGreatest (insert t.position (failures log)) offset := by
  have hsound : Sound g (after g s ops) := (hs.reached.after ops).steady.toSound
  obtain ⟨log, hlog⟩ := run_evaluations (g := g) hs ops root
  refine ⟨fun t hrun => ?_, fun offset t hrun => ?_⟩
  · rw [hrun] at hlog
    obtain ⟨told, hpassed⟩ := told_of_run hsound hrun
    rw [← (hlog.failing hs).source_eq]
    exact ⟨hpassed.position_eq_size hsound, told, hpassed⟩
  · rw [hrun] at hlog
    obtain ⟨told, last, hstuck, rfl, rfl⟩ := stuck_of_run hsound hrun
    have hleft := hstuck.position_lt_size hsound
    obtain ⟨hboundary, hlt⟩ := (hlog.failing hs).farthest_inside hleft
    have hfurthest : ∀ log, Evaluations g s log last.after →
        IsGreatest (insert last.after.position (failures log)) last.after.farthest :=
      fun log hlog => (hlog.failing hs).furthest _
    have hle : last.after.position ≤ last.after.farthest :=
      (hfurthest log hlog).2 (Set.mem_insert _ _)
    exact ⟨decide_eq_false (Nat.not_le.2 hleft.2), ⟨told, last, hstuck, rfl⟩,
      ⟨hle, hlt, hboundary⟩, ⟨log, hlog⟩, hfurthest⟩

/-- The first letter matches and the second does not: the repetition goes back, first in a scan and
then in a run, which says where it failed. -/
theorem run_stuck_at_furthest_letters :
    ∃ t, run .letters ⟨1⟩ (after .letters (.start "ab") [.scan ⟨1⟩]) =
        (.error (.error (.nothingMatched 1)), t) ∧ t.position = 0 ∧
      ∀ log, Evaluations .letters (.start "ab") log t →
        IsGreatest (insert 0 (failures log)) 1 := by
  have hs : Fresh (.start "ab") := .remembering "ab" {}
  have hanswer : (run .letters ⟨1⟩ (after .letters (.start "ab") [.scan ⟨1⟩])).1 =
      .error (.error (.nothingMatched 1)) := by decide +kernel
  have hposition : (run .letters ⟨1⟩ (after .letters (.start "ab") [.scan ⟨1⟩])).2.position = 0 := by
    decide +kernel
  obtain ⟨-, hstuck⟩ := run_stuck_at_furthest (g := .letters) hs [.scan ⟨1⟩] ⟨1⟩
  obtain ⟨-, -, -, -, hgreatest⟩ := hstuck 1 _ (Prod.fst_eq_iff.1 hanswer)
  rw [hposition] at hgreatest
  exact ⟨_, Prod.fst_eq_iff.1 hanswer, hposition, hgreatest⟩

end Lexigraph.Session
