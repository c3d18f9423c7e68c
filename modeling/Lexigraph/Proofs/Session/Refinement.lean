/-
# Lexigraph.Proofs.Session.Refinement -- a scan is an evaluation

Whatever happened in a session before, a scan comes to what the evaluator says of the state
from the beginning and the position of the active frame: the same answer, the frame where the
passage ends, and its tokens after those that were there. It is endless exactly if the
evaluator comes to no end, and it is cut off only by a limit of the session (`scan_refines`).
-/

import Lexigraph.Proofs.Passage.Depth
import Lexigraph.Proofs.Session.Follows
import Lexigraph.Proofs.Session.Reached

namespace Lexigraph.Session

open Attempt (Ensures)
open Passage (Evaluates Within)

variable {g : Grammar} {s t : Session} {id : StateId}

/-- The answer is that a limit was met. -/
def MeetsLimit {α : Type} (settings : Settings) (answer : Except (Stop ScanError) α) : Prop :=
  (∃ limit ∈ settings.maxSteps, answer = .error (.error (.stepLimit limit))) ∨
    ∃ limit ∈ settings.maxDepth, answer = .error (.error (.depthLimit limit))

/-- The session where a passage led it: scanner and active frame are at its end, its tokens come
after those of the frame, and the frames around are as they were. -/
structure Arrives (s : Session) (p : Passage) (t : Session) : Prop where
  scanner : t.scanner.position = p.position
  position : t.position = p.position
  start : t.active.start = p.start
  tokens : t.active.tokens.toList = s.active.tokens.toList ++ p.emitted
  outer : t.outer = s.outer

/-- What a state comes to from where a session is. -/
def Comes (g : Grammar) (s : Session) (id : StateId) (q : Except ScanError Passage) : Prop :=
  Evaluates g s.scanner.source s.settings.shortfall id s.active.start s.position q

theorem Sound.within (hs : Sound g s) : Within s.scanner.source s.active.start s.position :=
  ⟨hs.active.ordered, hs.active.current_ok.le_size⟩

/-- A scan says that it is endless only if the evaluator comes to no end. -/
theorem not_comes_of_endless (hs : Steady g s) (id : StateId)
    (h : (scan g id s).1 = .error .endless)
    (heval : Passage.evaluate g s.scanner.source s.settings.shortfall
      (nestingBound g s.settings s.scanner.source.size) id s.active.start s.position =
        .error .endless) (q : Except ScanError Passage) : ¬ Comes g s id q := by
  rintro ⟨depth, hq⟩
  have hends : Passage.evaluate g s.scanner.source s.settings.shortfall depth id s.active.start
      s.position ≠ .error .endless := by
    rw [hq]
    cases q <;> nofun
  by_cases hlimits : s.settings.maxDepth.isSome ∨ s.settings.maxSteps.isSome
  · exact ((scan_ends (.inl hlimits)) s ⟨rfl, hs.limit⟩).1 _ h rfl
  · -- without limits the bound is deep enough for all that comes to an end
    have hbound : nestingBound g s.settings s.scanner.source.size =
        Passage.placeCount g s.scanner.source + 1 := by
      simp only [not_or, Option.not_isSome_iff_eq_none] at hlimits
      unfold nestingBound
      rw [hlimits.1, hlimits.2]
      rfl
    rw [hbound, Passage.evaluate_of_ends hs.within hends] at heval
    exact hends heval

/-- In a built grammar nothing goes wrong with a state of it but the end of the source. -/
theorem error_of_comes (hg : Grammar.Built g) (hs : Sound g s) {e : ScanError}
    (hid : g.graph.contains id = true) (h : Comes g s id (.error e)) :
    e = .unexpectedEnd s.scanner.source.size := by
  obtain ⟨depth, heval⟩ := h
  exact Passage.error_of_evaluate (.of_closed hg.closed s.scanner.source) (of_decide_eq_true hid)
    hs.within heval

/-- **A scan is an evaluation.** A state comes to one result at most. Unless a limit of the session
is met, the scan comes to an end exactly if the evaluator does, and then they agree: on whether the
state matched, on the end of the passage and on its tokens, or on what went wrong. That is the end
of the source and nothing else, for a state of a built grammar. -/
theorem scan_refines (hs : Reached g s) (id : StateId) :
    (∀ q q', Comes g s id q → Comes g s id q' → q = q') ∧
      (Grammar.Built g → g.graph.contains id = true → ∀ e, Comes g s id (.error e) →
        e = .unexpectedEnd s.scanner.source.size) ∧
      Ensures (scan g id) s fun answer t =>
        MeetsLimit s.settings answer ∨
          (∃ p, Comes g s id (.ok p) ∧ answer = .ok p.matched ∧ Arrives s p t) ∨
          (∃ e, Comes g s id (.error e) ∧ answer = .error (.error e)) ∨
          (answer = .error .endless ∧ ∀ q, ¬ Comes g s id q) := by
  have hsteady := hs.steady
  refine ⟨fun q q' => Evaluates.unique hsteady.within,
    fun hg hid e => error_of_comes hg hsteady.toSound hid, ?_⟩
  have hfollows := (scanNested_follows (nestingBound g s.settings s.scanner.source.size)).follows
    id s ⟨hsteady.toSound, rfl, rfl⟩
  have hscanned := scan_scanned id s hsteady.toSound
  have hendless := not_comes_of_endless hsteady id
  change Ensures (scan g id) s _ at hfollows
  unfold Ensures at hfollows hscanned ⊢
  generalize (scan g id s).1 = answer at hfollows hscanned hendless ⊢
  generalize (scan g id s).2 = t at hfollows hscanned ⊢
  cases answer with
  | ok found =>
    obtain ⟨p, heval, rfl, hp⟩ := hfollows
    have hscanner : t.scanner.position = p.position := hp.sound.synced.trans hp.position_eq
    exact .inr (.inl ⟨p, ⟨_, heval⟩, rfl, hscanner, hp.position_eq, hp.start_eq, hp.tokens_eq,
      hp.covers.outer⟩)
  | error stop =>
    rcases hfollows with (⟨limit, h, rfl⟩ | ⟨limit, h, rfl⟩) | heval
    · exact .inl (.inl ⟨limit, h, rfl⟩)
    · exact .inl (.inr ⟨limit, hsteady.limit ▸ h, rfl⟩)
    · cases stop with
      | error e => exact .inr (.inr (.inl ⟨e, ⟨_, heval⟩, rfl⟩))
      | fault f => exact absurd rfl (hscanned.faultless f)
      | endless => exact .inr (.inr (.inr ⟨rfl, hendless rfl heval⟩))

/-- A session without limits. -/
def lettersFree : Session := .start "aa" { maxDepth := none }

theorem scan_refines_letters :
    (scan .letters ⟨1⟩ lettersFree).1 = .ok true ∧
      (scan .letters ⟨1⟩ lettersFree).2.active.tokens.toList = [⟨⟨1⟩, 0, 2⟩] := by
  have hcomes : Comes .letters lettersFree ⟨1⟩
      (.ok { matched := true, start := 2, position := 2, emitted := [⟨⟨1⟩, 0, 2⟩] }) :=
    ⟨2, by decide +kernel⟩
  have hs : Reached .letters lettersFree := .start "aa" { maxDepth := none }
  obtain ⟨hunique, -, hlimit | ⟨p, hp, hmatched, harrives⟩ | ⟨e, he, -⟩ | ⟨-, hnone⟩⟩ :=
    scan_refines hs ⟨1⟩
  · rcases hlimit with ⟨_, h, -⟩ | ⟨_, h, -⟩ <;> cases h
  · obtain rfl := Except.ok.inj (hunique _ _ hp hcomes)
    exact ⟨hmatched, harrives.tokens⟩
  · cases hunique _ _ he hcomes
  · exact absurd hcomes (hnone _)

end Lexigraph.Session
