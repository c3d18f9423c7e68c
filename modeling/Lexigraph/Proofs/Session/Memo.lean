/-
# Lexigraph.Proofs.Session.Memo -- remembering changes nothing

A session that remembers the results of rules and one that does not are alike after every
operation: each answers the same, and position, marks, frames, counters and events agree.
The one that remembers never compares more literals (`memo_transparent`).

The correspondence behind it keeps every name. It asks of the memo on the left that it be
coherent: a known result is then what an evaluation would give.
-/

import Lexigraph.Proofs.Rule.Outcome
import Lexigraph.Proofs.Session.Alike
import Lexigraph.Session.Op

namespace Lexigraph.Session

open Attempt (Sim SameAnswer)

/-! ## Evaluating in a session -/

theorem evaluate_atEnd {rule : Rule} {id : RuleId} {s : Session} (h : s.scanner.atEnd = true) :
    evaluate rule id s = (.error (.error (.unexpectedEnd s.scanner.position)), s) := by
  unfold evaluate
  rw [Rule.evaluate_atEnd rule id s.memo h]

theorem evaluate_eq_outcome {rules : RuleTable} {rule : Rule} {id : RuleId} {s : Session}
    (hend : s.scanner.atEnd = false) (hrule : rules.get? id = some rule)
    (hmemo : s.memo.Coherent rules s.scanner.source) :
    ∃ scanner memo,
      evaluate rule id s =
        (.ok (rule.outcome s.scanner.remaining s.scanner.position), { s with scanner, memo }) ∧
      (s.memo = .off → memo = .off) ∧ memo.Coherent rules s.scanner.source ∧
      rule.Leaves s.scanner scanner
        (if (s.memo.get? id s.scanner.position).isSome then 0
          else Scanner.effort s.scanner.remaining rule.choices.toList) := by
  obtain ⟨scanner, memo, he, hcoherent, hleaves⟩ := Rule.evaluate_eq_outcome hend hrule hmemo
  refine ⟨scanner, memo, ?_, ?_, hcoherent, hleaves⟩
  · unfold evaluate
    rw [he]
  · intro hoff
    rw [hoff] at he
    rw [← rule.evaluate_off id s.scanner, he]

variable {g h : Grammar} {source : Source} {c : Correspondence}

theorem remaining_eq_of_alike {s t : Session} (h : s.Alike c source t) :
    s.scanner.remaining = t.scanner.remaining :=
  Scanner.remaining_congr (h.source_left.trans h.source_right.symm) h.position

/-- The comparisons that an evaluation of the rule makes: none if the result is known. -/
def toCompare (rule : Rule) (id : RuleId) (s : Session) : Nat :=
  if (s.memo.get? id s.scanner.position).isSome then 0
  else Scanner.effort s.scanner.remaining rule.choices.toList

/-- Rules with the same literals come out alike, if the memos are coherent and are related as they
have to be afterwards. -/
theorem evaluate_sim {rule rule' : Rule} {id id' : RuleId}
    (hrule : g.rules.get? id = some rule) (hrule' : h.rules.get? id' = some rule')
    (hchoices : rule.choices = rule'.choices)
    (hcoherent : ∀ s t, Alike c source s t →
      s.memo.Coherent g.rules source ∧ t.memo.Coherent h.rules source)
    (hrecord : ∀ s t, Alike c source s t → ∀ memo memo', (s.memo = .off → memo = .off) →
      memo.Coherent g.rules source → (t.memo = .off → memo' = .off) →
      c.record memo (s.scanner.comparisons + toCompare rule id s) memo'
        (t.scanner.comparisons + toCompare rule' id' t)) :
    Sim (Alike c source) Eq (evaluate rule id) (evaluate rule' id') := by
  intro s t hst
  have hend : s.scanner.atEnd = t.scanner.atEnd := hst.atEnd
  cases hatEnd : t.scanner.atEnd with
  | true =>
    rw [evaluate_atEnd (hend.trans hatEnd), evaluate_atEnd hatEnd, hst.position]
    exact ⟨.error _, hst⟩
  | false =>
    obtain ⟨hs, ht⟩ := hcoherent s t hst
    rw [← hst.source_left] at hs
    rw [← hst.source_right] at ht
    obtain ⟨scanner, memo, he, hoff, hmemo, hleaves⟩ :=
      evaluate_eq_outcome (hend.trans hatEnd) hrule hs
    obtain ⟨scanner', memo', he', hoff', -, hleaves'⟩ := evaluate_eq_outcome hatEnd hrule' ht
    -- the outcome depends on the literals and on what is left, which are the same
    have houtcome : rule.outcome s.scanner.remaining s.scanner.position =
        rule'.outcome t.scanner.remaining t.scanner.position := by
      unfold Rule.outcome
      rw [hchoices, remaining_eq_of_alike hst, hst.position]
    rw [he, he', houtcome]
    refine ⟨.ok rfl, { hst with
      source_left := hleaves.source.trans hst.source_left
      source_right := hleaves'.source.trans hst.source_right
      position := ?_
      marks := ?_
      record := ?_ }⟩
    · show scanner.position = scanner'.position
      rw [hleaves.position, hleaves'.position, houtcome]
    · show scanner.marks = scanner'.marks
      rw [hleaves.marks, hleaves'.marks, hst.marks]
    · show c.record memo scanner.comparisons memo' scanner'.comparisons
      rw [hleaves.comparisons, hleaves'.comparisons]
      rw [hst.source_left] at hmemo
      exact hrecord s t hst memo memo' hoff hmemo hoff'

/-! ## With a memo and without -/

/-- The same names on both sides; the memo on the left is coherent, the one on the right is off,
and the left compared no more literals than the right. -/
def remembering (g : Grammar) (source : Source) : Correspondence where
  state := Eq
  token := Eq
  record := fun memo n memo' n' => memo.Coherent g.rules source ∧ memo' = .off ∧ n ≤ n'

theorem evaluate_remembering {rule : Rule} {id : RuleId} (hrule : g.rules.get? id = some rule) :
    Sim (Alike (remembering g source) source) Eq (evaluate rule id) (evaluate rule id) := by
  refine evaluate_sim hrule hrule rfl (fun s t hst => ?_) fun s t hst memo memo' _ hmemo hoff => ?_
  · obtain ⟨hcoherent, hoff, -⟩ := hst.record
    exact ⟨hcoherent, hoff ▸ Memo.coherent_off⟩
  · obtain ⟨-, ht, hle⟩ := hst.record
    refine ⟨hmemo, hoff ht, ?_⟩
    -- the right never knows a result, so it makes every comparison that the left may skip
    have hunknown : t.memo.get? id t.scanner.position = none := by rw [ht]; rfl
    unfold toCompare
    rw [hunknown, remaining_eq_of_alike hst]
    split
    · exact Nat.le_trans hle (Nat.le_add_right ..)
    · exact Nat.add_le_add_right hle _

theorem forall₂_eq_refl {α : Type} (l : List α) : List.Forall₂ Eq l l :=
  List.forall₂_same.2 fun _ _ => rfl

theorem optionRel_eq_refl {α : Type} (o : Option α) : Option.Rel Eq o o := by
  cases o with
  | none => exact .none
  | some a => exact .some rfl

theorem fits_remembering : Fits (remembering g source) source g g := by
  rintro i _ rfl
  cases g.graph.node i with
  | error e => exact .error e
  | ok node =>
    refine .ok ?_
    rcases node with ⟨kind, token, annotations, branches⟩
    cases kind with
    | terminal id =>
      refine .terminal ?_ (forall₂_eq_refl branches)
      unfold RuleTable.get
      cases hrule : g.rules.get? id with
      | none => exact .error _
      | some rule => exact .ok ⟨rfl, evaluate_remembering hrule⟩
    | repetition child min max =>
      exact .repetition rfl (optionRel_eq_refl token) (forall₂_eq_refl branches)
    | choice => exact .choice (optionRel_eq_refl token) (forall₂_eq_refl branches)

theorem scan_remembering (i : StateId) :
    Sim (Alike (remembering g source) source) Eq (scan g i) (scan g i) := by
  refine Sim.get_bind fun s t hst => ?_
  rw [hst.settings, hst.source_left, hst.source_right]
  exact scanNested_sim fits_remembering _ i i rfl

theorem perform_remembering (op : Op) :
    Sim (Alike (remembering g source) source) Eq (perform g op) (perform g op) := by
  cases op with
  | scan state =>
    refine Sim.bind (scan_remembering state) ?_
    rintro found _ rfl
    exact Sim.pure rfl
  | run root => exact Sim.bind (run_sim (scan_remembering root)) fun _ _ _ => Sim.pure rfl
  | push => exact Sim.bind push_sim fun _ _ _ => Sim.pure rfl
  | pop publish => exact Sim.bind (pop_sim publish) fun _ _ _ => Sim.pure rfl

theorem start_remembering (source : String) (settings : Settings) :
    Alike (remembering g (.ofString source)) (.ofString source)
      (.start source settings (.on {})) (.start source settings .off) :=
  start_alike source settings ⟨Memo.coherent_empty, rfl, Nat.le_refl _⟩

/-! ## What a caller sees -/

/-- Two sessions look alike: they differ in names at most. -/
structure View.Alike (c : Correspondence) (v w : View) : Prop where
  position : v.position = w.position
  marks : v.marks = w.marks
  frames : List.Forall₂ (Frame.Alike c) v.frames w.frames
  steps : v.steps = w.steps
  furthest : v.furthest = w.furthest
  events : List.Forall₂ (Event.Alike c) v.events.toList w.events.toList

theorem Alike.view {s t : Session} (hst : s.Alike c source t) : s.view.Alike c t.view where
  position := hst.position
  marks := hst.marks
  frames := .cons hst.active hst.outer
  steps := hst.steps
  furthest := hst.furthest
  events := hst.events

/-- Views that differ in no name are the same. -/
theorem View.Alike.eq {v w : View} (h : v.Alike c w) (hstate : c.state = Eq)
    (htoken : c.token = Eq) : v = w := by
  have hsame : ∀ e e' : Event, e.Alike c e' → e = e' := by
    intro e e' he
    rw [← he.rename_eq (f := id) htoken fun i j hij => by rwa [hstate] at hij, Event.rename_id]
  have hframes := eq_of_forall₂ (fun _ _ hf => hf.eq htoken) h.frames
  have hevents := Array.toList_inj.1 (eq_of_forall₂ hsame h.events)
  rcases v with ⟨position, marks, frames, steps, furthest, events⟩
  rcases w with ⟨position', marks', frames', steps', furthest', events'⟩
  simp only [View.mk.injEq]
  exact ⟨h.position, h.marks, hframes, h.steps, h.furthest, hevents⟩

theorem view_eq_of_alike {s t : Session} (h : s.Alike (remembering g source) source t) :
    s.view = t.view :=
  h.view.eq rfl rfl

theorem performAll_remembering (ops : List Op) {s t : Session}
    (h : s.Alike (remembering g source) source t) :
    List.Forall₂ (fun a b => a.1 = b.1 ∧ a.2.Alike (remembering g source) source b.2)
      (performAll g ops s) (performAll g ops t) := by
  induction ops generalizing s t with
  | nil => exact .nil
  | cons op ops ih =>
    obtain ⟨hanswer, hst⟩ := perform_remembering op s t h
    exact .cons ⟨hanswer.eq, hst⟩ (ih hst)

/-- **A memo is transparent.** Whatever operations are asked of a fresh session, in whatever
order, after each of them a session that remembers results and one that does not have given the
same answer and look the same, and remembering never took more comparisons. -/
theorem memo_transparent (g : Grammar) (source : String) (settings : Settings) (ops : List Op) :
    List.Forall₂
      (fun remembered plain => remembered.1 = plain.1 ∧ remembered.2.view = plain.2.view ∧
        remembered.2.scanner.comparisons ≤ plain.2.scanner.comparisons)
      (performAll g ops (.start source settings (.on {})))
      (performAll g ops (.start source settings .off)) := by
  refine (performAll_remembering ops (start_remembering source settings)).imp ?_
  rintro a b ⟨hanswer, halike⟩
  exact ⟨hanswer, view_eq_of_alike halike, halike.record.2.2⟩

end Lexigraph.Session
