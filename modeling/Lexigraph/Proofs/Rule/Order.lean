/-
# Lexigraph.Proofs.Rule.Order -- when the order of literals matters

The first literal that matches wins, so the order of literals matters only where two of them match
the same text, and then one of the two begins the other. Where no literal begins a different one,
any order comes to the same. And a literal that an earlier one begins is never reached: where it
matches, the earlier one has matched before. It may as well be left out (`evaluate_order`).

Two rules are compared by evaluating each in a session of its own, from sessions that stand at one
place and know as much of the one rule as of the other.
-/

import Lexigraph.Proofs.Session.Memo

namespace Lexigraph

namespace Literals

/-- No literal begins a different one. -/
def PrefixFree (literals : List String) : Prop :=
  ∀ a ∈ literals, ∀ b ∈ literals, a.toList <+: b.toList → a = b

/-- Some literals without those that an earlier one begins, whether that is one of them or of
those in front, which are given as `front`. -/
def prune (front : List String) : List String → List String
  | [] => []
  | literal :: literals =>
    if front.any fun earlier => earlier.toList <+: literal.toList then
      prune (literal :: front) literals
    else literal :: prune (literal :: front) literals

/-- The literals without those that an earlier one begins. -/
def pruned (l : Literals) : Literals where
  first := l.first
  others := prune [l.first] l.others

theorem toList_pruned (l : Literals) : l.pruned.toList = prune [] l.toList := rfl

end Literals

open Literals (PrefixFree prune)

/-! ## The literal that matches -/

namespace Scanner

variable {rest : List Char} {literals literals' front : List String} {literal : String}

theorem startsWith_iff : startsWith rest literal = true ↔ literal.toList <+: rest := by
  simp [startsWith]

/-- Where no literal begins a different one, at most one of them matches. -/
theorem find?_startsWith_iff (h : PrefixFree literals) :
    literals.find? (startsWith rest) = some literal ↔
      literal ∈ literals ∧ literal.toList <+: rest := by
  constructor
  · intro hfind
    exact ⟨List.mem_of_find?_eq_some hfind, startsWith_iff.1 (List.find?_some hfind)⟩
  · rintro ⟨hmem, hmatch⟩
    obtain ⟨found, hfound⟩ : ∃ found, literals.find? (startsWith rest) = some found :=
      Option.isSome_iff_exists.1 (List.find?_isSome.2 ⟨literal, hmem, startsWith_iff.2 hmatch⟩)
    have hmem' := List.mem_of_find?_eq_some hfound
    have hmatch' := startsWith_iff.1 (List.find?_some hfound)
    -- of two beginnings of one text, one begins the other
    rcases List.prefix_or_prefix_of_prefix hmatch hmatch' with hbegins | hbegins
    · rw [hfound, h literal hmem found hmem' hbegins]
    · rw [hfound, h found hmem' literal hmem hbegins]

theorem find?_startsWith_perm (hperm : literals.Perm literals') (hfree : PrefixFree literals) :
    literals.find? (startsWith rest) = literals'.find? (startsWith rest) := by
  have hfree' : PrefixFree literals' := fun a ha b hb =>
    hfree a (hperm.mem_iff.2 ha) b (hperm.mem_iff.2 hb)
  apply Option.ext
  intro literal
  rw [find?_startsWith_iff hfree, find?_startsWith_iff hfree', hperm.mem_iff]

/-- Where none of those in front matches, pruning makes no difference to what is found. -/
theorem find?_startsWith_prune (hfront : ∀ earlier ∈ front, ¬ earlier.toList <+: rest) :
    (prune front literals).find? (startsWith rest) = literals.find? (startsWith rest) := by
  induction literals generalizing front with
  | nil => rfl
  | cons literal literals ih =>
    by_cases hmatch : literal.toList <+: rest
    · -- what matches is not begun by what does not match
      have hkept : ¬ (front.any fun earlier => earlier.toList <+: literal.toList) = true := by
        simp only [List.any_eq_true, decide_eq_true_eq, not_exists, not_and]
        exact fun earlier hearlier hbegins => hfront earlier hearlier (hbegins.trans hmatch)
      rw [prune, if_neg hkept, List.find?_cons_of_pos (startsWith_iff.2 hmatch),
        List.find?_cons_of_pos (startsWith_iff.2 hmatch)]
    · have hmiss : ¬ startsWith rest literal = true := fun h => hmatch (startsWith_iff.1 h)
      have hfront' : ∀ earlier ∈ literal :: front, ¬ earlier.toList <+: rest :=
        List.forall_mem_cons.2 ⟨hmatch, hfront⟩
      have hmore := ih hfront'
      rw [prune, List.find?_cons_of_neg hmiss]
      split
      · exact hmore
      · rw [List.find?_cons_of_neg hmiss, hmore]

end Scanner

/-! ## Evaluating two rules -/

namespace Session

/-- Two sessions stand at one place, and as much is known of one rule in the first as of another
rule in the second. -/
structure SameFor (id id' : RuleId) (s s' : Session) : Prop where
  source : s.scanner.source = s'.scanner.source
  position : s.scanner.position = s'.scanner.position
  remembers : s.memo.table?.isSome = s'.memo.table?.isSome
  known : ∀ position, s.memo.get? id position = s'.memo.get? id' position

variable {id id' : RuleId} {s s' : Session}

namespace SameFor

theorem atEnd (h : SameFor id id' s s') : s.scanner.atEnd = s'.scanner.atEnd := by
  unfold Scanner.atEnd
  rw [h.source, h.position]

theorem remaining (h : SameFor id id' s s') : s.scanner.remaining = s'.scanner.remaining :=
  Scanner.remaining_congr h.source h.position

/-- To ask for a result changes nothing of what is known. -/
theorem asked (h : SameFor id id' s s') (position : Nat) :
    SameFor id id' { s with memo := (s.memo.ask id position).2 }
      { s' with memo := (s'.memo.ask id' position).2 } where
  source := h.source
  position := h.position
  remembers := by
    rw [Memo.isSome_table?_ask, Memo.isSome_table?_ask]
    exact h.remembers
  known other := by
    rw [(s.memo.ask_eq id position).2, (s'.memo.ask_eq id' position).2]
    exact h.known other

/-- The scanners may be moved, both to the same place. -/
theorem moved (h : SameFor id id' s s') {scanner scanner' : Scanner}
    (hsource : scanner.source = scanner'.source) (hposition : scanner.position = scanner'.position) :
    SameFor id id' { s with scanner } { s' with scanner := scanner' } :=
  { h with source := hsource, position := hposition }

end SameFor

end Session

namespace Rule

/-- Wherever the two rules are evaluated, they come to the same result or error, and leave the
scanners at the same place and as much known of the one as of the other. -/
def AnswersLike (r r' : Rule) : Prop :=
  ∀ id id' s s', Session.SameFor id id' s s' →
    (Session.evaluate r id s).1 = (Session.evaluate r' id' s').1 ∧
      Session.SameFor id id' (Session.evaluate r id s).2 (Session.evaluate r' id' s').2

/-! ### A known result -/

/-- To take over a known result does the same to scanners at one place. -/
theorem replay_same {scanner scanner' : Scanner} (known : MatchResult)
    (hsource : scanner.source = scanner'.source) (hposition : scanner.position = scanner'.position) :
    (∃ f, replay known scanner = .error f ∧ replay known scanner' = .error f) ∨
      ∃ after after', replay known scanner = .ok after ∧ replay known scanner' = .ok after' ∧
        after.source = after'.source ∧ after.position = after'.position := by
  rcases scanner with ⟨source, position, marks, comparisons, position_ok, marks_ok⟩
  rcases scanner' with ⟨_, _, marks', comparisons', position_ok', marks_ok'⟩
  obtain rfl : source = _ := hsource
  obtain rfl : position = _ := hposition
  cases known with
  | failure _ => exact .inr ⟨_, _, rfl, rfl, rfl, rfl⟩
  | success span =>
    unfold replay Scanner.moveTo
    by_cases hsize : source.size < span.stop
    · exact .inl ⟨_, if_pos hsize, if_pos hsize⟩
    by_cases hboundary : source.IsBoundary span.stop
    · simp only [if_neg hsize, dif_pos hboundary]
      exact .inr ⟨_, _, rfl, rfl, rfl, rfl⟩
    · simp only [if_neg hsize, dif_neg hboundary]
      exact .inl ⟨_, rfl, rfl⟩

/-- A known result is taken over, whatever it is, and nothing is recorded. -/
theorem evaluate_of_get? (r : Rule) {id : RuleId} {s : Session} {known : MatchResult}
    (hend : s.scanner.atEnd = false) (hknown : s.memo.get? id s.scanner.position = some known) :
    Session.evaluate r id s = match replay known s.scanner with
      | .error f => (.error (.fault f), { s with memo := (s.memo.ask id s.scanner.position).2 })
      | .ok scanner => (.ok known,
          { s with scanner, memo := (s.memo.ask id s.scanner.position).2 }) := by
  obtain ⟨hasked, -⟩ := s.memo.ask_eq id s.scanner.position
  rcases ha : s.memo.ask id s.scanner.position with ⟨answer, asked⟩
  rw [ha] at hasked
  obtain rfl : answer = some known := hasked.trans hknown
  simp only [Session.evaluate, evaluate, hend, ha, Bool.false_eq_true, if_false]
  cases replay known s.scanner <;> rfl

theorem evaluate_same_of_get? (r r' : Rule) {id id' : RuleId} {s s' : Session} {known : MatchResult}
    (hs : Session.SameFor id id' s s') (hend : s.scanner.atEnd = false)
    (hknown : s.memo.get? id s.scanner.position = some known) :
    (Session.evaluate r id s).1 = (Session.evaluate r' id' s').1 ∧
      Session.SameFor id id' (Session.evaluate r id s).2 (Session.evaluate r' id' s').2 := by
  have hknown' : s'.memo.get? id' s'.scanner.position = some known := by
    rw [← hknown, hs.known, hs.position]
  have hasked := hs.asked s.scanner.position
  rw [evaluate_of_get? r hend hknown, evaluate_of_get? r' (hs.atEnd.symm.trans hend) hknown',
    ← hs.position]
  rcases replay_same known hs.source hs.position with
    ⟨f, hf, hf'⟩ | ⟨after, after', hafter, hafter', hsource, hposition⟩
  · rw [hf, hf']
    exact ⟨rfl, hasked⟩
  · rw [hafter, hafter']
    exact ⟨rfl, hasked.moved hsource hposition⟩

/-! ### A result that is not known yet -/

/-- A memo that remembers goes on remembering, and one that is off stays off. -/
theorem isSome_table?_evaluate (r : Rule) (id : RuleId) (scanner : Scanner) (memo : Memo) :
    (r.evaluate id scanner memo).2.table?.isSome = memo.table?.isSome := by
  have hasked := memo.isSome_table?_ask id scanner.position
  unfold evaluate
  split
  · rfl
  revert hasked
  rcases memo.ask id scanner.position with ⟨_ | known, asked⟩
  · intro hasked
    cases r.attempt scanner with
    | error f => exact hasked
    | ok result =>
      have hrecorded : (asked.record id result.1).2.table?.isSome = asked.table?.isSome := by
        cases asked <;> rfl
      revert hrecorded
      dsimp only
      rcases asked.record id result.1 with ⟨_ | _, recorded⟩
      · exact fun hrecorded => hrecorded.trans hasked
      · exact fun hrecorded => hrecorded.trans hasked
  · intro hasked
    dsimp only
    cases replay known scanner with
    | error f => exact hasked
    | ok scanner => exact hasked

theorem evaluate_same_of_new {r r' : Rule} {id id' : RuleId} {s s' : Session}
    (hs : Session.SameFor id id' s s') (hend : s.scanner.atEnd = false)
    (hnew : s.memo.get? id s.scanner.position = none)
    (houtcome : r.outcome s.scanner.remaining s.scanner.position =
      r'.outcome s.scanner.remaining s.scanner.position) :
    (Session.evaluate r id s).1 = (Session.evaluate r' id' s').1 ∧
      Session.SameFor id id' (Session.evaluate r id s).2 (Session.evaluate r' id' s').2 := by
  have hnew' : s'.memo.get? id' s'.scanner.position = none := by
    rw [← hnew, hs.known, hs.position]
  have hremembers := r.isSome_table?_evaluate id s.scanner s.memo
  have hremembers' := r'.isSome_table?_evaluate id' s'.scanner s'.memo
  obtain ⟨after, memo, heval, hentries, hleaves⟩ := evaluate_unknown (r := r) hend hnew
  obtain ⟨after', memo', heval', hentries', hleaves'⟩ :=
    evaluate_unknown (r := r') (hs.atEnd.symm.trans hend) hnew'
  rw [heval] at hremembers
  rw [heval'] at hremembers'
  have hposition := hleaves'.position
  rw [← hs.remaining, ← hs.position, ← houtcome] at heval' hentries' hposition
  unfold Session.evaluate
  rw [heval, heval']
  refine ⟨rfl, ?_, ?_, ?_, fun position => ?_⟩
  · exact hleaves.source.trans (hs.source.trans hleaves'.source.symm)
  · exact hleaves.position.trans hposition.symm
  · exact hremembers.trans (hs.remembers.trans hremembers'.symm)
  · show memo.get? id position = memo'.get? id' position
    rw [hentries, hentries', hs.remembers, hs.known]
    simp only [Prod.mk.injEq, true_and]

/-! ## Rules with other literals -/

/-- Rules that find the same literal in every text answer alike. -/
theorem answersLike_of_find? {r r' : Rule}
    (h : ∀ rest, r.choices.toList.find? (Scanner.startsWith rest) =
      r'.choices.toList.find? (Scanner.startsWith rest)) : r.AnswersLike r' := by
  intro id id' s s' hs
  cases hend : s.scanner.atEnd with
  | true =>
    rw [Session.evaluate_atEnd hend, Session.evaluate_atEnd (hs.atEnd.symm.trans hend), hs.position]
    exact ⟨rfl, hs⟩
  | false =>
    cases hknown : s.memo.get? id s.scanner.position with
    | some known => exact evaluate_same_of_get? r r' hs hend hknown
    | none =>
      apply evaluate_same_of_new hs hend hknown
      unfold outcome
      rw [h]

/-- The rule without the literals that an earlier one begins. -/
def pruned (r : Rule) : Rule := { r with choices := r.choices.pruned }

/-- **Order matters only where one literal begins another.**

* Rules with the same literals in any order answer alike, if no literal begins a different one.
* A rule answers as it does without the literals that an earlier one begins. -/
theorem evaluate_order (r : Rule) :
    (∀ r' : Rule, r.choices.toList.Perm r'.choices.toList → PrefixFree r.choices.toList →
      r.AnswersLike r') ∧
    r.AnswersLike r.pruned := by
  refine ⟨fun r' hperm hfree => ?_, ?_⟩
  · exact answersLike_of_find? fun rest => Scanner.find?_startsWith_perm hperm hfree
  · refine answersLike_of_find? fun rest => ?_
    show _ = r.choices.pruned.toList.find? _
    rw [Literals.toList_pruned, Scanner.find?_startsWith_prune (List.forall_mem_nil _)]

/-- Two literals that share a beginning, though neither begins the other. -/
def animals : Rule := { token := ⟨0⟩, choices := { first := "cat", others := ["car", "ox"] } }

/-- The same literals in another order. -/
def animalsAgain : Rule := { token := ⟨0⟩, choices := { first := "ox", others := ["car", "cat"] } }

theorem evaluate_order_animals :
    (Session.evaluate animals ⟨0⟩ (.start "cargo")).1 = .ok (.success ⟨0, 3⟩) ∧
    (Session.evaluate animalsAgain ⟨1⟩ (.start "cargo")).1 = .ok (.success ⟨0, 3⟩) ∧
    (Session.evaluate animalsAgain ⟨1⟩ (.start "cargo")).2.scanner.position = 3 := by
  have hperm : animals.choices.toList.Perm animalsAgain.choices.toList := by decide
  have hfree : PrefixFree animals.choices.toList := by
    unfold PrefixFree
    decide
  have hsame : Session.SameFor ⟨0⟩ ⟨1⟩ (.start "cargo") (.start "cargo") :=
    ⟨rfl, rfl, rfl, fun position => by simp [Session.start, Memo.get?, Memo.table?, ResultTable.get?]⟩
  have horder := (evaluate_order animals).1 animalsAgain hperm hfree ⟨0⟩ ⟨1⟩ _ _ hsame
  have hnew : (Session.start "cargo").memo.get? ⟨0⟩ (Session.start "cargo").scanner.position =
      none := by
    simp [Session.start, Memo.get?, Memo.table?, ResultTable.get?]
  have houtcome : animals.outcome (Session.start "cargo").scanner.remaining 0 =
      .success ⟨0, 3⟩ := by rfl
  obtain ⟨after, memo, heval, -, hleaves⟩ := evaluate_unknown (r := animals) (by decide) hnew
  have hcar : (Session.evaluate animals ⟨0⟩ (.start "cargo")).1 = .ok (.success ⟨0, 3⟩) := by
    unfold Session.evaluate
    rw [heval]
    exact congrArg Except.ok houtcome
  have hplace : (Session.evaluate animals ⟨0⟩ (.start "cargo")).2.scanner.position = 3 := by
    unfold Session.evaluate
    rw [heval]
    exact hleaves.position
  exact ⟨hcar, horder.1.symm.trans hcar, horder.2.position.symm.trans hplace⟩

/-- The empty literal begins every other one, and nothing is left behind it. -/
example : Literals.pruned { first := "ca", others := ["car", "b", "b", "", "x"] } =
    { first := "ca", others := ["b", ""] } := by decide

end Rule

end Lexigraph
