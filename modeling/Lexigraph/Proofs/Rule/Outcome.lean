/-
# Lexigraph.Proofs.Rule.Outcome -- what a rule comes out to

How a rule comes out depends on the text that is left and on nothing else: the first
literal that the text goes on with is what it matches. `Rule.outcome` says so without a
scanner and without a memo. A memo is coherent when everything in it is such an outcome;
evaluation then answers the outcome, known or not, and leaves a coherent memo
(`Rule.evaluate_eq_outcome`). No promise is broken on the way.
-/

import Lexigraph.Rule

namespace Lexigraph

/-! ## Scanning literals -/

namespace Scanner

/-- Does what is left go on with a literal? -/
def startsWith (rest : List Char) (literal : String) : Bool := literal.toList <+: rest

/-- Number of comparisons that a search for the first match among some literals makes. -/
def effort (rest : List Char) (literals : List String) : Nat :=
  min (literals.findIdx (startsWith rest) + 1) literals.length

/-- The position after the first match among some literals, or the same position. -/
def stopOf (rest : List Char) (position : Nat) (literals : List String) : Nat :=
  match literals.find? (startsWith rest) with
  | some literal => position + Text.size literal.toList
  | none => position

theorem effort_cons (rest : List Char) (literal : String) (literals : List String) :
    effort rest (literal :: literals) =
      if startsWith rest literal then 1 else effort rest literals + 1 := by
  unfold effort
  rw [List.findIdx_cons, List.length_cons]
  cases startsWith rest literal with
  | true => simp
  | false =>
    simp only [Bool.false_eq_true, if_false, cond_false]
    omega

theorem stopOf_cons (rest : List Char) (position : Nat) (literal : String)
    (literals : List String) :
    stopOf rest position (literal :: literals) =
      if startsWith rest literal then position + Text.size literal.toList
      else stopOf rest position literals := by
  unfold stopOf
  rw [List.find?_cons]
  cases startsWith rest literal <;> rfl

/-- What scanning for the first match among some literals does. -/
theorem scanFirst_eq (s : Scanner) (literals : List String) :
    (s.scanFirst literals).1 = literals.any (startsWith s.remaining) ∧
      (s.scanFirst literals).2.source = s.source ∧
      (s.scanFirst literals).2.marks = s.marks ∧
      (s.scanFirst literals).2.position = stopOf s.remaining s.position literals ∧
      (s.scanFirst literals).2.comparisons =
        s.comparisons + effort s.remaining literals := by
  induction literals generalizing s with
  | nil => simp [scanFirst, stopOf, effort]
  | cons literal literals ih =>
    rw [List.any_cons, stopOf_cons, effort_cons]
    by_cases h : literal.toList <+: s.remaining
    · have hb : startsWith s.remaining literal = true := by simpa [startsWith] using h
      simp [scanFirst, scan, h, hb]
    · have hb : startsWith s.remaining literal = false := by simpa [startsWith] using h
      have hscan : s.scan literal.toList = (false, { s with comparisons := s.comparisons + 1 }) := by
        simp [scan, h]
      have hrest : ({ s with comparisons := s.comparisons + 1 } : Scanner).remaining =
          s.remaining := rfl
      have := ih { s with comparisons := s.comparisons + 1 }
      rw [hrest] at this
      simp only [scanFirst, hscan, hb, Bool.false_or, Bool.false_eq_true, if_false]
      refine ⟨this.1, this.2.1, this.2.2.1, this.2.2.2.1, ?_⟩
      rw [this.2.2.2.2]
      show s.comparisons + 1 + effort s.remaining literals = _
      omega

/-- To proceed drops the newest mark and nothing else. -/
theorem proceed_eq {s : Scanner} {m : Nat} {marks : List Nat} (h : s.marks = m :: marks)
    (hle : m ≤ s.position) :
    ∃ s', s.proceed = .ok (⟨m, s.position⟩, s') ∧ s'.source = s.source ∧ s'.marks = marks ∧
      s'.position = s.position ∧ s'.comparisons = s.comparisons := by
  rcases s with ⟨source, position, _, comparisons, position_ok, marks_ok⟩
  obtain rfl : _ = m :: marks := h
  have hspan : Span.between m position = .ok ⟨m, position⟩ := if_pos hle
  refine ⟨⟨source, position, marks, comparisons, position_ok,
    fun k hk => marks_ok k (List.mem_cons_of_mem _ hk)⟩, ?_, rfl, rfl, rfl, rfl⟩
  show (Span.between m position >>= _) = _
  rw [hspan]
  rfl

/-- To rewind goes back to the newest mark and drops it. -/
theorem rewind_eq {s : Scanner} {m : Nat} {marks : List Nat} (h : s.marks = m :: marks) :
    ∃ s', s.rewind = .ok s' ∧ s'.source = s.source ∧ s'.marks = marks ∧ s'.position = m ∧
      s'.comparisons = s.comparisons := by
  rcases s with ⟨source, position, _, comparisons, position_ok, marks_ok⟩
  obtain rfl : _ = m :: marks := h
  exact ⟨⟨source, m, marks, comparisons, marks_ok m List.mem_cons_self,
    fun k hk => marks_ok k (List.mem_cons_of_mem _ hk)⟩, rfl, rfl, rfl, rfl, rfl⟩

theorem remaining_eq (s : Scanner) : s.source.rest? s.position = some s.remaining :=
  (Option.some_get s.position_ok).symm

/-- What is left depends on the source and the position alone. -/
theorem remaining_congr {s t : Scanner} (hsource : t.source = s.source)
    (hposition : t.position = s.position) : t.remaining = s.remaining := by
  apply Option.some.inj
  rw [← t.remaining_eq, ← s.remaining_eq, hsource, hposition]

/-- Past the beginning of what is left, the end of it is left. -/
theorem remaining_of_past {s t : Scanner} {past rest : List Char} (hsource : t.source = s.source)
    (hposition : t.position = s.position + Text.size past) (hrest : s.remaining = past ++ rest) :
    t.remaining = rest := by
  obtain ⟨before, hchars, hsize⟩ := s.source.exists_eq_append_rest s.position_ok
  have hchars' : s.source.chars = (before ++ past) ++ rest := by
    rw [hchars, List.append_assoc, ← hrest]
    rfl
  apply Option.some.inj
  rw [← t.remaining_eq, hsource, hposition, Source.rest?_eq, hchars', ← hsize, ← Text.size_append,
    Text.after?_size_append]

end Scanner

/-! ## The outcome of a rule -/

/-- Where a rule that came out so leaves the scanner. -/
def MatchResult.stop : MatchResult → Nat
  | .success span => span.stop
  | .failure position => position

namespace Rule

/-- How a rule comes out at a position where `rest` is left. -/
def outcome (r : Rule) (rest : List Char) (position : Nat) : MatchResult :=
  match r.choices.toList.find? (Scanner.startsWith rest) with
  | some literal => .success ⟨position, position + Text.size literal.toList⟩
  | none => .failure position

theorem outcome_position (r : Rule) (rest : List Char) (position : Nat) :
    (r.outcome rest position).position = position := by
  unfold outcome
  split <;> rfl

theorem outcome_stop (r : Rule) (rest : List Char) (position : Nat) :
    (r.outcome rest position).stop = Scanner.stopOf rest position r.choices.toList := by
  unfold outcome Scanner.stopOf
  split <;> rfl

theorem le_outcome_stop (r : Rule) (rest : List Char) (position : Nat) :
    position ≤ (r.outcome rest position).stop := by
  unfold outcome
  split
  · exact Nat.le_add_right ..
  · exact Nat.le_refl _

/-- A scanner that stands where an outcome leaves it: nothing else changed but the count of
comparisons, which grew by `n`. -/
structure Leaves (r : Rule) (scanner scanner' : Scanner) (n : Nat) : Prop where
  source : scanner'.source = scanner.source
  marks : scanner'.marks = scanner.marks
  position : scanner'.position = (r.outcome scanner.remaining scanner.position).stop
  comparisons : scanner'.comparisons = scanner.comparisons + n

/-- A search for the first match finds one exactly when the outcome is a success. -/
theorem outcome_eq (r : Rule) (rest : List Char) (position : Nat) :
    r.outcome rest position =
      if r.choices.toList.any (Scanner.startsWith rest) then
        .success ⟨position, Scanner.stopOf rest position r.choices.toList⟩
      else .failure position := by
  unfold outcome Scanner.stopOf
  cases hfind : r.choices.toList.find? (Scanner.startsWith rest) with
  | none =>
    have hany : ¬ r.choices.toList.any (Scanner.startsWith rest) = true := by
      rw [List.any_eq_true]
      rintro ⟨literal, hliteral, hstarts⟩
      exact List.find?_eq_none.1 hfind literal hliteral hstarts
    rw [if_neg hany]
  | some literal =>
    have hany : r.choices.toList.any (Scanner.startsWith rest) = true :=
      List.any_eq_true.2 ⟨literal, List.mem_of_find?_eq_some hfind, List.find?_some hfind⟩
    rw [if_pos hany]

/-- Comparing the literals answers the outcome. -/
theorem attempt_eq_outcome (r : Rule) (scanner : Scanner) :
    ∃ scanner', r.attempt scanner =
        .ok (r.outcome scanner.remaining scanner.position, scanner') ∧
      r.Leaves scanner scanner' (Scanner.effort scanner.remaining r.choices.toList) := by
  have hmark : scanner.mark.remaining = scanner.remaining := rfl
  have hstop := r.le_outcome_stop scanner.remaining scanner.position
  have hscan := Scanner.scanFirst_eq scanner.mark r.choices.toList
  have hout := r.outcome_eq scanner.remaining scanner.position
  rw [outcome_stop] at hstop
  rw [hmark] at hscan
  unfold attempt
  revert hscan
  rcases scanner.mark.scanFirst r.choices.toList with ⟨found, after⟩
  rintro ⟨hfound, hsource, hmarks, hposition, hcount⟩
  change after.marks = scanner.position :: scanner.marks at hmarks
  change after.position = Scanner.stopOf scanner.remaining scanner.position _ at hposition
  rw [← hfound] at hout
  cases found with
  | true =>
    rw [if_pos rfl, ← hposition] at hout
    obtain ⟨scanner', hproceed, hsource', hmarks', hposition', hcount'⟩ :=
      Scanner.proceed_eq hmarks (hposition ▸ hstop)
    refine ⟨scanner', ?_, hsource'.trans hsource, hmarks', ?_, hcount'.trans hcount⟩
    · show (after.proceed >>= _) = _
      rw [hproceed, hout]
      rfl
    · rw [hposition', hout]
      rfl
  | false =>
    rw [if_neg Bool.false_ne_true] at hout
    obtain ⟨scanner', hrewind, hsource', hmarks', hposition', hcount'⟩ := Scanner.rewind_eq hmarks
    refine ⟨scanner', ?_, hsource'.trans hsource, hmarks', ?_, hcount'.trans hcount⟩
    · show (after.rewind >>= _) = _
      rw [hrewind, hout, ← hposition']
      rfl
    · rw [hposition', hout]
      rfl

end Rule

/-! ## What a memo holds -/

namespace Memo

/-- The known result of a rule at a position; asking is not counted. -/
def get? (m : Memo) (rule : RuleId) (position : Nat) : Option MatchResult :=
  m.table?.bind (·.get? rule position)

/-- Everything in the memo is the outcome of a rule of the table in the source. -/
def Coherent (rules : RuleTable) (source : Source) (m : Memo) : Prop :=
  ∀ id position known, m.get? id position = some known →
    ∃ rule rest, rules.get? id = some rule ∧ source.rest? position = some rest ∧
      known = rule.outcome rest position

variable {rules : RuleTable} {source : Source}

theorem coherent_off : Coherent rules source .off := by
  intro id position known h
  simp [get?, table?] at h

theorem coherent_empty : Coherent rules source (.on {}) := by
  intro id position known h
  simp [get?, table?, ResultTable.get?] at h

/-- Asking answers what is known and keeps it. -/
theorem ask_eq (m : Memo) (id : RuleId) (position : Nat) :
    (m.ask id position).1 = m.get? id position ∧
      ∀ id' position', (m.ask id position).2.get? id' position' = m.get? id' position' := by
  cases m with
  | off => exact ⟨rfl, fun _ _ => rfl⟩
  | on table =>
    cases h : table.get? id position with
    | some known =>
      simp only [ask, ResultTable.ask, h]
      exact ⟨h.symm, fun _ _ => rfl⟩
    | none =>
      simp only [ask, ResultTable.ask, h]
      exact ⟨h.symm, fun _ _ => rfl⟩

theorem isSome_table?_ask (m : Memo) (id : RuleId) (position : Nat) :
    (m.ask id position).2.table?.isSome = m.table?.isSome := by
  cases m with
  | off => rfl
  | on table => rfl

/-- What is not known yet can be recorded. -/
theorem record_eq {m : Memo} {id : RuleId} {result : MatchResult}
    (h : m.get? id result.position = none) :
    (m.record id result).1 = .ok () ∧
      ∀ id' position', (m.record id result).2.get? id' position' =
        if m.table?.isSome ∧ (id', position') = (id, result.position) then some result
        else m.get? id' position' := by
  cases m with
  | off => simp [record, get?, table?]
  | on table =>
    have hnone : table.get? id result.position = none := h
    simp only [record, ResultTable.record, hnone]
    refine ⟨trivial, fun id' position' => ?_⟩
    simp only [get?, table?, Option.bind_some, ResultTable.get?_insert]
    by_cases he : id = id' ∧ result.position = position'
    · obtain ⟨rfl, rfl⟩ := he
      simp
    · have hne : (id', position') ≠ (id, result.position) := by
        rintro ⟨⟩
        exact he ⟨rfl, rfl⟩
      simp [he, hne]

end Memo

/-! ## Evaluation -/

namespace Rule

variable {rules : RuleTable}

/-- Taking over an outcome leaves the scanner where comparing the literals leaves it. -/
theorem replay_outcome (r : Rule) (scanner : Scanner) :
    ∃ scanner', replay (r.outcome scanner.remaining scanner.position) scanner = .ok scanner' ∧
      r.Leaves scanner scanner' 0 := by
  obtain ⟨after, -, hafter⟩ := r.attempt_eq_outcome scanner
  cases h : r.outcome scanner.remaining scanner.position with
  | failure position =>
    have hposition := r.outcome_position scanner.remaining scanner.position
    rw [h] at hposition
    refine ⟨scanner, rfl, rfl, rfl, ?_, rfl⟩
    rw [h]
    exact hposition.symm
  | success span =>
    have hposition : after.position = span.stop := by
      rw [hafter.position, h]
      rfl
    have hok : scanner.source.IsBoundary span.stop := by
      rw [← hposition, ← hafter.source]
      exact after.position_ok
    have hle : ¬ scanner.source.size < span.stop := Nat.not_lt.2 hok.le_size
    refine ⟨{ scanner with position := span.stop, position_ok := hok }, ?_, rfl, rfl, ?_, rfl⟩
    · simp only [replay, Scanner.moveTo, hle, hok, if_false, dif_pos]
    · rw [h]
      rfl

theorem source_of_replay {result : MatchResult} {scanner scanner' : Scanner}
    (h : replay result scanner = .ok scanner') : scanner'.source = scanner.source := by
  cases result with
  | failure position => rw [← Except.ok.inj h]
  | success span =>
    simp only [replay, Scanner.moveTo] at h
    split at h
    · cases h
    · split at h
      · rw [← Except.ok.inj h]
      · cases h

/-- Evaluation stays on the source, whatever is remembered. -/
theorem source_of_evaluate {r : Rule} {id : RuleId} {scanner scanner' : Scanner} {memo : Memo}
    {result : MatchResult} (h : (r.evaluate id scanner memo).1 = .ok (result, scanner')) :
    scanner'.source = scanner.source := by
  unfold evaluate at h
  by_cases hend : scanner.atEnd = true
  · rw [if_pos hend] at h
    cases h
  rw [if_neg hend] at h
  revert h
  rcases memo.ask id scanner.position with ⟨_ | known, asked⟩
  · obtain ⟨after, hattempt, hafter⟩ := r.attempt_eq_outcome scanner
    rw [hattempt]
    dsimp only
    rcases asked.record id (r.outcome scanner.remaining scanner.position) with ⟨_ | _, recorded⟩
    · nofun
    · intro h
      cases h
      exact hafter.source
  · dsimp only
    cases hreplay : replay known scanner with
    | error f => nofun
    | ok after =>
      intro h
      cases h
      exact source_of_replay hreplay

/-- At the end of the source evaluation fails and nothing changes. -/
theorem evaluate_atEnd (r : Rule) (id : RuleId) {scanner : Scanner} (memo : Memo)
    (h : scanner.atEnd = true) :
    r.evaluate id scanner memo = (.error (.error (.unexpectedEnd scanner.position)), memo) := by
  simp only [evaluate, h, if_true]

/-- A known outcome is taken over: nothing is compared and nothing recorded. -/
theorem evaluate_known {r : Rule} {id : RuleId} {scanner : Scanner} {memo : Memo}
    (hend : scanner.atEnd = false)
    (hknown : memo.get? id scanner.position =
      some (r.outcome scanner.remaining scanner.position)) :
    ∃ scanner' memo', r.evaluate id scanner memo =
        (.ok (r.outcome scanner.remaining scanner.position, scanner'), memo') ∧
      (∀ id' position', memo'.get? id' position' = memo.get? id' position') ∧
      r.Leaves scanner scanner' 0 := by
  obtain ⟨hasked, hkeep⟩ := memo.ask_eq id scanner.position
  rcases ha : memo.ask id scanner.position with ⟨known, asked⟩
  rw [ha] at hasked hkeep
  obtain rfl : known = _ := hasked.trans hknown
  obtain ⟨scanner', hreplay, hleaves⟩ := r.replay_outcome scanner
  refine ⟨scanner', asked, ?_, hkeep, hleaves⟩
  simp only [evaluate, hend, ha, hreplay, Bool.false_eq_true, if_false]

/-- An unknown outcome is found out, and recorded where nothing stands yet. -/
theorem evaluate_unknown {r : Rule} {id : RuleId} {scanner : Scanner} {memo : Memo}
    (hend : scanner.atEnd = false) (hunknown : memo.get? id scanner.position = none) :
    ∃ scanner' memo', r.evaluate id scanner memo =
        (.ok (r.outcome scanner.remaining scanner.position, scanner'), memo') ∧
      (∀ id' position', memo'.get? id' position' =
        if memo.table?.isSome ∧ (id', position') = (id, scanner.position) then
          some (r.outcome scanner.remaining scanner.position)
        else memo.get? id' position') ∧
      r.Leaves scanner scanner' (Scanner.effort scanner.remaining r.choices.toList) := by
  obtain ⟨hasked, hkeep⟩ := memo.ask_eq id scanner.position
  have htable := memo.isSome_table?_ask id scanner.position
  rcases ha : memo.ask id scanner.position with ⟨known, asked⟩
  rw [ha] at hasked hkeep htable
  obtain rfl : known = none := hasked.trans hunknown
  dsimp only at hkeep htable
  obtain ⟨scanner', hattempt, hleaves⟩ := r.attempt_eq_outcome scanner
  have hposition := r.outcome_position scanner.remaining scanner.position
  have hfree : asked.get? id (r.outcome scanner.remaining scanner.position).position = none := by
    rw [hposition, hkeep, hunknown]
  obtain ⟨hdone, hrecorded⟩ := Memo.record_eq hfree
  rw [hposition, htable] at hrecorded
  rcases hr : asked.record id (r.outcome scanner.remaining scanner.position) with ⟨done, memo'⟩
  rw [hr] at hdone hrecorded
  obtain rfl : done = .ok () := hdone
  refine ⟨scanner', memo', ?_, fun id' position' => ?_, hleaves⟩
  · simp only [evaluate, hend, ha, hattempt, hr, Bool.false_eq_true, if_false]
  · rw [← hkeep]
    exact hrecorded id' position'

/-- Before the end of the source evaluation answers the outcome. It compares literals if the
outcome is not known, and leaves a coherent memo. -/
theorem evaluate_eq_outcome {r : Rule} {id : RuleId} {scanner : Scanner} {memo : Memo}
    (hend : scanner.atEnd = false) (hrule : rules.get? id = some r)
    (hmemo : memo.Coherent rules scanner.source) :
    ∃ scanner' memo', r.evaluate id scanner memo =
        (.ok (r.outcome scanner.remaining scanner.position, scanner'), memo') ∧
      memo'.Coherent rules scanner.source ∧
      r.Leaves scanner scanner'
        (if (memo.get? id scanner.position).isSome then 0
          else Scanner.effort scanner.remaining r.choices.toList) := by
  cases hasked : memo.get? id scanner.position with
  | some known =>
    -- what is known is the outcome of this very rule, with this very text left
    obtain ⟨rule, rest, hrule', hrest, rfl⟩ := hmemo id scanner.position known hasked
    obtain rfl : r = rule := Option.some.inj (hrule.symm.trans hrule')
    obtain rfl : scanner.remaining = rest :=
      Option.some.inj (scanner.remaining_eq.symm.trans hrest)
    obtain ⟨scanner', memo', heval, hkeep, hleaves⟩ := evaluate_known hend hasked
    refine ⟨scanner', memo', heval, fun id' position' known h => ?_, hleaves⟩
    rw [hkeep] at h
    exact hmemo id' position' known h
  | none =>
    obtain ⟨scanner', memo', heval, hrecorded, hleaves⟩ := evaluate_unknown (r := r) hend hasked
    refine ⟨scanner', memo', heval, fun id' position' known h => ?_, hleaves⟩
    rw [hrecorded] at h
    split at h
    · next hkey =>
      obtain ⟨rfl, rfl⟩ := Prod.mk.inj hkey.2
      exact ⟨r, _, hrule, scanner.remaining_eq, (Option.some.inj h).symm⟩
    · exact hmemo id' position' known h

/-- A memo that is off stays off. -/
theorem evaluate_off (r : Rule) (id : RuleId) (scanner : Scanner) :
    (r.evaluate id scanner .off).2 = .off := by
  unfold evaluate Memo.ask Memo.record
  split
  · rfl
  · simp only
    split <;> rfl

end Rule

end Lexigraph
