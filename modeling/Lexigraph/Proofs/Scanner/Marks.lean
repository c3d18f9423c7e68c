/-
# Lexigraph.Proofs.Scanner.Marks -- what marks remember

Marks nest: a mark is closed after all that were set later. `Moved` says once what a move
does to a scanner, and `Leads` what a run of moves does. Steps that close every mark they
set and no other (`Closed`) leave the marks alone and move the scanner past the literals
they keep, those of a stretch that was taken back left out (`Leads.past`). The steps since
an open mark are of this kind (`Leads.unclosed`), so a rewind ends where its mark was set,
and what a proceed answers covers the literals kept since (`Leads.answers`).

The marks are in order and none is past the position. A move that finds the mark it needs
therefore breaks no promise (`moveAll_paired`).
-/

import Lexigraph.Proofs.Rule.Outcome
import Lexigraph.Proofs.Token.Tiling
import Lexigraph.Scanner.Move

namespace Lexigraph.Scanner

variable {s t u : Scanner} {step : Step} {steps front back : List Step}

/-! ## What a move does -/

/-- The step leads from one scanner to the other. -/
def Moved (s t : Scanner) (step : Step) : Prop :=
  t.source = s.source ∧ match step with
    | .matched literal =>
      t.marks = s.marks ∧ t.position = s.position + Text.size literal.toList ∧
        s.remaining = literal.toList ++ t.remaining
    | .missed _ => t.marks = s.marks ∧ t.position = s.position
    | .marked p => t.marks = p :: s.marks ∧ t.position = s.position ∧ p = s.position
    | .rewound p => s.marks = p :: t.marks ∧ t.position = p
    | .proceeded span =>
      s.marks = span.start :: t.marks ∧ t.position = s.position ∧ span.stop = s.position

/-- Newest first, the marks never grow, and none is past the position. -/
def InOrder (s : Scanner) : Prop := (s.position :: s.marks).Pairwise (· ≥ ·)

theorem Moved.inOrder (h : Moved s t step) (hs : s.InOrder) : t.InOrder := by
  obtain ⟨-, h⟩ := h
  have hle := (List.pairwise_cons.1 hs).1
  have hmarks := (List.pairwise_cons.1 hs).2
  refine List.pairwise_cons.2 ?_
  cases step with
  | matched literal =>
    rw [h.1, h.2.1]
    exact ⟨fun m hm => Nat.le_add_right_of_le (hle m hm), hmarks⟩
  | missed literal =>
    rw [h.1, h.2]
    exact ⟨hle, hmarks⟩
  | marked p =>
    obtain ⟨hpush, hposition, rfl⟩ := h
    rw [hpush, hposition]
    refine ⟨fun m hm => ?_, hs⟩
    rcases List.mem_cons.1 hm with rfl | hm
    · exact Nat.le_refl _
    · exact hle m hm
  | rewound p =>
    rw [h.1] at hmarks
    rw [h.2]
    exact List.pairwise_cons.1 hmarks
  | proceeded span =>
    rw [h.1] at hle hmarks
    rw [h.2.1]
    exact ⟨fun m hm => hle m (List.mem_cons_of_mem _ hm), (List.pairwise_cons.1 hmarks).2⟩

/-- To compare a literal leaves the marks alone. -/
theorem exists_moved_scan (s : Scanner) (literal : String) :
    ∃ step t, s.move (.scan literal) = .ok (step, t) ∧ Moved s t step ∧ t.marks = s.marks := by
  by_cases hp : literal.toList <+: s.remaining
  · obtain ⟨t, hscan, hsource, hmarks, hposition⟩ : ∃ t, s.scan literal.toList = (true, t) ∧
        t.source = s.source ∧ t.marks = s.marks ∧
        t.position = s.position + Text.size literal.toList := ⟨_, dif_pos hp, rfl, rfl, rfl⟩
    refine ⟨.matched literal, t, by rw [move, hscan], ⟨hsource, hmarks, hposition, ?_⟩, hmarks⟩
    obtain ⟨rest, hrest⟩ := hp
    rw [remaining_of_past hsource hposition hrest.symm, hrest]
  · obtain ⟨t, hscan, hsource, hmarks, hposition⟩ : ∃ t, s.scan literal.toList = (false, t) ∧
        t.source = s.source ∧ t.marks = s.marks ∧ t.position = s.position :=
      ⟨_, dif_neg hp, rfl, rfl, rfl⟩
    exact ⟨.missed literal, t, by rw [move, hscan], ⟨hsource, hmarks, hposition⟩, hmarks⟩

/-- A move that finds the mark it needs is made, and the moves after it find theirs. -/
theorem exists_moved {m : Move} {moves : List Move} (hs : s.InOrder)
    (h : paired s.marks.length (m :: moves) = true) :
    ∃ step t, s.move m = .ok (step, t) ∧ Moved s t step ∧ paired t.marks.length moves = true := by
  cases m with
  | scan literal =>
    obtain ⟨step, t, hmove, hmoved, hmarks⟩ := s.exists_moved_scan literal
    exact ⟨step, t, hmove, hmoved, by rwa [hmarks]⟩
  | mark => exact ⟨_, _, rfl, ⟨rfl, rfl, rfl, rfl⟩, h⟩
  | rewind =>
    cases hmarks : s.marks with
    | nil => simp [hmarks, paired] at h
    | cons m marks =>
      obtain ⟨t, ht, hsource, hmarks', hposition, -⟩ := rewind_eq hmarks
      refine ⟨.rewound t.position, t, ?_, ⟨hsource, ?_, rfl⟩, ?_⟩
      · rw [move, ht]
        rfl
      · rw [hmarks, hmarks', hposition]
      · simpa [hmarks, hmarks', paired] using h
  | proceed =>
    cases hmarks : s.marks with
    | nil => simp [hmarks, paired] at h
    | cons m marks =>
      have hle : m ≤ s.position := (List.pairwise_cons.1 hs).1 m (by simp [hmarks])
      obtain ⟨t, ht, hsource, hmarks', hposition, -⟩ := proceed_eq hmarks hle
      refine ⟨.proceeded ⟨m, s.position⟩, t, ?_, ⟨hsource, ?_, hposition, rfl⟩, ?_⟩
      · rw [move, ht]
        rfl
      · rw [hmarks, hmarks']
      · simpa [hmarks, hmarks', paired] using h

/-! ## What a run of moves does -/

/-- The steps lead from one scanner to the other, one after another. -/
def Leads (s : Scanner) : List Step → Scanner → Prop
  | [], t => s = t
  | step :: steps, t => ∃ u, Moved s u step ∧ Leads u steps t

theorem Leads.inOrder (h : Leads s steps t) (hs : s.InOrder) : t.InOrder := by
  induction steps generalizing s with
  | nil => exact (show s = t from h) ▸ hs
  | cons step steps ih =>
    obtain ⟨u, hmoved, h⟩ := h
    exact ih h (hmoved.inOrder hs)

theorem Leads.source_eq (h : Leads s steps t) : t.source = s.source := by
  induction steps generalizing s with
  | nil => rw [show s = t from h]
  | cons step steps ih =>
    obtain ⟨u, hmoved, h⟩ := h
    rw [ih h, hmoved.1]

/-- Steps lead over every scanner that they come past. -/
theorem leads_append : Leads s (front ++ back) u ↔ ∃ t, Leads s front t ∧ Leads t back u := by
  induction front generalizing s with
  | nil => exact ⟨fun h => ⟨s, rfl, h⟩, fun ⟨_, hst, h⟩ => (show s = _ from hst) ▸ h⟩
  | cons step front ih =>
    constructor
    · rintro ⟨v, hmoved, h⟩
      obtain ⟨t, hfront, hback⟩ := ih.1 h
      exact ⟨t, ⟨v, hmoved, hfront⟩, hback⟩
    · rintro ⟨t, ⟨v, hmoved, hfront⟩, hback⟩
      exact ⟨v, hmoved, ih.2 ⟨t, hfront, hback⟩⟩

theorem leads_singleton : Leads s [step] t ↔ Moved s t step :=
  ⟨fun ⟨_, hmoved, h⟩ => (show _ = t from h) ▸ hmoved, fun h => ⟨t, h, rfl⟩⟩

/-- Moves that find the marks they need are all made. -/
theorem exists_leads {moves : List Move} (hs : s.InOrder)
    (h : paired s.marks.length moves = true) :
    ∃ steps t, s.moveAll moves = .ok (steps, t) ∧ Leads s steps t := by
  induction moves generalizing s with
  | nil => exact ⟨[], s, rfl, rfl⟩
  | cons m moves ih =>
    obtain ⟨step, t, hmove, hmoved, hpaired⟩ := exists_moved hs h
    obtain ⟨steps, u, hmoves, hleads⟩ := ih (hmoved.inOrder hs) hpaired
    refine ⟨step :: steps, u, ?_, t, hmoved, hleads⟩
    rw [moveAll, hmove]
    show (t.moveAll moves >>= _) = _
    rw [hmoves]
    rfl

/-! ## Steps between marks -/

/-- Steps that close every mark they set and no other, and the literals that they keep: those
that were matched, less the ones that a rewind took back. -/
inductive Closed : List Step → List String → Prop where
  | nil : Closed [] []
  | matched (literal : String) : Closed [.matched literal] [literal]
  | missed (literal : String) : Closed [.missed literal] []
  | rewound {inner : List Step} {lost : List String} (h : Closed inner lost) (p q : Nat) :
      Closed (.marked p :: (inner ++ [.rewound q])) []
  | proceeded {inner : List Step} {kept : List String} (h : Closed inner kept) (p : Nat)
      (span : Span) : Closed (.marked p :: (inner ++ [.proceeded span])) kept
  | append {front back : List Step} {kept more : List String} (h : Closed front kept)
      (hmore : Closed back more) : Closed (front ++ back) (kept ++ more)

/-- One scanner stands past the other by some literals, with the same marks. -/
structure Past (s t : Scanner) (kept : List String) : Prop where
  source : t.source = s.source
  marks : t.marks = s.marks
  position : t.position = s.position + Text.size (kept.flatMap String.toList)
  rest : s.remaining = kept.flatMap String.toList ++ t.remaining

namespace Past

variable {a b : Scanner} {kept more : List String} {p q : Nat} {span : Span}

/-- A scanner that stands where another does, with its marks, is past it by nothing. -/
theorem nil (hsource : t.source = s.source) (hmarks : t.marks = s.marks)
    (hposition : t.position = s.position) : Past s t [] where
  source := hsource
  marks := hmarks
  position := hposition
  rest := (remaining_congr hsource hposition).symm

theorem trans (h : Past s t kept) (hmore : Past t u more) : Past s u (kept ++ more) where
  source := hmore.source.trans h.source
  marks := hmore.marks.trans h.marks
  position := by
    rw [hmore.position, h.position, List.flatMap_append, Text.size_append, Nat.add_assoc]
  rest := by rw [h.rest, hmore.rest, List.flatMap_append, List.append_assoc]

/-- The newest mark is still the one that was set before. -/
theorem marks_eq (hmark : Moved s a (.marked p)) (h : Past a b kept) :
    b.marks = p :: s.marks := by
  rw [h.marks, hmark.2.1]

/-- A rewind goes back to where the mark was set, whatever was read since. -/
theorem rewound (hmark : Moved s a (.marked p)) (h : Past a b kept)
    (hclose : Moved b t (.rewound q)) : p = q ∧ Past s t [] := by
  obtain ⟨hsource, hmarks, hposition⟩ := hclose
  rw [marks_eq hmark h, List.cons.injEq] at hmarks
  obtain ⟨rfl, hmarks⟩ := hmarks
  refine ⟨rfl, .nil ?_ hmarks.symm (hposition.trans hmark.2.2.2)⟩
  rw [hsource, h.source, hmark.1]

/-- The span between the two covers the literals. -/
theorem slice? (h : Past s t kept) (hstart : span.start = s.position)
    (hstop : span.stop = t.position) :
    span.slice? s.source = some (kept.flatMap String.toList) := by
  obtain ⟨before, hchars, hsize⟩ := s.source.exists_eq_append_rest s.position_ok
  have hchars' : s.source.chars = before ++ kept.flatMap String.toList ++ t.remaining := by
    rw [List.append_assoc, ← h.rest]
    exact hchars
  refine Span.slice?_append hchars' ?_ ?_
  · rw [hstart, hsize]
  · rw [hstop, h.position, hsize]

/-- A proceed keeps what was read since the mark was set, and answers the span of it. -/
theorem proceeded (hmark : Moved s a (.marked p)) (h : Past a b kept)
    (hclose : Moved b t (.proceeded span)) :
    p = span.start ∧ span.slice? s.source = some (kept.flatMap String.toList) ∧
      Past s t kept := by
  obtain ⟨hsource, hmarks, hposition, hstop⟩ := hclose
  rw [marks_eq hmark h, List.cons.injEq] at hmarks
  obtain ⟨hsource', -, hposition', rfl⟩ := hmark
  have hpast : Past s t kept := by
    refine ⟨by rw [hsource, h.source, hsource'], hmarks.2.symm, ?_, ?_⟩
    · rw [hposition, h.position, hposition']
    · rw [← remaining_congr hsource' hposition', h.rest, remaining_congr hsource hposition]
  exact ⟨hmarks.1, hpast.slice? hmarks.1.symm (hstop.trans hposition.symm), hpast⟩

end Past

/-- Such steps leave the marks alone and move the scanner past what they keep. -/
theorem Leads.past {kept : List String} (h : Leads s steps t) (hclosed : Closed steps kept) :
    Past s t kept := by
  -- a stretch from a mark to what closes it is one case, however deep it nests
  induction hclosed generalizing s t with
  | nil =>
    obtain rfl : s = t := h
    exact .nil rfl rfl rfl
  | matched literal =>
    obtain ⟨hsource, hmarks, hposition, hrest⟩ := leads_singleton.1 h
    exact ⟨hsource, hmarks, by simpa using hposition, by simpa using hrest⟩
  | missed literal =>
    obtain ⟨hsource, hmarks, hposition⟩ := leads_singleton.1 h
    exact .nil hsource hmarks hposition
  | rewound hinner p q ih =>
    obtain ⟨a, hmark, h⟩ := h
    obtain ⟨b, hinner, hclose⟩ := leads_append.1 h
    exact (Past.rewound hmark (ih hinner) (leads_singleton.1 hclose)).2
  | proceeded hinner p span ih =>
    obtain ⟨a, hmark, h⟩ := h
    obtain ⟨b, hinner, hclose⟩ := leads_append.1 h
    exact (Past.proceeded hmark (ih hinner) (leads_singleton.1 hclose)).2.2
  | append hfront hback ih ihmore =>
    obtain ⟨u, hfront, hback⟩ := leads_append.1 h
    exact (ih hfront).trans (ihmore hback)

/-! ## What a closed mark answers -/

/-- The steps leave marks open at the positions, newest first. -/
inductive Unclosed : List Step → List Nat → Prop where
  | none {steps : List Step} {kept : List String} (h : Closed steps kept) : Unclosed steps []
  | marked {before inner : List Step} {positions : List Nat}
      {kept : List String} (h : Unclosed before positions) (p : Nat) (hinner : Closed inner kept) :
      Unclosed (before ++ .marked p :: inner) (p :: positions)

theorem Unclosed.append {positions : List Nat} {kept : List String}
    (h : Unclosed front positions) (hback : Closed back kept) :
    Unclosed (front ++ back) positions := by
  cases h with
  | none h => exact .none (h.append hback)
  | marked h p hinner =>
    rw [List.append_assoc, List.cons_append]
    exact .marked h p (hinner.append hback)

/-- A step opens and closes the marks of the scanner. -/
theorem Unclosed.moved (h : Unclosed front s.marks) (hmoved : Moved s t step) :
    Unclosed (front ++ [step]) t.marks := by
  obtain ⟨-, hmoved⟩ := hmoved
  cases step with
  | matched literal =>
    rw [hmoved.1]
    exact h.append (.matched literal)
  | missed literal =>
    rw [hmoved.1]
    exact h.append (.missed literal)
  | marked p =>
    rw [hmoved.1]
    exact .marked h p .nil
  | rewound q =>
    -- the stretch since the newest mark is closed now, and joins the steps before the mark
    rw [hmoved.1] at h
    cases h with
    | marked h p hinner =>
      rw [List.append_assoc]
      exact h.append (.rewound hinner q q)
  | proceeded span =>
    rw [hmoved.1] at h
    cases h with
    | marked h p hinner =>
      rw [List.append_assoc]
      exact h.append (.proceeded hinner _ span)

/-- A run from a scanner without marks leaves open what the scanner after it says. -/
theorem Leads.unclosed (hs : s.marks = []) (h : Leads s steps t) : Unclosed steps t.marks := by
  induction steps using List.reverseRecOn generalizing t with
  | nil =>
    obtain rfl : s = t := h
    rw [hs]
    exact .none .nil
  | append_singleton steps step ih =>
    obtain ⟨u, hsteps, hstep⟩ := leads_append.1 h
    exact (ih hsteps).moved (leads_singleton.1 hstep)

/-- The steps end with a mark set at the position and steps since that close the marks they set
and keep the literals. -/
def MarkedSince (steps : List Step) (position : Nat) (kept : List String) : Prop :=
  ∃ before inner, steps = before ++ .marked position :: inner ∧ Closed inner kept

/-- What a step that closes a mark has to answer after the steps before it: there is a mark that
it closes, a rewind ends at the position of the mark, and the span of a proceed covers the
literals kept since. -/
def Step.Answers (source : Source) (before : List Step) : Step → Prop
  | .rewound position =>
    (∃ kept, MarkedSince before position kept) ∧
      ∀ p kept, MarkedSince before p kept → position = p
  | .proceeded span =>
    (∃ kept, MarkedSince before span.start kept) ∧
      ∀ p kept, MarkedSince before p kept →
        span.start = p ∧ span.slice? source = some (kept.flatMap String.toList)
  | .matched _ | .missed _ | .marked _ => True

theorem Unclosed.markedSince {p : Nat} {positions : List Nat}
    (h : Unclosed steps (p :: positions)) : ∃ kept, MarkedSince steps p kept := by
  cases h with
  | marked _ _ hinner => exact ⟨_, _, _, rfl, hinner⟩

/-- Every step of a run from a scanner without marks answers as it has to. -/
theorem Leads.answers (hs : s.marks = []) (h : Leads s (front ++ step :: back) t) :
    step.Answers s.source front := by
  obtain ⟨b, hfront, a, hmoved, -⟩ := leads_append.1 h
  have hopen := hfront.unclosed hs
  cases step with
  | matched literal | missed literal | marked p => trivial
  | rewound q =>
    refine ⟨(hmoved.2.1 ▸ hopen).markedSince, ?_⟩
    -- whatever mark the steps single out, the run came past the setting of it
    rintro p kept ⟨before, inner, rfl, hinner⟩
    obtain ⟨v, hbefore, w, hmark, hw⟩ := leads_append.1 hfront
    exact (Past.rewound hmark (hw.past hinner) hmoved).1.symm
  | proceeded span =>
    refine ⟨(hmoved.2.1 ▸ hopen).markedSince, ?_⟩
    rintro p kept ⟨before, inner, rfl, hinner⟩
    obtain ⟨v, hbefore, w, hmark, hw⟩ := leads_append.1 hfront
    obtain ⟨hstart, hslice, -⟩ := Past.proceeded hmark (hw.past hinner) hmoved
    rw [hbefore.source_eq] at hslice
    exact ⟨hstart.symm, hslice⟩

/-- Moves on a fresh scanner of a text that four bytes can address: where each rewind and each
proceed finds a mark, all moves are made and no promise is broken. The position and the open
marks are boundaries of the source, the marks are in order from the oldest to the newest and
none is past the position. Each rewind ends where the mark that it closes was set, and each
proceed answers a span of exactly the literals kept since its mark. -/
theorem moveAll_paired {text : String} {moves : List Move}
    (hsize : Text.size text.toList < UInt32.size) (hpaired : paired 0 moves = true) :
    ∃ steps s, (ofString text).moveAll moves = .ok (steps, s) ∧
      (∀ p ∈ s.position :: s.marks,
        (Source.ofString text).IsBoundary p ∧ p ≤ Text.size text.toList) ∧
      s.marks.reverse.Pairwise (· ≤ ·) ∧ (∀ m ∈ s.marks, m ≤ s.position) ∧
      s.position < UInt32.size ∧
      ∀ front step back, steps = front ++ step :: back →
        step.Answers (.ofString text) front := by
  have hfresh : (ofString text).InOrder := List.pairwise_singleton _ _
  obtain ⟨steps, s, hmoves, hleads⟩ := exists_leads hfresh hpaired
  have hsource : s.source = .ofString text := hleads.source_eq
  have hbounds : ∀ p ∈ s.position :: s.marks,
      (Source.ofString text).IsBoundary p ∧ p ≤ Text.size text.toList := by
    intro p hp
    have hboundary : s.source.IsBoundary p := by
      rcases List.mem_cons.1 hp with rfl | hp
      · exact s.position_ok
      · exact s.marks_ok p hp
    rw [hsource] at hboundary
    exact ⟨hboundary, by simpa [Source.ofString] using hboundary.le_size⟩
  obtain ⟨hle, hmarks⟩ := List.pairwise_cons.1 (hleads.inOrder hfresh)
  refine ⟨steps, s, hmoves, hbounds, List.pairwise_reverse.2 hmarks, hle, ?_, ?_⟩
  · exact Nat.lt_of_le_of_lt (hbounds _ List.mem_cons_self).2 hsize
  · rintro front step back rfl
    show step.Answers (ofString text).source front
    exact hleads.answers rfl

/-- A stretch is taken back and read once more, inside of another that is kept. -/
def retry : List Move :=
  [.scan "a", .mark, .scan "é", .mark, .scan "b", .rewind, .mark, .scan "b", .proceed,
    .scan "c", .proceed, .mark]

theorem moveAll_paired_retry :
    Text.size "aéb".toList < UInt32.size ∧ paired 0 retry = true ∧
    ∃ steps s, (ofString "aéb").moveAll retry = .ok (steps, s) ∧
      steps = [.matched "a", .marked 1, .matched "é", .marked 3, .matched "b", .rewound 3,
        .marked 3, .matched "b", .proceeded ⟨3, 4⟩, .missed "c", .proceeded ⟨1, 4⟩, .marked 4] ∧
      s.marks = [4] ∧
      ∀ front step back, steps = front ++ step :: back →
        step.Answers (.ofString "aéb") front := by
  have hsize : Text.size "aéb".toList < UInt32.size := by decide
  have hpaired : paired 0 retry = true := by decide
  obtain ⟨steps, s, hmoves, -, -, -, -, hanswers⟩ := moveAll_paired hsize hpaired
  have hrun : ((ofString "aéb").moveAll retry).map (fun r => (r.1, r.2.marks)) =
      .ok ([.matched "a", .marked 1, .matched "é", .marked 3, .matched "b", .rewound 3,
        .marked 3, .matched "b", .proceeded ⟨3, 4⟩, .missed "c", .proceeded ⟨1, 4⟩, .marked 4],
        [4]) := by decide +kernel
  rw [hmoves, Except.map] at hrun
  obtain ⟨hsteps, hmarks⟩ := Prod.mk.inj (Except.ok.inj hrun)
  exact ⟨hsize, hpaired, steps, s, hmoves, hsteps, hmarks, hanswers⟩

end Lexigraph.Scanner
