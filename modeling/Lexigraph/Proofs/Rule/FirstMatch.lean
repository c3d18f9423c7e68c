/-
# Lexigraph.Proofs.Rule.FirstMatch -- the first literal that matches wins

A rule tries its literals in order, and the first that the text goes on with is the match.
`Searched` says what such a search comes to and how many literals it compares: those up to the
match, or all of them if there is none. Where nothing is known of a rule at a position,
evaluation searches, leaves the scanner behind the match, and enters the result and nothing else
into the memo; from then on it takes the result over from there (`evaluate_firstMatch`). At the end of
the source it neither searches nor asks.
-/

import Lexigraph.Proofs.Session.Memo

namespace Lexigraph

/-- What a search among some literals comes to where `rest` is left, and how many of them it
compares. -/
inductive Searched (literals : List String) (rest : List Char) (position : Nat) :
    MatchResult → Nat → Prop where
  /-- The literal at index `i` matches and none before it does. -/
  | found {i : Nat} {literal : String} (atIndex : literals[i]? = some literal)
      (matched : literal.toList <+: rest)
      (least : ∀ j < i, ∀ earlier, literals[j]? = some earlier → ¬ earlier.toList <+: rest) :
      Searched literals rest position
        (.success ⟨position, position + Text.size literal.toList⟩) (i + 1)
  /-- No literal matches. -/
  | missed (unmatched : ∀ literal ∈ literals, ¬ literal.toList <+: rest) :
      Searched literals rest position (.failure position) literals.length

/-- A search comes to one thing only. -/
theorem Searched.unique {literals : List String} {rest : List Char} {position : Nat}
    {result result' : MatchResult} {compared compared' : Nat}
    (h : Searched literals rest position result compared)
    (h' : Searched literals rest position result' compared') :
    result = result' ∧ compared = compared' := by
  cases h with
  | @found i literal hi hmatched hleast =>
    cases h' with
    | @found j literal' hj hmatched' hleast' =>
      -- neither of the two indices is below the other
      obtain hlt | rfl | hlt := Nat.lt_trichotomy i j
      · exact absurd hmatched (hleast' i hlt literal hi)
      · obtain rfl := Option.some.inj (hi.symm.trans hj)
        exact ⟨rfl, rfl⟩
      · exact absurd hmatched' (hleast j hlt literal' hj)
    | missed hnone => exact absurd hmatched (hnone literal (List.mem_of_getElem? hi))
  | missed hnone =>
    cases h' with
    | found hi hmatched => exact absurd hmatched (hnone _ (List.mem_of_getElem? hi))
    | missed => exact ⟨rfl, rfl⟩

namespace Rule

/-- The outcome of a rule is what a search among its literals comes to. -/
theorem outcome_searched (r : Rule) (rest : List Char) (position : Nat) :
    Searched r.choices.toList rest position (r.outcome rest position)
      (Scanner.effort rest r.choices.toList) := by
  unfold outcome Scanner.effort
  cases hfind : r.choices.toList.find? (Scanner.startsWith rest) with
  | none =>
    have hnone : ∀ literal ∈ r.choices.toList, ¬ literal.toList <+: rest := fun literal hl => by
      simpa [Scanner.startsWith] using List.find?_eq_none.1 hfind literal hl
    have hlast : r.choices.toList.findIdx (Scanner.startsWith rest) = r.choices.toList.length := by
      refine List.findIdx_eq_length.2 fun literal hl => ?_
      simpa [Scanner.startsWith] using hnone literal hl
    rw [hlast, Nat.min_eq_right (Nat.le_succ _)]
    exact .missed hnone
  | some literal =>
    obtain ⟨hmatch, i, hi, rfl, hleast⟩ := List.find?_eq_some_iff_getElem.1 hfind
    have hfirst : r.choices.toList.findIdx (Scanner.startsWith rest) = i :=
      (List.findIdx_eq hi).2 ⟨hmatch, fun j hj => by simpa using hleast j hj⟩
    rw [hfirst, Nat.min_eq_left hi]
    refine .found (List.getElem?_eq_getElem hi) (by simpa [Scanner.startsWith] using hmatch) ?_
    intro j hj earlier hearlier
    obtain ⟨hlt, rfl⟩ := List.getElem?_eq_some_iff.1 hearlier
    simpa [Scanner.startsWith] using hleast j hj

/-- **The first match wins, and is remembered.** Where a memo knows nothing of a rule at the
scanner's position:

* At the end of the source, evaluation reports the end and the memo stays as it is. In a session
  everything does, and the scanner with it.
* Before it, evaluation searches the literals. It answers what the search comes to, with the
  scanner behind the match or where it was, after as many comparisons as the search takes, and
  with the same marks open. That result is entered for the rule at the position, and nothing else.
* Evaluating again, whatever was done to the position in between, answers the same result with
  the scanner at the same end, and compares nothing. -/
theorem evaluate_firstMatch (r : Rule) (id : RuleId) (scanner : Scanner) (table : ResultTable)
    (hfresh : table.get? id scanner.position = none) :
    (scanner.atEnd = true →
      r.evaluate id scanner (.on table) =
        (.error (.error (.unexpectedEnd scanner.position)), .on table) ∧
      ∀ s : Session, s.scanner = scanner →
        Session.evaluate r id s = (.error (.error (.unexpectedEnd scanner.position)), s)) ∧
    (scanner.atEnd = false → ∃ result compared scanner' memo',
      Searched r.choices.toList scanner.remaining scanner.position result compared ∧
      r.evaluate id scanner (.on table) = (.ok (result, scanner'), memo') ∧
      scanner'.source = scanner.source ∧ scanner'.position = result.stop ∧
      scanner'.marks = scanner.marks ∧
      scanner'.comparisons = scanner.comparisons + compared ∧
      (∀ id' position', memo'.get? id' position' =
        if (id', position') = (id, scanner.position) then some result
        else table.get? id' position') ∧
      ∀ again : Scanner, again.source = scanner.source → again.position = scanner.position →
        ∃ again' memo'', r.evaluate id again memo' = (.ok (result, again'), memo'') ∧
          again'.source = again.source ∧ again'.position = scanner'.position ∧
          again'.marks = again.marks ∧ again'.comparisons = again.comparisons ∧
          ∀ id' position', memo''.get? id' position' = memo'.get? id' position') := by
  refine ⟨fun hend => ⟨evaluate_atEnd r id _ hend, ?_⟩, fun hend => ?_⟩
  · rintro s rfl
    exact Session.evaluate_atEnd hend
  have hunknown : (Memo.on table).get? id scanner.position = none := hfresh
  obtain ⟨scanner', memo', heval, hentries, hleaves⟩ := evaluate_unknown (r := r) hend hunknown
  refine ⟨_, _, scanner', memo', r.outcome_searched _ _, heval, hleaves.source, hleaves.position,
    hleaves.marks, hleaves.comparisons, fun id' position' => ?_, ?_⟩
  · have hentry := hentries id' position'
    simp only [Memo.table?, Option.isSome_some, true_and] at hentry
    exact hentry
  intro again hsource hposition
  -- the same text is left, so what was recorded is the outcome there too
  have hrest : again.remaining = scanner.remaining := by
    apply Option.some.inj
    rw [← again.remaining_eq, ← scanner.remaining_eq, hsource, hposition]
  have hend' : again.atEnd = false := by
    rw [← hend]
    unfold Scanner.atEnd
    rw [hsource, hposition]
  have hknown : memo'.get? id again.position =
      some (r.outcome again.remaining again.position) := by
    rw [hentries, hposition, hrest]
    exact if_pos ⟨rfl, rfl⟩
  obtain ⟨again', memo'', heval', hkeep, hleaves'⟩ := evaluate_known hend' hknown
  have hstop := hleaves'.position
  rw [hrest, hposition] at heval' hstop
  exact ⟨again', memo'', heval', hleaves'.source, hstop.trans hleaves.position.symm,
    hleaves'.marks, hleaves'.comparisons, hkeep⟩

/-- Some literals of which one begins another. -/
def vowels : Rule := { token := ⟨0⟩, choices := { first := "b", others := ["é", "éa"] } }

/-- The second literal wins over the longer third one, after two comparisons. -/
theorem evaluate_firstMatch_vowels :
    ∃ scanner' memo', vowels.evaluate ⟨0⟩ (.ofString "éab") (.on {}) =
        (.ok (.success ⟨0, 2⟩, scanner'), memo') ∧
      scanner'.position = 2 ∧ scanner'.comparisons = 2 ∧
      memo'.get? ⟨0⟩ 0 = some (.success ⟨0, 2⟩) := by
  have hfresh : ({} : ResultTable).get? ⟨0⟩ (Scanner.ofString "éab").position = none := by
    simp [ResultTable.get?]
  have hfirst := evaluate_firstMatch vowels ⟨0⟩ (.ofString "éab") {} hfresh
  obtain ⟨result, compared, scanner', memo', hsearched, heval, -, hposition, -, hcompared, hentries,
    -⟩ := hfirst.2 (by decide)
  have hsecond : Searched vowels.choices.toList "éab".toList 0 (.success ⟨0, 2⟩) 2 := by
    have hindex : vowels.choices.toList[1]? = some "é" := rfl
    exact .found hindex (by decide) (by decide)
  obtain ⟨rfl, rfl⟩ := hsecond.unique hsearched
  refine ⟨scanner', memo', heval, hposition, hcompared, ?_⟩
  rw [hentries]
  rfl

end Rule

end Lexigraph
