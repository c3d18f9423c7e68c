/-
# Lexigraph.Proofs.Grammar.Canonical -- one written text for each grammar that is read

A text may space and escape what it says in many ways. The grammar of the text is its pattern,
planted where nothing was before (`ofText_eq_ok_iff`), so it does not remember the way. What
is written of its root is the text of that pattern, whose flags all have names. Reading this
text plants the pattern once more, at the same place: the grammar comes back as it was, number
by number (`ofText_canonical`).
-/

import Lexigraph.Proofs.Grammar.RoundTrip
import Lexigraph.Proofs.Pattern.Derived

namespace Lexigraph.Grammar

variable {g : Grammar} {text : String}

/-- The grammar of a pattern, which starts from the state of the pattern. -/
def ofPattern (p : Pattern) : Grammar :=
  { (p.plant empty).2 with root := some (p.plant empty).1 }

/-- The state of the pattern depicts it. -/
theorem ofPattern_depicts (p : Pattern) : (ofPattern p).Depicts (p.plant empty).1 p :=
  (plant_depicts p empty).withRoot _

/-- The grammar of a text is the grammar of the pattern that the text denotes. -/
theorem ofText_eq_ok_iff :
    ofText text = .ok g ↔ ∃ p, Pattern.ofText text.toList = .ok p ∧ ofPattern p = g := by
  unfold ofText
  cases hpattern : Pattern.ofText text.toList with
  | ok p =>
    rw [read_of_ofText hpattern]
    show Except.ok (ofPattern p) = .ok g ↔ _
    simp
  | error misread =>
    rw [read_of_misread hpattern]
    simp

/-- **Written text is canonical.** What is read from a text can be written; and what is written
reads back as the same grammar: the same tokens, rules and states under the same numbers, and the
same root. -/
theorem ofText_canonical (h : ofText text = .ok g) :
    ∃ root written, g.root = some root ∧ g.textOf root = .ok written ∧
      ofText written = .ok g := by
  obtain ⟨p, hp, rfl⟩ := ofText_eq_ok_iff.1 h
  have hwritten : (ofPattern p).textOf (p.plant empty).1 = .ok (String.ofList p.text) :=
    (ofPattern_depicts p).textOf
  refine ⟨_, _, rfl, hwritten, ?_⟩
  apply ofText_eq_ok_iff.2
  refine ⟨p, ?_, rfl⟩
  rw [String.toList_ofList, Pattern.ofText_text (Pattern.ofText_ordered hp)]
  obtain ⟨t, -, rfl⟩ := Pattern.derives_of_ofText hp
  exact congrArg Except.ok t.named_pattern

/-- A text with more blanks and escapes than it needs. -/
def spacedText : String :=
  " @void\t(  \"a\"|\"\\u\x7b62\x7d\" ) ->\n\"word\" . \x7b ( ( \"c\" )->word ,2, 003 ) , ( ) \x7d "

theorem ofText_canonical_spacedText :
    ∃ g, ofText spacedText = .ok g ∧ ∃ root written, g.root = some root ∧
      g.textOf root = .ok written ∧ ofText written = .ok g := by
  have hok : (ofText spacedText).isOk = true := by decide +kernel
  match htext : ofText spacedText with
  | .ok g =>
    refine ⟨g, rfl, ?_⟩
    exact ofText_canonical htext
  | .error e =>
    rw [htext] at hok
    cases hok

end Lexigraph.Grammar
