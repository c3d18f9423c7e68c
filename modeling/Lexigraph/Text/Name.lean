/-
# Lexigraph.Text.Name -- names in grammar text

A name is written bare when it looks like an identifier and quoted otherwise. Reading is
more generous than writing: a run of name characters is taken as a bare name even when
it starts with a digit.
-/

import Lexigraph.Text.Quoted

namespace Lexigraph.Text

/-- The characters of a bare name: ASCII letters, ASCII digits and the underscore. -/
def isNameChar (c : Char) : Bool :=
  c.isAlphanum || c = '_'

theorem isNameChar_of_isDigit {c : Char} (h : c.isDigit = true) : isNameChar c = true := by
  unfold isNameChar Char.isAlphanum
  rw [h, Bool.or_true, Bool.true_or]

/-- Is `cs` written without quotes? It has to start with a letter or an underscore. -/
def isBareName : List Char → Bool
  | [] => false
  | c :: cs => (c.isAlpha || c = '_') && cs.all isNameChar

/-- A name as it is written. -/
def name (cs : List Char) : List Char :=
  if isBareName cs then cs else quoted cs

/-- A bare name is a run of name characters and not empty. -/
theorem all_isNameChar_of_isBareName {cs : List Char} (h : isBareName cs) :
    cs.all isNameChar ∧ cs ≠ [] := by
  cases cs with
  | nil => simp [isBareName] at h
  | cons c cs =>
    simp only [isBareName, Bool.and_eq_true, Bool.or_eq_true, decide_eq_true_eq] at h
    refine ⟨?_, by simp⟩
    simp only [List.all_cons, Bool.and_eq_true]
    refine ⟨?_, h.2⟩
    simp only [isNameChar, Char.isAlphanum, Bool.or_eq_true, decide_eq_true_eq]
    rcases h.1 with h | h
    · exact .inl (.inl h)
    · exact .inr h

end Lexigraph.Text
