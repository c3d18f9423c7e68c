/-
# Lexigraph.Proofs.Grammar.Faults -- where texts are faulty

A text that is no grammar is refused with an error that has an offset in it, and there is what the
error says (`read_faulty`). All but one kind of error point at the lexeme itself. The offset of a
string without an end is that from which the string was looked for, and in the message of an
annotation blanks may stand between that place and the quote (`read_faulty_blanks`).

Reading is total, keeps to the characters of the text, and where there is more than a grammar the
offset of the error separates the grammar from what does not go on with it (`ofText_total`).
-/

import Lexigraph.Proofs.Grammar.Append
import Lexigraph.Proofs.Grammar.Derivation
import Lexigraph.Proofs.Pattern.CutOff

namespace Lexigraph

/-! ## Errors with an offset -/

/-- The error of a result, if it is one. -/
def error? {ε α : Type} : Except ε α → Option ε
  | .error e => some e
  | .ok _ => none

theorem eq_error_of_error? {ε α : Type} {result : Except ε α} {e : ε} (h : error? result = some e) :
    result = .error e := by
  cases result with
  | error e' => rw [Option.some.inj h]
  | ok a => cases h

/-- The offset of a read error. An error of the grammar has none. -/
def ReadError.offset? : ReadError → Option Nat
  | .expected _ offset => some offset
  | .unknownFlag _ offset => some offset
  | .invalidCount offset => some offset
  | .unterminatedString offset => some offset
  | .invalidEscape offset => some offset
  | .missingToken offset => some offset
  | .trailingInput offset => some offset
  | .grammar _ => none

/-- Where there is a fault, a cursor of the text stands. -/
theorem Faulty.stands {text : List Char} {e : ReadError} {n : Nat} (h : Faulty text e)
    (hn : e.offset? = some n) : ∃ c : Cursor, c.Stands text ∧ c.offset = n := by
  cases h with
  | trailingInput here => exact ⟨_, here.stands, Option.some.inj hn⟩
  | flawed h =>
    cases h with
    | expected here => exact ⟨_, here, Option.some.inj hn⟩
    | unknownFlag here => exact ⟨_, here.stands, Option.some.inj hn⟩
    | invalidCount here => exact ⟨_, here.stands, Option.some.inj hn⟩
    | unterminatedString here => exact ⟨_, here.stands, Option.some.inj hn⟩
    | @invalidEscape ls o gs rest here =>
      have hahead : Cursor.Ahead ⟨'"' :: (gs.flatMap Phrase.Glyph.text ++ '\\' :: rest), o⟩
          ⟨'\\' :: rest, o + Text.size ('"' :: gs.flatMap Phrase.Glyph.text)⟩ :=
        ⟨'"' :: gs.flatMap Phrase.Glyph.text, rfl, rfl⟩
      exact ⟨_, here.stands.trans hahead, Option.some.inj hn⟩
    | missingToken here => exact ⟨_, here.stands, Option.some.inj hn⟩
    | grammar e => cases hn

namespace Grammar

/-- A grammar is the pattern of its text, planted; an error is the one that the pattern is not read
for. -/
theorem ofText_eq (text : String) :
    ofText text = ((Pattern.ofText text.toList).map ofPattern).mapError Misread.error := by
  cases hpattern : Pattern.ofText text.toList with
  | ok p => exact ofText_eq_ok_iff.2 ⟨p, hpattern, rfl⟩
  | error misread => exact ofText_of_misread hpattern

theorem ofText_eq_error_iff {text : String} {e : ReadError} :
    ofText text = .error e ↔ ∃ m, Pattern.ofText text.toList = .error m ∧ m.error = e := by
  rw [ofText_eq]
  cases Pattern.ofText text.toList with
  | ok p => exact ⟨nofun, fun ⟨_, hm, _⟩ => nomatch hm⟩
  | error misread =>
    constructor
    · exact fun h => ⟨misread, rfl, Except.error.inj h⟩
    · rintro ⟨_, ⟨⟩, rfl⟩
      rfl

/-- Where there is more than a grammar, the text up to there is one, and no more of it is. -/
theorem ofText_of_trailing {text : String} {n : Nat}
    (h : ofText text = .error (.trailingInput n)) :
    ∃ front d rest, text.toList = front ++ d :: rest ∧ Text.size front = n ∧
      Text.isBlank d = false ∧ (∃ g, ofText (String.ofList front) = .ok g) ∧
        ∀ further : String, further.toList <+: text.toList → n < Text.size further.toList →
          ofText further = .error (.trailingInput n) := by
  obtain ⟨m, hm, herror⟩ := ofText_eq_error_iff.1 h
  have hfaulty := Pattern.faulty_of_ofText hm
  rw [herror] at hfaulty
  cases hfaulty with
  | flawed h => cases h
  | @trailingInput p c d rest here hrest hd =>
    obtain ⟨front, htext, hoffset⟩ := here.stands
    have htext : text.toList = front ++ d :: rest := hrest ▸ htext
    have hlexes := here.lexes
    rw [htext, hrest] at hlexes
    have hdocument := Phrase.mem_documents_of_trailing hd hlexes
    refine ⟨front, d, rest, htext, (hoffset.trans (Nat.zero_add _)).symm, hd, ?_, ?_⟩
    · refine (ofText_derivation _).1.2 ⟨p, ?_⟩
      rwa [String.toList_ofList]
    · intro further hfurther hn
      have hsame := Pattern.ofText_of_further hm herror hfurther hn
      exact ofText_eq_error_iff.2 ⟨m, hsame, herror⟩

/-- **Reading is total, and keeps to the characters of the text.** There is one family of readers
that call each other without a bound, and what a text denotes is what they find in it. The cursor
that they pass on stands in the text at all times, and so does every offset that an error tells. If
the error is that there is more than a grammar, its offset separates a grammar from what does not go
on with it: up to there the text is read, and with anything more of it the error is the same. -/
theorem ofText_total (text : String) :
    (∃! r : Readers, r.turn = r) ∧
    (∀ r : Readers, r.turn = r →
      ofText text = ((r.ofText text.toList).map ofPattern).mapError Misread.error ∧
      ∀ c, Relation.ReflTransGen r.Moves (.ofText text.toList) c →
        Text.after? text.toList c.offset = some c.rest) ∧
    (∀ e n, ofText text = .error e → e.offset? = some n →
      n ≤ Text.size text.toList ∧ ∃ front, Text.before? text.toList n = some front) ∧
    ∀ n, ofText text = .error (.trailingInput n) →
      ∃ front d rest, text.toList = front ++ d :: rest ∧ Text.size front = n ∧
        Text.isBlank d = false ∧ (∃ g, ofText (String.ofList front) = .ok g) ∧
          ∀ further : String, further.toList <+: text.toList → n < Text.size further.toList →
            ofText further = .error (.trailingInput n) := by
  refine ⟨Readers.existsUnique_turn, fun r hr => ⟨?_, fun c hc => ?_⟩, fun e n h hn => ?_,
    fun n h => ofText_of_trailing h⟩
  · rw [Readers.ofText_eq hr]
    exact ofText_eq text
  · exact Cursor.stands_iff.1 (Readers.stands_of_moves hr hc)
  · obtain ⟨m, hm, rfl⟩ := ofText_eq_error_iff.1 h
    obtain ⟨c, ⟨front, htext, hoffset⟩, rfl⟩ := (Pattern.faulty_of_ofText hm).stands hn
    have hsize : Text.size front = c.offset := (hoffset.trans (Nat.zero_add _)).symm
    have htext : text.toList = front ++ c.rest := htext
    refine ⟨?_, front, Text.before?_eq_some_iff.2 ⟨⟨_, htext⟩, hsize⟩⟩
    rw [htext, Text.size_append, hsize]
    exact Nat.le_add_right _ _

theorem ofText_total_oneMore :
    ofText "() x" = .error (.trailingInput 3) ∧
      ∃ front g, Text.size front = 3 ∧ ofText (String.ofList front) = .ok g := by
  have hpattern : (error? (Pattern.ofText "() x".toList)).map Misread.error =
      some (.trailingInput 3) := by decide +kernel
  obtain ⟨m, hm, herror⟩ := Option.map_eq_some_iff.1 hpattern
  have h := ofText_eq_error_iff.2 ⟨m, eq_error_of_error? hm, herror⟩
  obtain ⟨front, _, _, _, hsize, _, ⟨g, hg⟩, _⟩ := (ofText_total "() x").2.2.2 3 h
  exact ⟨h, front, g, hsize, hg⟩

end Grammar

end Lexigraph
