/-
# Lexigraph.Proofs.Pattern.Inverse -- writing is undone by reading

A string, a name and annotations are read as what was written, and the reader stops exactly
where the written text ends. What follows a string does not matter, since it ends at its own
closing quote. A bare name needs something behind it that does not go on with it. Annotations
are read as far as they go, so they are followed by the parenthesis that opens a pattern.
-/

import Lexigraph.Proofs.Pattern.Forward
import Lexigraph.Proofs.Pattern.RoundTrip
import Lexigraph.Proofs.Token.Numbering

namespace Lexigraph

open Phrase
open Text (pastBlanks)

section Takes

variable {ε α β : Type} {r : StateT Cursor (Except ε) α} {f : α → StateT Cursor (Except ε) β}
  {passed rest : List Char} {a : α} {c c' : Cursor}

/-- A chain does the same from two cursors if its first link does. -/
theorem bind_eq_of_eq (h : r c = r c') : (r >>= f) c = (r >>= f) c' := by
  show (r c >>= fun p => f p.1 p.2 : Except ε (β × Cursor)) = _
  rw [h]
  rfl

/-- A reader that goes forward has passed exactly what is there no more. -/
theorem Takes.eq_ok (h : Takes r (passed ++ rest) a rest) (hr : Forward r) (o : Nat) :
    r ⟨passed ++ rest, o⟩ = .ok (a, ⟨rest, o + Text.size passed⟩) := by
  obtain ⟨o', hok⟩ := h o
  obtain ⟨passed', hpassed, hoffset⟩ := hr.ahead hok
  obtain rfl : passed = passed' := List.append_cancel_right hpassed
  rw [hok, show o' = o + Text.size passed from hoffset]

end Takes

namespace Reader

variable {rest : List Char}

/-- A written string is read, whatever follows. -/
theorem quoted_takes (s : String) (rest : List Char) :
    Takes quoted (Text.quoted s.toList ++ rest) s rest := by
  obtain ⟨q, htext, rfl⟩ := Text.exists_quotation s
  rw [← htext]
  exact q.takes ((Lexeme.quotation q).pastBlanks_text rest)

/-- A written name is read behind an arrow, if what follows does not go on with it. -/
theorem token?_takes (name : String) (hrest : ∀ c ∈ rest.head?, Text.isNameChar c = false) :
    Takes token? ('-' :: '>' :: (Text.name name.toList ++ rest)) (some name) rest := by
  obtain ⟨n, htext, rfl⟩ := Text.exists_naming name
  rw [← htext]
  exact n.takes (n.lexeme.pastBlanks_text rest) (fun _ => hrest) (Text.pastBlanks_cons (by decide) _)

/-- A blank in front is skipped. -/
theorem skipBlank_blank {c : Char} (hc : Text.isBlank c = true) (text : List Char) (o : Nat) :
    skipBlank ⟨c :: text, o⟩ = skipBlank ⟨text, o + c.utf8Size⟩ := by
  show Except.ok ((), Cursor.mk ((c :: text).dropWhile Text.isBlank)
      (o + Text.size ((c :: text).takeWhile Text.isBlank))) =
    Except.ok ((), Cursor.mk (text.dropWhile Text.isBlank)
      (o + c.utf8Size + Text.size (text.takeWhile Text.isBlank)))
  rw [List.dropWhile_cons_of_pos hc, List.takeWhile_cons_of_pos hc, Text.size_cons, Nat.add_assoc]

theorem annotations_takes_blank {fuel : Nat} {found a : Annotations} {c : Char}
    {text : List Char} (hc : Text.isBlank c = true)
    (h : Takes (annotations fuel found) text a rest) :
    Takes (annotations fuel found) (c :: text) a rest := by
  intro o
  obtain ⟨o', hok⟩ := h (o + c.utf8Size)
  unfold annotations at hok ⊢
  exact ⟨o', (bind_eq_of_eq (skipBlank_blank hc text o)).trans hok⟩

/-- Written flags are read one after the other. -/
theorem annotations_takes_flags (flags : List Flag) {fuel : Nat} {found a : Annotations}
    {text : List Char}
    (hfuel : (flags.flatMap (fun f => '@' :: f.name.toList ++ [' ']) ++ text).length ≤ fuel)
    (h : ∀ fuel, text.length ≤ fuel →
      Takes (annotations fuel (flags.foldl Annotations.withFlag found)) text a rest) :
    Takes (annotations fuel found)
      (flags.flatMap (fun f => '@' :: f.name.toList ++ [' ']) ++ text) a rest := by
  induction flags generalizing fuel found with
  | nil => exact h fuel hfuel
  | cons f flags ih =>
    rw [List.flatMap_cons, List.append_assoc, List.append_assoc] at hfuel ⊢
    obtain ⟨fuel, rfl⟩ : ∃ n, fuel = n + 1 := Nat.exists_eq_succ_of_ne_zero (by
      rw [List.cons_append, List.length_cons] at hfuel
      omega)
    refine annotations_flag (Text.pastBlanks_cons (by decide) _)
      (Text.isNameChar_head (by decide) _) (annotations_takes_blank (by decide) (ih ?_ h))
    simp only [List.cons_append, List.length_cons, List.length_append] at hfuel ⊢
    omega

/-- Where no annotation follows, those found so far are all there are. -/
theorem annotations_takes_openParen (fuel : Nat) (found : Annotations) (rest : List Char) :
    Takes (annotations fuel found) ('(' :: rest) found ('(' :: rest) := by
  have hparen : pastBlanks ('(' :: rest) = '(' :: rest := Text.pastBlanks_cons (by decide) rest
  have hend := annotations_end fuel found (by rw [hparen]; simp)
  rwa [hparen] at hend

/-- A written message is read, and ends the annotations where a pattern opens behind it. -/
theorem annotations_takes_message (fuel : Nat) (found : Annotations) (message : String)
    (rest : List Char) :
    Takes (annotations (fuel + 1) found)
      ("@error(".toList ++ Text.quoted message.toList ++ [')'] ++ [' '] ++ '(' :: rest)
      (found.withError message) ('(' :: rest) := by
  rw [List.append_assoc, List.append_assoc, List.append_assoc]
  exact annotations_error (Text.pastBlanks_cons (by decide) _)
    (Text.isNameChar_head (c := '(') (by decide) _) (Text.pastBlanks_cons (by decide) _)
    (quoted_takes message _) (Text.pastBlanks_cons (by decide) _)
    (annotations_takes_blank (c := ' ') (by decide) (annotations_takes_openParen fuel _ rest))

/-- Written members are read up to the parenthesis behind them. -/
theorem annotations_takes_members (a : Annotations) {fuel : Nat}
    (hfuel : (a.members.flatMap (· ++ [' ']) ++ '(' :: rest).length ≤ fuel) :
    Takes (annotations fuel {}) (a.members.flatMap (· ++ [' ']) ++ '(' :: rest) a.named
      ('(' :: rest) := by
  unfold Annotations.members at hfuel ⊢
  rw [List.flatMap_append, List.flatMap_map, List.append_assoc] at hfuel ⊢
  refine annotations_takes_flags a.flags hfuel fun fuel hfuel => ?_
  rw [a.foldl_flags]
  rcases a with ⟨void, transient, pinned, unnamed, _ | message⟩
  · exact annotations_takes_openParen fuel _ rest
  · obtain ⟨fuel, rfl⟩ : ∃ n, fuel = n + 1 := Nat.exists_eq_succ_of_ne_zero (by
      simp at hfuel
      omega)
    have hmessage := annotations_takes_message fuel ⟨void, transient, pinned, 0, none⟩ message rest
    simpa [Annotations.withError, Annotations.named] using hmessage

/-- Written annotations are read up to the parenthesis behind them, and so is the blank that may
stand in their place. -/
theorem annotations_takes_lead (a : Annotations) {fuel : Nat}
    (hfuel : (a.lead ++ '(' :: rest).length ≤ fuel) :
    Takes (annotations fuel {}) (a.lead ++ '(' :: rest) a.named ('(' :: rest) := by
  rw [a.lead_eq, List.append_assoc] at hfuel ⊢
  cases hwordless : a.wordless with
  | true =>
    rw [hwordless] at hfuel
    exact annotations_takes_blank (c := ' ') (by decide)
      (annotations_takes_members a (Nat.le_of_succ_le hfuel))
  | false =>
    rw [hwordless] at hfuel
    exact annotations_takes_members a hfuel

/-- **What is written is read back, and reading stops where it ends.** A written string is read as
the string, whatever follows. A written name behind an arrow is read as the name, if what follows
does not go on with it, and to intern it makes that name known and no other. Written annotations
in front of a parenthesis are read as the same annotations, if their flags have names; flags
without one are left out. -/
theorem reads_written :
    (∀ (s : String) (rest : List Char) (o : Nat),
      quoted ⟨Text.quoted s.toList ++ rest, o⟩ =
        .ok (s, ⟨rest, o + Text.size (Text.quoted s.toList)⟩)) ∧
    (∀ (name : String) (rest : List Char) (o : Nat),
      (∀ c ∈ rest.head?, Text.isNameChar c = false) →
        token? ⟨'-' :: '>' :: Text.name name.toList ++ rest, o⟩ =
          .ok (some name, ⟨rest, o + Text.size ('-' :: '>' :: Text.name name.toList)⟩) ∧
        ∀ t : TokenTable, (t.intern name).2.get? name = some (t.intern name).1 ∧
          (t.intern name).2.name? (t.intern name).1 = some name ∧
          ∀ other, other ≠ name → (t.intern name).2.get? other = t.get? other) ∧
    (∀ (a : Annotations) (rest : List Char) (o fuel : Nat),
      (a.lead ++ '(' :: rest).length ≤ fuel →
        annotations fuel {} ⟨a.lead ++ '(' :: rest, o⟩ =
          .ok (a.named, ⟨'(' :: rest, o + Text.size a.lead⟩) ∧
        (a.named = a ↔ a.unnamed = 0)) := by
  refine ⟨fun s rest o => ?_, fun name rest o hrest => ⟨?_, fun t => ?_⟩,
    fun a rest o fuel hfuel => ?_⟩
  · exact (quoted_takes s rest).eq_ok quoted_forward o
  · exact (token?_takes name hrest).eq_ok token?_forward o
  · exact ⟨t.get?_intern name, t.name?_intern name, fun _ => TokenTable.get?_intern_of_ne⟩
  · exact ⟨(annotations_takes_lead a hfuel).eq_ok (annotations_forward fuel {}) o,
      Annotations.named_eq_self_iff⟩

/-- A quote and a control character in a name, and a closing parenthesis in a message. -/
theorem reads_written_escaped :
    quoted ⟨"\"a\\\"b\" -> c".toList, 0⟩ = .ok ("a\"b", ⟨" -> c".toList, 6⟩) ∧
    token? ⟨"->\"9\\u\x7b1\x7d\"(".toList, 0⟩ = .ok (some "9\x01", ⟨['('], 10⟩) ∧
    annotations 30 {} ⟨"@void @error(\"é)\") (\"".toList, 0⟩ =
      .ok ({ void := true, error := some "é)" }, ⟨"(\"".toList, 20⟩) := by
  obtain ⟨hquoted, htoken, hannotations⟩ := reads_written
  refine ⟨?_, ?_, ?_⟩
  · exact hquoted "a\"b" " -> c".toList 0
  · exact (htoken "9\x01" ['('] 0 (Text.isNameChar_head (by decide) [])).1
  · exact (hannotations { void := true, error := some "é)" } ['"'] 0 30 (by decide)).1

end Reader

end Lexigraph
