/-
# Lexigraph.Proofs.Pattern.Lexeme -- lexemes are read as what they stand for

Where the lexemes of a string, a name, bounds or annotations can be taken from a text, the reader
takes what they stand for. A quoted string ends at its own closing quote, so anything may follow
it. A name and a count end where the text cannot go on with them; literals, bounds and
annotations end at the parenthesis behind them.
-/

import Lexigraph.Proofs.Pattern.Taken
import Lexigraph.Proofs.Pattern.Unambiguous

namespace Lexigraph

open Text (pastBlanks)

namespace Reader

variable {text rest : List Char} {a found : Annotations}

theorem isBlank_closeParen : Text.isBlank ')' = false := by decide

/-- Where no arrow follows, there is no name to read. -/
theorem token?_takes_none {text : List Char} (h : (pastBlanks text).head? ≠ some '-') :
    Takes token? text none (pastBlanks text) := by
  refine (skipBlank_takes rfl).bind (Takes.get_bind fun o => ?_)
  split
  · next _ _ heq =>
    rw [show pastBlanks text = _ from heq] at h
    exact absurd rfl h
  · exact Takes.pure _ _

theorem annotations_end (fuel : Nat) (found : Annotations)
    (h : (pastBlanks text).head? ≠ some '@') :
    Takes (annotations fuel found) text found (pastBlanks text) := by
  unfold annotations
  refine (skipBlank_takes rfl).bind (Takes.look_bind (offset_look _) fun start => ?_)
  cases fuel with
  | zero => exact Takes.pure _ _
  | succ fuel => exact (eat_takes_not h).bind (Takes.pure _ _)

theorem annotations_flag {fuel : Nat} {f : Flag} {tail : List Char}
    (h : pastBlanks text = '@' :: (f.name.toList ++ tail))
    (htail : ∀ c ∈ tail.head?, Text.isNameChar c = false)
    (hmore : Takes (annotations fuel (found.withFlag f)) tail a rest) :
    Takes (annotations (fuel + 1) found) text a rest := by
  unfold annotations
  refine (skipBlank_takes h).bind (Takes.look_bind (offset_look _) fun start => ?_)
  refine (eat_takes '@' _).bind ((takeWhile_takes f.isNameChar_name htail).bind ?_)
  rw [String.ofList_toList, if_neg f.name_ne_error, Flag.named?_name]
  exact hmore

theorem annotations_error {fuel : Nat} {message : String} {named opened closed tail : List Char}
    (h : pastBlanks text = '@' :: ("error".toList ++ named))
    (hnamed : ∀ c ∈ named.head?, Text.isNameChar c = false)
    (hopen : pastBlanks named = '(' :: opened) (hquoted : Takes quoted opened message closed)
    (hclose : pastBlanks closed = ')' :: tail)
    (hmore : Takes (annotations fuel (found.withError message)) tail a rest) :
    Takes (annotations (fuel + 1) found) text a rest := by
  unfold annotations
  refine (skipBlank_takes h).bind (Takes.look_bind (offset_look _) fun start => ?_)
  refine (eat_takes '@' _).bind ((takeWhile_takes isNameChar_error hnamed).bind ?_)
  rw [String.ofList_toList, if_pos rfl]
  exact (expect_takes hopen).bind (hquoted.bind ((expect_takes hclose).bind hmore))

end Reader

namespace Phrase

open Reader

variable {text mid rest : List Char}

/-! ## Quoted strings -/

theorem unquote_digits (start backslash : Nat) (read : List Char) (front digits : List (Char × Nat))
    (hdigits : ∀ d ∈ digits, d ∈ hexDigits) (offset : Nat) (rest : List Char) :
    ∃ offset', unquote start (.digits backslash (hexValue? front)) read offset
        (digits.map Prod.fst ++ rest) =
      unquote start (.digits backslash (hexValue? (front ++ digits))) read offset' rest := by
  induction digits generalizing front offset with
  | nil =>
    rw [List.append_nil]
    exact ⟨offset, rfl⟩
  | cons d digits ih =>
    rw [List.forall_mem_cons] at hdigits
    obtain ⟨offset', hmore⟩ := ih (front ++ [d]) hdigits.2 (offset + d.1.utf8Size)
    refine ⟨offset', ?_⟩
    rw [hexValue?_append, List.append_assoc] at hmore
    refine Eq.trans ?_ hmore
    have hdigit : hexDigit? d.1 = some d.2 := mem_hexDigits_iff.1 hdigits.1
    simp only [List.map_cons, List.cons_append, unquote,
      if_neg (hexDigits_ne_brace d hdigits.1), hdigit]

/-- A glyph is read as its character. -/
theorem unquote_glyph (start : Nat) (g : Glyph) (read : List Char) (offset : Nat)
    (rest : List Char) :
    ∃ offset', unquote start .plain read offset (g.text ++ rest) =
      unquote start .plain (g.char :: read) offset' rest := by
  cases g with
  | plain c hquote hback =>
    refine ⟨offset + c.utf8Size, ?_⟩
    simp only [Glyph.text, Glyph.char, List.singleton_append, unquote, if_neg hquote, if_neg hback]
  | escape letter c known =>
    refine ⟨offset + ('\\').utf8Size + letter.utf8Size, ?_⟩
    have hletter : unescape? letter = some c := mem_escapes_iff.1 known
    have hu : letter ≠ 'u' := escapes_ne_u _ known
    have hback : ¬ '\\' = '"' := by decide
    simp only [Glyph.text, Glyph.char, List.cons_append, List.nil_append, unquote, if_neg hu,
      hletter, if_neg hback, if_pos]
  | code digits c nonempty hex named =>
    obtain ⟨offset', hdigits⟩ := unquote_digits start offset read [] digits hex
      (offset + ('\\').utf8Size + ('u').utf8Size + ('{').utf8Size) ('}' :: rest)
    refine ⟨offset' + ('}').utf8Size, ?_⟩
    have hopen : unquote start .plain read offset
        ((Glyph.code digits c nonempty hex named).text ++ rest) =
          unquote start (.digits offset (hexValue? [])) read
          (offset + ('\\').utf8Size + ('u').utf8Size + ('{').utf8Size)
          (digits.map Prod.fst ++ '}' :: rest) := by
      simp only [Glyph.text, List.cons_append, List.append_assoc, List.nil_append]
      rfl
    have hvalue : (hexValue? digits).bind charOfCode? = some c := by
      unfold hexValue?
      rw [if_neg nonempty, Option.bind_some, charOfCode?_eq_some_iff, named]
    rw [hopen, hdigits, List.nil_append]
    simp only [unquote, if_pos, hvalue, Glyph.char]

theorem unquote_glyphs (start : Nat) (gs : List Glyph) (read : List Char) (offset : Nat)
    (rest : List Char) :
    ∃ offset', unquote start .plain read offset (gs.flatMap Glyph.text ++ '"' :: rest) =
      .ok (read.reverse ++ gs.map Glyph.char, ⟨rest, offset'⟩) := by
  induction gs generalizing read offset with
  | nil =>
    refine ⟨offset + ('"').utf8Size, ?_⟩
    rw [List.map_nil, List.append_nil]
    rfl
  | cons g gs ih =>
    rw [List.flatMap_cons, List.append_assoc]
    obtain ⟨offset₁, hglyph⟩ := unquote_glyph start g read offset
      (gs.flatMap Glyph.text ++ '"' :: rest)
    obtain ⟨offset₂, hglyphs⟩ := ih (g.char :: read) offset₁
    refine ⟨offset₂, hglyph.trans (hglyphs.trans ?_)⟩
    rw [List.reverse_cons, List.append_assoc]
    rfl

/-- **A quotation is read as its value**, whatever follows. -/
theorem Quotation.takes (q : Quotation) (h : pastBlanks text = q.text ++ rest) :
    Takes quoted text q.value rest := by
  have htext : q.text ++ rest = '"' :: (q.glyphs.flatMap Glyph.text ++ '"' :: rest) := by
    simp [Quotation.text]
  rw [htext] at h
  refine Takes.look_bind (offset_look text) fun start => (expect_takes h).bind fun o => ?_
  obtain ⟨o', hunquote⟩ := unquote_glyphs start q.glyphs [] o rest
  refine ⟨o', ?_⟩
  simp only [hunquote, List.reverse_nil, List.nil_append]
  rfl

/-! ## Names and counts -/

/-- A name is read up to what does not go on with it. -/
theorem Naming.takes (n : Naming) (h : pastBlanks mid = n.lexeme.text ++ rest)
    (hends : n.lexeme.Ends rest) (htext : pastBlanks text = '-' :: '>' :: mid) :
    Takes token? text (some n.value) rest := by
  refine (skipBlank_takes htext).bind (Takes.get_bind fun o => ?_)
  refine (eat_takes '-' _).bind ((eat_takes '>' _).bind ((skipBlank_takes h).bind ?_))
  refine (peek?_takes _).bind ?_
  cases n with
  | bare w =>
    -- a bare name cannot be taken for a quoted one, since it does not start with a quote
    obtain ⟨c, cs, hw⟩ := List.exists_cons_of_ne_nil w.nonempty
    have hc : Text.isNameChar c = true := w.all c (by rw [hw]; exact List.mem_cons_self)
    have hquote : ¬ (w.chars ++ rest).head? = some '"' := by
      intro hhead
      rw [hw] at hhead
      rw [Option.some.inj hhead] at hc
      exact absurd hc (by decide)
    show Takes (if (w.chars ++ rest).head? = some '"' then _ else _) _ _ _
    rw [if_neg hquote]
    refine (takeWhile_takes w.all (hends rfl)).bind ?_
    split
    · next hnil => exact absurd hnil w.nonempty
    · exact Takes.pure _ _
  | quoted q =>
    have hquote : (q.text ++ rest).head? = some '"' := rfl
    show Takes (if (q.text ++ rest).head? = some '"' then _ else _) _ _ _
    rw [if_pos hquote]
    exact (q.takes ((Lexeme.quotation q).pastBlanks_text rest)).bind (Takes.pure _ _)

/-- A token is read if there is one. -/
theorem token_readsAt (token : Option Naming) (h : Lexes (tokenLexemes token) text rest)
    (hrest : (pastBlanks rest).head? ≠ some '-') :
    ReadsAt token? text (token.map Naming.value) rest := by
  cases token with
  | none =>
    have htext : pastBlanks text = pastBlanks rest := h
    rw [← htext] at hrest
    exact (token?_takes_none hrest).readsAt ((Text.pastBlanks_pastBlanks text).trans htext)
  | some n =>
    obtain ⟨mid, htext, -, left, hmid, hends, hleft⟩ := h
    exact (n.takes hmid hends htext).readsAt hleft

/-- A count is read up to what does not go on with it. -/
theorem Count.takes (n : Count) (h : pastBlanks text = n.digits ++ rest)
    (hends : (Lexeme.word n.word).Ends rest) : Takes count text n.value rest := by
  have hrest : ∀ c ∈ rest.head?, c.isDigit = false := by
    intro c hc
    rw [Bool.eq_false_iff]
    intro hdigit
    have hname := hends rfl c hc
    rw [Text.isNameChar_of_isDigit hdigit] at hname
    cases hname
  refine (skipBlank_takes h).bind (Takes.look_bind (offset_look _) fun start => ?_)
  refine (takeWhile_takes n.all hrest).bind ?_
  split
  · next hnil => exact absurd hnil n.nonempty
  · rw [dif_pos n.small]
    exact Takes.pure _ _

/-- Bounds are read up to the parenthesis behind them. -/
theorem Bounds.readsAt (b : Bounds) {ls : List Lexeme}
    (h : Lexes (b.lexemes ++ .sign .closeParen :: ls) text rest) :
    ∃ mid, ReadsAt Reader.bounds text (b.min, b.max) (')' :: mid) ∧ Lexes ls mid rest := by
  cases b with
  | usual =>
    obtain ⟨mid, htext, -, h⟩ := h
    refine ⟨mid, ?_, h⟩
    refine (skipBlank_takes htext).bind_readsAt ?_
    exact (eat_takes_not (by simp [Lexeme.text, Sign.text])).bind_readsAt (Reads.pure _ _).readsAt
  | least min =>
    obtain ⟨left, htext, -, next, hmin, hends, mid, hnext, -, h⟩ := h
    refine ⟨mid, ?_, h⟩
    refine (skipBlank_takes htext).bind_readsAt ((eat_takes ',' _).bind_readsAt ?_)
    refine (min.takes hmin hends).bind_readsAt ((skipBlank_takes hnext).bind_readsAt ?_)
    exact (eat_takes_not (by simp [Lexeme.text, Sign.text])).bind_readsAt (Reads.pure _ _).readsAt
  | both min max =>
    obtain ⟨left, htext, -, next, hmin, hends, last, hnext, -, tail, hmax, hends', mid, htail, -,
      h⟩ := h
    refine ⟨mid, ?_, h⟩
    refine (skipBlank_takes htext).bind_readsAt ((eat_takes ',' _).bind_readsAt ?_)
    refine (min.takes hmin hends).bind_readsAt ((skipBlank_takes hnext).bind_readsAt ?_)
    refine (eat_takes ',' _).bind_readsAt ((max.takes hmax hends').bind_readsAt ?_)
    refine (Takes.pure _ _).readsAt (htail.trans ?_)
    exact (Text.pastBlanks_cons isBlank_closeParen mid).symm

/-! ## Annotations and literals -/

/-- Annotations are read up to the parenthesis behind them. -/
theorem marks_takes (marks : List Mark) (found : Annotations) {fuel : Nat} {ls : List Lexeme}
    (hfuel : marks.length ≤ fuel)
    (h : Lexes (marks.flatMap Mark.lexemes ++ .sign .openParen :: ls) text rest) :
    ∃ mid, Takes (annotations fuel found) text (marks.foldl Mark.add found) ('(' :: mid) ∧
      Lexes ls mid rest := by
  induction marks generalizing found fuel text with
  | nil =>
    obtain ⟨mid, htext, -, h⟩ := h
    have htext : pastBlanks text = '(' :: mid := htext
    refine ⟨mid, ?_, h⟩
    rw [← htext]
    exact annotations_end fuel found (by simp [htext])
  | cons m marks ih =>
    obtain ⟨fuel, rfl⟩ : ∃ n, fuel = n + 1 := Nat.exists_eq_succ_of_ne_zero (by
      rw [List.length_cons] at hfuel
      omega)
    have hmore := Nat.le_of_succ_le_succ hfuel
    cases m with
    | flag f =>
      obtain ⟨tail, htext, hends, h⟩ := h
      obtain ⟨mid, hmarks, h⟩ := ih (found.withFlag f) hmore h
      exact ⟨mid, annotations_flag htext (hends rfl) hmarks, h⟩
    | error message =>
      obtain ⟨opened, htext, hends, quoted, hopen, -, closed, hquoted, -, tail, hclose, -, h⟩ := h
      obtain ⟨mid, hmarks, h⟩ := ih (found.withError message.value) hmore h
      refine ⟨mid, ?_, h⟩
      exact annotations_error htext (hends rfl) hopen (message.takes hquoted) hclose hmarks

/-- Literals are read up to the parenthesis behind them. -/
theorem literals_takes (others : List Quotation) (found : List String) {fuel : Nat}
    {ls : List Lexeme} (hfuel : others.length ≤ fuel)
    (h : Lexes (literalLexemes others ++ .sign .closeParen :: ls) text rest) :
    ∃ mid, Takes (literals fuel found) text (found.reverse ++ others.map Quotation.value)
      (')' :: mid) ∧ Lexes ls mid rest := by
  induction others generalizing found fuel text with
  | nil =>
    obtain ⟨mid, htext, -, h⟩ := h
    refine ⟨mid, ?_, h⟩
    unfold literals
    rw [List.map_nil, List.append_nil]
    refine (skipBlank_takes htext).bind ?_
    cases fuel with
    | zero => exact Takes.pure _ _
    | succ fuel =>
      exact (eat_takes_not (by simp [Lexeme.text, Sign.text])).bind (Takes.pure _ _)
  | cons q others ih =>
    obtain ⟨fuel, rfl⟩ : ∃ n, fuel = n + 1 := Nat.exists_eq_succ_of_ne_zero (by
      rw [List.length_cons] at hfuel
      omega)
    obtain ⟨left, htext, -, tail, hleft, -, h⟩ := h
    obtain ⟨mid, hmore, h⟩ := ih (q.value :: found) (Nat.le_of_succ_le_succ hfuel) h
    rw [List.reverse_cons, List.append_assoc] at hmore
    have hquoted := (Lexeme.quotation q).pastBlanks_text tail
    refine ⟨mid, (skipBlank_takes htext).bind ((eat_takes '|' _).bind ?_), h⟩
    exact (skipBlank_takes hleft).bind ((q.takes hquoted).bind hmore)

end Phrase

end Lexigraph
