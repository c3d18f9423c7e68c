/-
# Lexigraph.Proofs.Pattern.RoundTrip -- the text of a pattern denotes the pattern

What is written of a pattern derives from a tree that stands for the pattern, but for the flags
without a name: each written part is a text of a part of the tree, blanks included. And what
derives from a tree denotes what the tree stands for, so the reader undoes the printer.

A written name ends where the text cannot go on with it. Behind it stands a delimiter, a line
break or the end of the text.
-/

import Lexigraph.Pattern.Printer
import Lexigraph.Proofs.Pattern.Accepted
import Lexigraph.Proofs.Pattern.Named
import Lexigraph.Proofs.Pattern.Ordered

namespace Lexigraph

open Phrase

/-! ## Written lexemes -/

namespace Text

theorem digitChar_mem_hexDigits {n : Nat} (h : n < 16) : (n.digitChar, n) ∈ hexDigits := by
  have hall : ∀ m < 16, (m.digitChar, m) ∈ hexDigits := by decide
  exact hall n h

/-- The digits of a number amount to the number. -/
theorem exists_hexDigits (n : Nat) : ∃ digits : List (Char × Nat), digits ≠ [] ∧
    (∀ d ∈ digits, d ∈ hexDigits) ∧ hexValue digits = n ∧
      digits.map Prod.fst = Nat.toDigits 16 n := by
  induction n using Nat.strongRecOn with
  | _ n ih =>
    rw [Nat.toDigits_eq_if (by decide)]
    by_cases h : n < 16
    · rw [if_pos h]
      refine ⟨[(n.digitChar, n)], List.cons_ne_nil _ _, ?_, by simp [hexValue], rfl⟩
      simpa using digitChar_mem_hexDigits h
    · rw [if_neg h]
      obtain ⟨digits, -, hhex, hvalue, hdigits⟩ := ih (n / 16) (by omega)
      refine ⟨digits ++ [((n % 16).digitChar, n % 16)], by simp, ?_, ?_, ?_⟩
      · have hlast := digitChar_mem_hexDigits (Nat.mod_lt n (show 16 > 0 by decide))
        simpa [or_imp, forall_and] using And.intro hhex hlast
      · rw [Reader.hexValue_append, hvalue, Nat.div_add_mod]
      · rw [List.map_append, hdigits]
        rfl

/-- An escaped character is a glyph. -/
theorem exists_glyph (c : Char) : ∃ g : Glyph, g.text = escape c ∧ g.char = c := by
  -- what has a letter for its escape, then what stands for itself, then the other controls
  by_cases hletter : c = '"' ∨ c = '\\' ∨ c = '\n' ∨ c = '\r' ∨ c = '\t'
  · rcases hletter with rfl | rfl | rfl | rfl | rfl
    · exact ⟨.escape '"' '"' (by decide), rfl, rfl⟩
    · exact ⟨.escape '\\' '\\' (by decide), rfl, rfl⟩
    · exact ⟨.escape 'n' '\n' (by decide), rfl, rfl⟩
    · exact ⟨.escape 'r' '\r' (by decide), rfl, rfl⟩
    · exact ⟨.escape 't' '\t' (by decide), rfl, rfl⟩
  obtain ⟨hquote, hback, hn, hr, ht⟩ : c ≠ '"' ∧ c ≠ '\\' ∧ c ≠ '\n' ∧ c ≠ '\r' ∧ c ≠ '\t' := by
    simpa only [not_or] using hletter
  cases hcontrol : isControl c with
  | false => exact ⟨.plain c hquote hback, (escape_eq_self hquote hback hcontrol).symm, rfl⟩
  | true =>
    obtain ⟨digits, hne, hhex, hvalue, hdigits⟩ := exists_hexDigits c.toNat
    refine ⟨.code digits c hne hhex hvalue, ?_, rfl⟩
    simp [Glyph.text, escape, escapeCode, hquote, hback, hn, hr, ht, hcontrol, hdigits]

theorem exists_glyphs (cs : List Char) :
    ∃ gs : List Glyph, gs.flatMap Glyph.text = cs.flatMap escape ∧ gs.map Glyph.char = cs := by
  induction cs with
  | nil => exact ⟨[], rfl, rfl⟩
  | cons c cs ih =>
    obtain ⟨gs, htext, hchars⟩ := ih
    obtain ⟨g, hg, hc⟩ := exists_glyph c
    exact ⟨g :: gs, by simp [htext, hg], by simp [hchars, hc]⟩

/-- A written string is a quotation of it. -/
theorem exists_quotation (s : String) :
    ∃ q : Quotation, q.text = quoted s.toList ∧ q.value = s := by
  obtain ⟨gs, htext, hchars⟩ := exists_glyphs s.toList
  refine ⟨⟨gs⟩, ?_, ?_⟩
  · rw [Quotation.text, htext]
    rfl
  · rw [Quotation.value, hchars, String.ofList_toList]

/-- A written name is a name. -/
theorem exists_naming (name : String) :
    ∃ n : Naming, n.lexeme.text = Text.name name.toList ∧ n.value = name := by
  unfold Text.name
  by_cases hbare : isBareName name.toList = true
  · obtain ⟨hall, hne⟩ := all_isNameChar_of_isBareName hbare
    rw [if_pos hbare]
    exact ⟨.bare ⟨_, hne, List.all_eq_true.1 hall⟩, rfl, String.ofList_toList⟩
  · obtain ⟨q, htext, hvalue⟩ := exists_quotation name
    rw [if_neg hbare]
    exact ⟨.quoted q, htext, hvalue⟩

/-- A written number is a count. -/
theorem exists_count (n : UInt32) :
    ∃ c : Count, c.digits = Nat.toDigits 10 n.toNat ∧ c.value = n := by
  have hvalue : Nat.ofDigitChars 10 (Nat.toDigits 10 n.toNat) 0 = n.toNat :=
    Nat.ofDigitChars_ten_toDigits
  refine ⟨⟨_, Nat.toDigits_ne_nil, fun c hc => ?_, ?_⟩, rfl, ?_⟩
  · exact Nat.isDigit_of_mem_toDigits (by decide) (by decide) hc
  · rw [hvalue]
    exact n.toNat_lt_size
  · unfold Count.value
    simp only [hvalue]
    exact UInt32.ofNatLT_toNat n

end Text

namespace Pattern

variable {ls : List Lexeme} {mid rest : List Char}

/-! ## Tokens, bounds and literals -/

theorem naming_lexes (name : String) (hrest : ∀ c ∈ rest.head?, Text.isNameChar c = false) :
    ∃ n : Naming, n.value = name ∧ Lexes n.lexemes (tokenText (some name) ++ rest) rest := by
  obtain ⟨n, htext, hvalue⟩ := Text.exists_naming name
  have hname : Lexes [n.lexeme] (n.lexeme.text ++ rest) rest := .cons (fun _ => hrest) rfl
  rw [htext] at hname
  exact ⟨n, hvalue, hname.sign .arrow⟩

theorem token_lexes (token : Option String)
    (hrest : ∀ c ∈ rest.head?, Text.isNameChar c = false) :
    ∃ n : Option Naming, n.map Naming.value = token ∧
      Lexes (tokenLexemes n) (tokenText token ++ rest) rest := by
  cases token with
  | none => exact ⟨none, rfl, rfl⟩
  | some name =>
    obtain ⟨n, rfl, hn⟩ := naming_lexes name hrest
    exact ⟨some n, rfl, hn⟩

/-- A count behind a comma. -/
theorem count_lexes (n : UInt32) (hmid : ∀ c ∈ mid.head?, Text.isNameChar c = false)
    (h : Lexes ls mid rest) : ∃ c : Count, c.value = n ∧
      Lexes (.sign .comma :: .word c.word :: ls) (countText n ++ mid) rest := by
  obtain ⟨c, hdigits, hvalue⟩ := Text.exists_count n
  have hword : Lexes (.word c.word :: ls) (c.digits ++ mid) rest := .cons (fun _ => hmid) h
  rw [hdigits] at hword
  exact ⟨c, hvalue, hword.sign .comma⟩

/-- Bounds are written unless they are the usual ones. -/
theorem bounds_lexes (min : UInt32) (max : Option UInt32)
    (h : Lexes (.sign .closeParen :: ls) (')' :: mid) rest) : ∃ b : Bounds, b.min = min ∧
      b.max = max ∧ Lexes (b.lexemes ++ .sign .closeParen :: ls)
        (boundsText min max ++ ')' :: mid) rest := by
  have hparen : ∀ c ∈ (')' :: mid).head?, Text.isNameChar c = false :=
    Text.isNameChar_head (by decide) mid
  unfold boundsText
  cases max with
  | none =>
    by_cases hmin : min = 1
    · rw [if_pos hmin, hmin]
      exact ⟨.usual, rfl, rfl, h⟩
    · obtain ⟨c, rfl, hc⟩ := count_lexes min hparen h
      rw [if_neg hmin]
      exact ⟨.least c, rfl, rfl, hc⟩
  | some max =>
    obtain ⟨c', rfl, hc'⟩ := count_lexes max hparen h
    have hcomma : ∀ c ∈ (countText c'.value ++ ')' :: mid).head?, Text.isNameChar c = false :=
      Text.isNameChar_head (by decide) _
    obtain ⟨c, rfl, hc⟩ := count_lexes min hcomma hc'
    rw [List.append_assoc]
    exact ⟨.both c c', rfl, rfl, hc⟩

theorem literals_lexes (others : List String)
    (h : Lexes (.sign .closeParen :: ls) (')' :: mid) rest) :
    ∃ qs : List Quotation, qs.map Quotation.value = others ∧
      Lexes (literalLexemes qs ++ .sign .closeParen :: ls)
        ((others.flatMap fun c => ' ' :: '|' :: ' ' :: Text.quoted c.toList) ++ ')' :: mid)
        rest := by
  have hblank : Text.isBlank ' ' = true := by decide
  induction others with
  | nil => exact ⟨[], rfl, h⟩
  | cons s others ih =>
    obtain ⟨qs, rfl, hqs⟩ := ih
    obtain ⟨q, htext, rfl⟩ := Text.exists_quotation s
    rw [List.flatMap_cons, List.append_assoc, ← htext]
    exact ⟨q :: qs, rfl, (((hqs.quotation q).blank hblank).sign .bar).blank hblank⟩

end Pattern

/-! ## Lists of lexemes -/

/-- Parts with a separator between two: the first part, and each other one behind a separator. -/
theorem intercalate_cons_eq_flatMap {α : Type} (separator part : List α) (parts : List (List α)) :
    separator.intercalate (part :: parts) = part ++ parts.flatMap (separator ++ ·) := by
  induction parts generalizing part with
  | nil => rw [List.intercalate_singleton, List.flatMap_nil, List.append_nil]
  | cons next parts ih =>
    rw [List.intercalate_cons_cons, ih, List.flatMap_cons, List.append_assoc, List.append_assoc]

/-- A separator behind the last part too: each part, and a separator behind it. -/
theorem intercalate_append_eq_flatMap {α : Type} (separator part : List α)
    (parts : List (List α)) :
    separator.intercalate (part :: parts) ++ separator =
      (part :: parts).flatMap (· ++ separator) := by
  induction parts generalizing part with
  | nil => rw [List.intercalate_singleton, List.flatMap_singleton]
  | cons next parts ih =>
    rw [List.intercalate_cons_cons, List.append_assoc, ih, List.flatMap_cons (x := part)]

/-- The written literals: the first one, and each other one behind a bar. -/
theorem Literals.text_eq (l : Literals) (rest : List Char) :
    l.text ++ rest = '(' :: (Text.quoted l.first.toList ++
      ((l.others.flatMap fun c => ' ' :: '|' :: ' ' :: Text.quoted c.toList) ++ ')' :: rest)) := by
  unfold Literals.text Literals.toList
  rw [List.map_cons, intercalate_cons_eq_flatMap, List.flatMap_map, List.cons_append,
    List.append_assoc, List.append_assoc]
  rfl

namespace Annotations

/-- What stands in front of a description is each member with a blank behind it, if the flags have
names. -/
theorem lead_named_eq (a : Annotations) : a.named.lead = a.members.flatMap (· ++ [' ']) := by
  unfold lead
  rw [a.isEmpty_named, show a.named.text = a.text from rfl, text]
  cases a.members with
  | nil => rfl
  | cons m ms => exact intercalate_append_eq_flatMap [' '] m ms

/-- Any other set may have one more blank in front. -/
theorem lead_eq (a : Annotations) :
    a.lead = (if a.wordless then [' '] else []) ++ a.members.flatMap (· ++ [' ']) := by
  rw [a.lead_eq_append, a.lead_named_eq]

/-- The flags of a set and its message are all there is to it, if the flags have names. -/
theorem foldl_flags (a : Annotations) :
    a.flags.foldl withFlag {} = { a.named with error := none } := by
  rcases a with ⟨void, transient, pinned, unnamed, error⟩
  cases void <;> cases transient <;> cases pinned <;> rfl

variable {ls : List Lexeme} {mid rest : List Char}

theorem flags_lexes (fs : List Flag) (h : Lexes ls mid rest) :
    Lexes ((fs.map Mark.flag).flatMap Mark.lexemes ++ ls)
      ((fs.flatMap fun f => '@' :: f.name.toList ++ [' ']) ++ mid) rest := by
  induction fs with
  | nil => exact h
  | cons f fs ih =>
    have hblank := ih.blank (c := ' ') (by decide)
    have hflag := Lexes.cons (l := .flag f) (fun _ => Text.isNameChar_head (by decide) _) hblank
    rw [List.flatMap_cons, List.append_assoc, List.append_assoc]
    exact hflag

/-- A written message, with a blank behind it. -/
theorem error_lexes (message : String) (h : Lexes ls mid rest) :
    ∃ q : Quotation, q.value = message ∧ Lexes ((Mark.error q).lexemes ++ ls)
      ("@error(".toList ++ Text.quoted message.toList ++ [')'] ++ [' '] ++ mid) rest := by
  obtain ⟨q, htext, hvalue⟩ := Text.exists_quotation message
  have hclose := (h.blank (c := ' ') (by decide)).sign .closeParen
  have hopen := (hclose.quotation q).sign .openParen
  refine ⟨q, hvalue, ?_⟩
  have herror := Lexes.cons (l := .error) (fun _ => Text.isNameChar_head (by decide) _) hopen
  simpa [htext, Lexeme.text, Sign.text, Mark.lexemes] using herror

/-- Written members are marks. -/
theorem members_lexes (a : Annotations) (h : Lexes ls mid rest) :
    ∃ marks : List Mark, marks.foldl Mark.add {} = a.named ∧
      Lexes (marks.flatMap Mark.lexemes ++ ls) (a.members.flatMap (· ++ [' ']) ++ mid) rest := by
  have hflags : (a.flags.map Mark.flag).foldl Mark.add {} = { a.named with error := none } := by
    rw [List.foldl_map]
    exact a.foldl_flags
  unfold members
  rw [List.flatMap_append, List.flatMap_map, List.append_assoc]
  cases herror : a.error with
  | none =>
    refine ⟨a.flags.map Mark.flag, ?_, flags_lexes a.flags h⟩
    rw [hflags, ← herror]
    rfl
  | some message =>
    obtain ⟨q, rfl, hq⟩ := error_lexes message h
    refine ⟨a.flags.map Mark.flag ++ [.error q], ?_, ?_⟩
    · rw [List.foldl_append, hflags, List.foldl_cons, List.foldl_nil]
      show { a.named with error := some q.value } = a.named
      rw [← herror]
      rfl
    · rw [List.flatMap_append, List.append_assoc, List.flatMap_singleton]
      apply flags_lexes
      simpa using hq

/-- Written annotations are marks. A blank in their place may stand in front of what follows. -/
theorem lead_lexes (a : Annotations) (h : Lexes ls mid rest) :
    ∃ marks : List Mark, marks.foldl Mark.add {} = a.named ∧
      Lexes (marks.flatMap Mark.lexemes ++ ls) (a.lead ++ mid) rest := by
  obtain ⟨marks, hnamed, hmarks⟩ := a.members_lexes h
  refine ⟨marks, hnamed, ?_⟩
  rw [lead_eq, List.append_assoc]
  cases a.wordless with
  | true => exact hmarks.blank (by decide)
  | false => exact hmarks

end Annotations

namespace Pattern

/-! ## Written patterns -/

theorem newLine_isBlank (depth : Nat) : ∀ c ∈ newLine depth, Text.isBlank c = true := by
  intro c hc
  rcases List.mem_cons.1 hc with rfl | hc
  · decide
  · rw [List.eq_of_mem_replicate hc]
    decide

theorem head_writeBranches (depth : Nat) (ps : List Pattern)
    (hrest : ∀ c ∈ rest.head?, Text.isNameChar c = false) :
    ∀ c ∈ (writeBranches depth ps rest).head?, Text.isNameChar c = false := by
  have hdot (cs : List Char) : ∀ c ∈ ('.' :: cs).head?, Text.isNameChar c = false :=
    Text.isNameChar_head (by decide) cs
  rcases ps with _ | ⟨p, _ | ⟨q, ps⟩⟩
  · exact hrest
  · exact hdot _
  · exact hdot _

theorem head_bounds (min : UInt32) (max : Option UInt32) (rest : List Char) :
    ∀ c ∈ (boundsText min max ++ ')' :: rest).head?, Text.isNameChar c = false := by
  have hcomma (cs : List Char) : ∀ c ∈ (',' :: cs).head?, Text.isNameChar c = false :=
    Text.isNameChar_head (by decide) cs
  unfold boundsText
  cases max with
  | none =>
    by_cases hmin : min = 1
    · rw [if_pos hmin]
      exact Text.isNameChar_head (by decide) rest
    · rw [if_neg hmin]
      exact hcomma _
  | some max => exact hcomma _

theorem head_writeMore (depth : Nat) (ps : List Pattern) (rest : List Char) :
    ∀ c ∈ (writeMore depth ps rest).head?, Text.isNameChar c = false := by
  cases ps with
  | nil => exact Text.isNameChar_head (by decide) _
  | cons p ps => exact Text.isNameChar_head (by decide) _

mutual

/-- A written pattern derives from a tree that stands for it without the flags that have no name,
whatever follows that does not go on with its last name. -/
theorem write_lexes (depth : Nat) (p : Pattern) (rest : List Char) (hp : p.Ordered)
    (hrest : ∀ c ∈ rest.head?, Text.isNameChar c = false) :
    ∃ t : Phrase, t.pattern = p.named ∧ Lexes t.lexemes (write depth p rest) rest := by
  match p with
  | .terminal annotations choices token branches =>
    obtain ⟨next, hpatterns, hnext⟩ := writeBranches_lexes depth branches rest hp hrest
    obtain ⟨n, rfl, hn⟩ := naming_lexes token (head_writeBranches depth branches hrest)
    obtain ⟨qs, hqs, hothers⟩ := literals_lexes choices.others ((hn.append hnext).sign .closeParen)
    obtain ⟨q, hq, hvalue⟩ := Text.exists_quotation choices.first
    have hopen := (hothers.quotation q).sign .openParen
    obtain ⟨marks, hnamed, hmarks⟩ := annotations.lead_lexes hopen
    refine ⟨.mk marks (.terminal q qs n) next, ?_, ?_⟩
    · rw [pattern, Phrase.Body.pattern, hvalue, hqs, hnamed, hpatterns]
      rfl
    · rw [write, Literals.text_eq, ← hq]
      simpa [lexemes, Phrase.Body.lexemes, Sign.text] using hmarks
  | .repetition annotations child min max token branches =>
    obtain ⟨hbounds, hchild, hbranches⟩ := hp
    obtain ⟨next, hpatterns, hnext⟩ := writeBranches_lexes depth branches rest hbranches hrest
    obtain ⟨n, rfl, hn⟩ := token_lexes token (head_writeBranches depth branches hrest)
    obtain ⟨b, rfl, rfl, hb⟩ := bounds_lexes min max ((hn.append hnext).sign .closeParen)
    obtain ⟨t, hpattern, ht⟩ := write_lexes (depth + 1) child _ hchild (head_bounds b.min b.max _)
    obtain ⟨marks, hnamed, hmarks⟩ := annotations.lead_lexes ((ht.append hb).sign .openParen)
    refine ⟨.mk marks (.repetition t b (b.checkBounds_eq_ok_iff.1 hbounds) n) next, ?_, ?_⟩
    · rw [pattern, Phrase.Body.pattern, hpattern, hnamed, hpatterns]
      rfl
    · simpa [lexemes, Phrase.Body.lexemes, Sign.text, write] using hmarks
  | .choice annotations token branches =>
    obtain ⟨next, hpatterns, hnext⟩ := writeBranches_lexes depth branches rest hp hrest
    obtain ⟨n, rfl, hn⟩ := token_lexes token (head_writeBranches depth branches hrest)
    have hclose := (hn.append hnext).sign .closeParen
    obtain ⟨marks, hnamed, hmarks⟩ := annotations.lead_lexes (hclose.sign .openParen)
    refine ⟨.mk marks (.choice n) next, ?_, hmarks⟩
    rw [pattern, Phrase.Body.pattern, hnamed, hpatterns]
    rfl

theorem writeBranches_lexes (depth : Nat) (ps : List Pattern) (rest : List Char)
    (hps : OrderedAll ps) (hrest : ∀ c ∈ rest.head?, Text.isNameChar c = false) :
    ∃ next : Phrase.Next, next.patterns = mapAnnotationsAll Annotations.named ps ∧
      Lexes next.lexemes (writeBranches depth ps rest) rest := by
  match ps with
  | [] => exact ⟨.none, rfl, rfl⟩
  | [p] =>
    obtain ⟨t, hpattern, ht⟩ := write_lexes depth p rest hps.1 hrest
    exact ⟨.one t, congrArg (fun p => [p]) hpattern, ht.sign .dot⟩
  | p :: q :: ps =>
    obtain ⟨ts, hts, hmore⟩ := writeMore_lexes depth (q :: ps) rest hps.2
    obtain ⟨t, hpattern, ht⟩ :=
      write_lexes (depth + 1) p _ hps.1 (head_writeMore depth (q :: ps) rest)
    have hline := (ht.append hmore).blanks (newLine_isBlank (depth + 1))
    refine ⟨.list t ts, ?_, (hline.sign .openBrace).sign .dot⟩
    rw [Phrase.Next.patterns, hts, hpattern]
    rfl

theorem writeMore_lexes (depth : Nat) (ps : List Pattern) (rest : List Char)
    (hps : OrderedAll ps) :
    ∃ ts : List Phrase, patternAll ts = mapAnnotationsAll Annotations.named ps ∧
      Lexes (moreLexemes ts) (writeMore depth ps rest) rest := by
  match ps with
  | [] =>
    have hbrace : Lexes [.sign .closeBrace] ('}' :: rest) rest := Lexes.sign .closeBrace rfl
    exact ⟨[], rfl, hbrace.blanks (newLine_isBlank depth)⟩
  | p :: ps =>
    obtain ⟨ts, hts, hmore⟩ := writeMore_lexes depth ps rest hps.2
    obtain ⟨t, hpattern, ht⟩ := write_lexes (depth + 1) p _ hps.1 (head_writeMore depth _ rest)
    have hline := (ht.append hmore).blanks (newLine_isBlank (depth + 1))
    refine ⟨t :: ts, ?_, hline.sign .comma⟩
    rw [patternAll, hts, hpattern]
    rfl

end

end Pattern

/-- **The text of a pattern denotes the pattern**, but for the flags without a name. -/
theorem Pattern.ofText_text {p : Pattern} (h : p.Ordered) : ofText p.text = .ok p.named := by
  obtain ⟨t, ht, hlexes⟩ := write_lexes 0 p [] h nofun
  rw [← ht]
  exact ofText_of_mem_documents (mem_documents_iff.2 hlexes)

end Lexigraph
