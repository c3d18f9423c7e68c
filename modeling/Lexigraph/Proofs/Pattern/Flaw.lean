/-
# Lexigraph.Proofs.Pattern.Flaw -- what is wrong where a text is not read

An error of a reader has the offset of a flaw of the text. Some lexemes were taken from the text up
to there, all of which can begin a node, and `Flawed` says for each kind of error which lexeme would
have to come and what stands there instead.

A reader that fails is gone through from the front: what its parts took before the one that fails
are more lexemes, and the part that fails has its own flaw behind them.
-/

import Lexigraph.Proofs.Pattern.Derived
import Lexigraph.Proofs.Pattern.Forward
import Lexigraph.Proofs.Pattern.Unambiguous

namespace Lexigraph

open Text (pastBlanks)
open Phrase

/-! ## Flaws -/

namespace Phrase

/-- The lexemes begin those of some node. -/
def Begins (ls : List Lexeme) : Prop := ∃ p : Phrase, ls <+: p.lexemes

theorem Begins.shorter {ls ls' : List Lexeme} (h : Begins ls') (hls : ls <+: ls') :
    Begins ls := by
  obtain ⟨p, hp⟩ := h
  exact ⟨p, hls.trans hp⟩

/-- The cursor stands in the text behind those lexemes, but for blanks. -/
structure Behind (text : List Char) (ls : List Lexeme) (c : Cursor) : Prop where
  stands : c.Stands text
  lexes : Lexes ls text c.rest

end Phrase

/-- What is wrong with a text inside of a node, where an error of a reader says that it is. -/
inductive Flawed (text : List Char) : ReadError → Prop where
  /-- A lexeme is missing there. -/
  | expected {c : Cursor} {wanted : Wanted} (here : c.Stands text) :
      Flawed text (.expected wanted c.offset)
  /-- There is the sign of an annotation, and behind it a name that is none. -/
  | unknownFlag {ls : List Lexeme} {c : Cursor} {name : String} {rest : List Char}
      (here : Behind text ls c) (begins : Begins (ls ++ [.error]))
      (rest_eq : c.rest = '@' :: (name.toList ++ rest))
      (named : ∀ d ∈ name.toList, Text.isNameChar d = true)
      (ends : ∀ d ∈ rest.head?, Text.isNameChar d = false)
      (not_error : name ≠ "error") (not_flag : ∀ f : Flag, f.name ≠ name) :
      Flawed text (.unknownFlag name c.offset)
  /-- There are digits where a count has to come, and they are none, or not a number of 32 bits. -/
  | invalidCount {ls : List Lexeme} {c : Cursor} {digits rest : List Char}
      (here : Behind text ls c) (begins : ∃ n : Count, Begins (ls ++ [.word n.word]))
      (rest_eq : c.rest = digits ++ rest) (all : ∀ d ∈ digits, d.isDigit = true)
      (ends : ∀ d ∈ rest.head?, d.isDigit = false)
      (bad : digits = [] ∨ UInt32.size ≤ Nat.ofDigitChars 10 digits 0) :
      Flawed text (.invalidCount c.offset)
  /-- From there on a quoted string has to come, and its quote is not closed before the text ends.
  Blanks stand in front of the quote only behind the parenthesis of a message. -/
  | unterminatedString {ls : List Lexeme} {c : Cursor} {gs : List Glyph}
      (here : Behind text ls c) (begins : ∀ q : Quotation, Begins (ls ++ [.quotation q]))
      (quote : pastBlanks c.rest = '"' :: gs.flatMap Glyph.text)
      (place : c.rest.head? = some '"' ∨
        (∃ ls', ls = ls' ++ [.error, .sign .openParen]) ∧ ∃ front, text = front ++ '(' :: c.rest) :
      Flawed text (.unterminatedString c.offset)
  /-- In a quoted string there is a backslash there, with which no glyph begins. -/
  | invalidEscape {ls : List Lexeme} {o : Nat} {gs : List Glyph} {rest : List Char}
      (here : Behind text ls ⟨'"' :: (gs.flatMap Glyph.text ++ '\\' :: rest), o⟩)
      (begins : ∀ q : Quotation, Begins (ls ++ [.quotation q]))
      (bad : ∀ g : Glyph, ¬ g.text <+: '\\' :: rest) :
      Flawed text (.invalidEscape (o + Text.size ('"' :: gs.flatMap Glyph.text)))
  /-- There is the parenthesis of a terminal, behind which no arrow comes. -/
  | missingToken {ls : List Lexeme} {c : Cursor} {first : Quotation} {others : List Quotation}
      {rest : List Char} (here : Behind text ls c) (begins : Begins (ls ++ [.sign .openParen]))
      (paren : c.rest.head? = some '(')
      (terminal : Lexes (.sign .openParen :: .quotation first ::
        (literalLexemes others ++ [.sign .closeParen])) c.rest rest)
      (bare : ¬ ['-', '>'] <+: pastBlanks rest) :
      Flawed text (.missingToken c.offset)
  /-- The bounds of a repetition are not in order, which has no offset. -/
  | grammar (e : GrammarError) : Flawed text (.grammar e)

/-! ## Runs that fail -/

section Fail

variable {ε α β : Type} {r : StateT Cursor (Except ε) α} {f : α → StateT Cursor (Except ε) β}
  {c : Cursor} {e : ε}

/-- A chain fails where its first link fails, or behind it. -/
theorem bind_error (h : (r >>= f) c = .error e) :
    r c = .error e ∨ ∃ a c', r c = .ok (a, c') ∧ f a c' = .error e := by
  cases hr : r c with
  | error e' =>
    have hbind : (r >>= f) c = (r c >>= fun p => f p.1 p.2 : Except ε (β × Cursor)) := rfl
    rw [hbind, hr] at h
    cases h
    exact .inl rfl
  | ok p =>
    rw [bind_eq_of_ok hr] at h
    exact .inr ⟨p.1, p.2, rfl, h⟩

/-- A link that always takes something is passed. -/
theorem bind_error_takes {a : α} {rest : List Char} (h : (r >>= f) c = .error e)
    (hr : Takes r c.rest a rest) :
    ∃ o, r c = .ok (a, ⟨rest, o⟩) ∧ f a ⟨rest, o⟩ = .error e := by
  obtain ⟨o, hok⟩ := hr c.offset
  rw [bind_eq_of_ok hok] at h
  exact ⟨o, hok, h⟩

theorem offset_bind {f : Nat → Reader β} : (Reader.offset >>= f) c = f c.offset c := rfl

theorem peek?_bind {f : Option Char → Reader β} : (Reader.peek? >>= f) c = f c.rest.head? c := rfl

theorem took_of_ok {a : α} {c' : Cursor} (h : r c = .ok (a, c')) : Took r c.rest a c'.rest :=
  ⟨c.offset, c'.offset, h⟩

theorem lift_error {r : Reader α} {m : Misread} (h : (liftM r : PatternReader α) c = .error m) :
    r c = .error m.error := by
  rw [PatternReader.lift_apply] at h
  cases hr : r c with
  | error e =>
    rw [hr] at h
    cases h
    rfl
  | ok p =>
    rw [hr] at h
    cases h

theorem after_error {r : PatternReader α} {done : Unit → List Pattern} {m : Misread}
    (h : PatternReader.after done r c = .error m) : ∃ m', r c = .error m' ∧ m'.error = m.error := by
  unfold PatternReader.after at h
  cases hr : r c with
  | error m' =>
    rw [hr] at h
    cases h
    exact ⟨m', rfl, rfl⟩
  | ok p =>
    rw [hr] at h
    cases h

end Fail

namespace Phrase

variable {α ε : Type} {text : List Char} {ls more : List Lexeme} {c c' : Cursor}

/-- Behind the lexemes any node may come. -/
def RoomFor (ls : List Lexeme) : Prop := ∀ p : Phrase, Begins (ls ++ p.lexemes)

theorem RoomFor.mark {ls : List Lexeme} (h : RoomFor ls) (m : Mark) :
    RoomFor (ls ++ m.lexemes) := by
  rintro ⟨marks, body, next⟩
  have hmore := h (.mk (m :: marks) body next)
  rw [lexemes, List.flatMap_cons, List.append_assoc, ← List.append_assoc] at hmore
  exact hmore

theorem RoomFor.begins_mark {ls k : List Lexeme} (h : RoomFor ls) (m : Mark)
    (hk : k <+: m.lexemes) : Begins (ls ++ k) := by
  refine (h.mark m (.mk [] (.choice none) .none)).shorter ?_
  rw [List.append_assoc, List.prefix_append_right_inj]
  exact hk.trans (List.prefix_append ..)

/-- At the beginning of a text no lexeme was taken. -/
theorem behind_nil (text : List Char) : Behind text [] (.ofText text) := ⟨.refl _, rfl⟩

theorem Behind.ahead (h : Behind text ls c) (hahead : c.Ahead c')
    (hmore : Lexes more c.rest c'.rest) : Behind text (ls ++ more) c' :=
  ⟨h.stands.trans hahead, h.lexes.append hmore⟩

/-- What a reader took are more lexemes. -/
theorem Behind.took {r : StateT Cursor (Except ε) α} {a : α} (h : Behind text ls c)
    (hr : Forward r) (hok : r c = .ok (a, c')) (hmore : Lexes more c.rest c'.rest) :
    Behind text (ls ++ more) c' :=
  h.ahead (hr.ahead hok) hmore

/-- Blanks are no lexeme. -/
theorem Behind.blanks {r : StateT Cursor (Except ε) α} {a : α} (h : Behind text ls c)
    (hr : Forward r) (hok : r c = .ok (a, c')) (hrest : c'.rest = pastBlanks c.rest) :
    Behind text ls c' := by
  have hmore : Lexes [] c.rest c'.rest := by
    rw [hrest]
    exact lexes_nil c.rest
  have hbehind := h.took hr hok hmore
  rwa [List.append_nil] at hbehind

end Phrase


/-! ## Delimiters -/

namespace Reader

variable {text rest : List Char} {ls : List Lexeme} {c c' : Cursor} {d : Char} {e : ReadError}

theorem eat_ne_error : eat d c ≠ .error e := by
  unfold eat
  split <;> nofun

theorem takeWhile_ne_error {p : Char → Bool} : takeWhile p c ≠ .error e := nofun

/-- A character that was taken stood in front of what is left. -/
theorem eat_ok (h : eat d c = .ok (true, c')) : ∃ o, c = ⟨d :: c'.rest, o⟩ ∧
    c'.offset = o + d.utf8Size := by
  rcases c with ⟨_ | ⟨f, rest⟩, o⟩
  · cases h
  · unfold eat at h
    dsimp only at h
    split_ifs at h with heq
    · subst heq
      cases h
      exact ⟨o, rfl, rfl⟩
    · cases h

/-- A delimiter that was taken is a lexeme more. -/
theorem eat_behind (hc : Behind text ls c) (s : Sign) (hs : s.text = [d])
    (h : eat d c = .ok (true, c')) : Behind text (ls ++ [.sign s]) c' := by
  obtain ⟨o, hrest, -⟩ := eat_ok h
  refine hc.ahead ((eat_forward _).ahead h) ?_
  rw [hrest, show d :: c'.rest = s.text ++ c'.rest by rw [hs]; rfl]
  exact .sign s (show Lexes [] c'.rest c'.rest from rfl)

/-- A delimiter is missing past the blanks. -/
theorem expect_error {wanted : Wanted} (h : expect d wanted c = .error e) :
    ∃ c', c.Ahead c' ∧ e = .expected wanted c'.offset := by
  obtain ⟨o, hskip, h⟩ := bind_error_takes h (skipBlank_takes rfl)
  rcases bind_error h with h | ⟨taken, c', heat, h⟩
  · exact absurd h eat_ne_error
  · have hahead := (skipBlank_forward.ahead hskip).trans ((eat_forward d).ahead heat)
    cases taken with
    | true => cases h
    | false =>
      cases h
      exact ⟨c', hahead, rfl⟩

theorem expect_flawed {wanted : Wanted} (hc : c.Stands text)
    (h : expect d wanted c = .error e) : Flawed text e := by
  obtain ⟨c', hahead, rfl⟩ := expect_error h
  exact .expected (hc.trans hahead)

/-- The delimiter stands in front of what is left. -/
theorem expect_ok {wanted : Wanted} {u : Unit} (h : expect d wanted c = .ok (u, c')) :
    ∃ o, c.Ahead ⟨d :: c'.rest, o⟩ ∧ pastBlanks c.rest = d :: c'.rest ∧
      c'.offset = o + d.utf8Size := by
  have hskips : Takes skipBlank c.rest ⟨⟩ (pastBlanks c.rest) := skipBlank_takes rfl
  obtain ⟨o, hskip⟩ := hskips c.offset
  have hahead := skipBlank_forward.ahead hskip
  unfold expect at h
  rw [bind_eq_of_ok hskip] at h
  cases heat : eat d ⟨pastBlanks c.rest, o⟩ with
  | error e => exact absurd heat eat_ne_error
  | ok p =>
    obtain ⟨taken, c''⟩ := p
    rw [bind_eq_of_ok heat] at h
    cases taken with
    | false => cases h
    | true =>
      cases h
      obtain ⟨o', hc, hoffset⟩ := eat_ok heat
      rw [hc] at hahead
      exact ⟨o', hahead, congrArg Cursor.rest hc, hoffset⟩

theorem expect_behind {wanted : Wanted} {u : Unit} (hc : Behind text ls c) (s : Sign)
    (hs : s.text = [d]) (h : expect d wanted c = .ok (u, c')) :
    Behind text (ls ++ [.sign s]) c' := by
  refine hc.took (expect_forward d wanted) h ⟨c'.rest, ?_, nofun, rfl⟩
  rw [took_expect (took_of_ok h), Lexeme.text, hs]
  rfl

/-! ## Quoted strings -/

/-- No glyph begins with a backslash and a letter that stands for nothing. -/
theorem no_glyph_escape (h : ∀ d ∈ text.head?, d ≠ 'u' ∧ unescape? d = none) (g : Glyph) :
    ¬ g.text <+: '\\' :: text := by
  rintro ⟨rest, hrest⟩
  cases g with
  | plain d hquote hback => exact hback (List.cons_eq_cons.1 hrest).1
  | escape letter d known =>
    obtain rfl : letter :: rest = text := (List.cons_eq_cons.1 hrest).2
    rw [mem_escapes_iff, (h letter rfl).2] at known
    cases known
  | code digits d =>
    obtain rfl : 'u' :: _ = text := (List.cons_eq_cons.1 hrest).2
    exact (h 'u' rfl).1 rfl

/-- A glyph with a backslash and the letter of a code point is a code point. -/
theorem code_of_glyph {g : Glyph} (h : g.text <+: '\\' :: 'u' :: text) :
    ∃ (digits : List (Char × Nat)) (d : Char) (rest : List Char), digits ≠ [] ∧
      (∀ e ∈ digits, e ∈ hexDigits) ∧ hexValue digits = d.toNat ∧
        text = '\x7b' :: (digits.map Prod.fst ++ '}' :: rest) := by
  obtain ⟨rest, hrest⟩ := h
  cases g with
  | plain d hquote hback => exact absurd (List.cons_eq_cons.1 hrest).1 hback
  | escape letter d known =>
    obtain ⟨hletter, -⟩ := List.cons_eq_cons.1 (List.cons_eq_cons.1 hrest).2
    exact absurd hletter (escapes_ne_u _ known)
  | code digits d nonempty hex named =>
    refine ⟨digits, d, rest, nonempty, hex, named, ?_⟩
    have htext := (List.cons_eq_cons.1 (List.cons_eq_cons.1 hrest).2).2
    rw [← htext, List.append_eq, List.cons_append, List.append_assoc, List.singleton_append]

/-- A code point stands between braces. -/
theorem no_glyph_code (h : ∀ d ∈ text.head?, d ≠ '\x7b') (g : Glyph) :
    ¬ g.text <+: '\\' :: 'u' :: text := by
  intro hg
  obtain ⟨digits, d, rest, -, -, -, rfl⟩ := code_of_glyph hg
  exact h '\x7b' rfl rfl

/-- Hexadecimal digits end at the brace, and have to name a character. -/
theorem no_glyph_digits {digits : List (Char × Nat)} (hdigits : ∀ d ∈ digits, d ∈ hexDigits)
    (h : ∀ d ∈ text.head?, hexDigit? d = none)
    (hbrace : text.head? = some '}' → (hexValue? digits).bind charOfCode? = none) (g : Glyph) :
    ¬ g.text <+: '\\' :: 'u' :: '\x7b' :: (digits.map Prod.fst ++ text) := by
  intro hg
  obtain ⟨digits', d, rest, hnonempty, hdigits', hnamed, hcode⟩ := code_of_glyph hg
  -- both runs of digits go as far as they can, so they are the same
  have hrun {ds : List (Char × Nat)} (hds : ∀ d ∈ ds, d ∈ hexDigits) :
      ∀ c ∈ ds.map Prod.fst, (hexDigit? c).isSome = true := by
    intro c hc
    obtain ⟨e, he, rfl⟩ := List.mem_map.1 hc
    rw [mem_hexDigits_iff.1 (hds e he)]
    rfl
  have hclose : ∀ c ∈ ('}' :: rest).head?, (hexDigit? c).isSome = false := by
    rintro c ⟨⟩
    decide
  have hends : ∀ c ∈ text.head?, (hexDigit? c).isSome = false := fun c hc => by rw [h c hc]; rfl
  obtain ⟨hsame, rfl⟩ :=
    run_unique (hrun hdigits) hends (hrun hdigits') hclose (List.cons_eq_cons.1 hcode).2
  obtain rfl := digits_unique hdigits hdigits' hsame
  have hnone := hbrace rfl
  rw [hexValue?, if_neg hnonempty, hnamed, Option.bind_some, charOfCode?_toNat] at hnone
  cases hnone

/-- An escape is known by the offset of what was begun. -/
def BeginsAt (offset : Nat) : QuotedPart → Prop
  | .plain => True
  | .escape backslash | .code backslash | .digits backslash _ => backslash = offset

section Unquote

variable {start origin offset : Nat} {part : QuotedPart} {front read : List Char}

/-- At the end of a text the string is not closed, or an escape has no end. -/
theorem unquote_nil_error (hfront : Begun part front) (hplace : BeginsAt origin part)
    (h : unquote start part read offset [] = .error e) :
    (e = .unterminatedString start ∧ front = []) ∨
      (e = .invalidEscape origin ∧ (∃ rest, front = '\\' :: rest) ∧
        ∀ g : Glyph, ¬ g.text <+: front) := by
  cases part with
  | plain => exact .inl ⟨(Except.error.inj h).symm, hfront⟩
  | escape backslash =>
    obtain rfl : backslash = origin := hplace
    obtain rfl : front = _ := hfront
    exact .inr ⟨(Except.error.inj h).symm, ⟨_, rfl⟩, no_glyph_escape nofun⟩
  | code backslash =>
    obtain rfl : backslash = origin := hplace
    obtain rfl : front = _ := hfront
    exact .inr ⟨(Except.error.inj h).symm, ⟨_, rfl⟩, no_glyph_code nofun⟩
  | digits backslash value =>
    obtain rfl : backslash = origin := hplace
    obtain ⟨digits, hdigits, rfl, rfl⟩ := hfront
    refine .inr ⟨(Except.error.inj h).symm, ⟨_, rfl⟩, fun g hg => ?_⟩
    rw [← List.append_nil (digits.map Prod.fst)] at hg
    have hend : ∀ d ∈ ([] : List Char).head?, hexDigit? d = none := nofun
    exact no_glyph_digits hdigits hend nofun g hg

/-- What one character of a quoted string does that is not read: it goes on with a glyph, or it ends
one, or there is no glyph that goes on with it. -/
theorem unquote_cons_error (hfront : Begun part front) (hplace : BeginsAt origin part)
    (hoffset : offset = origin + Text.size front)
    (h : unquote start part read offset (d :: text) = .error e) :
    (∃ part', Begun part' (front ++ [d]) ∧ BeginsAt origin part' ∧
      unquote start part' read (offset + d.utf8Size) text = .error e) ∨
    (∃ g : Glyph, front ++ [d] = g.text ∧
      unquote start .plain (g.char :: read) (offset + d.utf8Size) text = .error e) ∨
    (e = .invalidEscape origin ∧ (∃ rest, front = '\\' :: rest) ∧
      ∀ g : Glyph, ¬ g.text <+: front ++ d :: text) := by
  cases part with
  | plain =>
    obtain rfl : front = _ := hfront
    simp only [unquote] at h
    split_ifs at h with hquote hback
    · subst hback
      exact .inl ⟨.escape offset, rfl, hoffset, h⟩
    · exact .inr (.inl ⟨.plain d hquote hback, rfl, h⟩)
  | escape backslash =>
    obtain rfl : backslash = origin := hplace
    obtain rfl : front = _ := hfront
    simp only [unquote] at h
    split_ifs at h with hu
    · subst hu
      exact .inl ⟨.code backslash, rfl, rfl, h⟩
    · split at h
      · next f hf => exact .inr (.inl ⟨.escape d f (mem_escapes_iff.2 hf), rfl, h⟩)
      · next hnone =>
        refine .inr (.inr ⟨(Except.error.inj h).symm, ⟨_, rfl⟩, no_glyph_escape ?_⟩)
        rintro _ ⟨⟩
        exact ⟨hu, hnone⟩
  | code backslash =>
    obtain rfl : backslash = origin := hplace
    obtain rfl : front = _ := hfront
    simp only [unquote] at h
    split_ifs at h with hbrace
    · subst hbrace
      exact .inl ⟨.digits backslash none, ⟨[], List.forall_mem_nil _, rfl, rfl⟩, rfl, h⟩
    · refine .inr (.inr ⟨(Except.error.inj h).symm, ⟨_, rfl⟩, no_glyph_code ?_⟩)
      rintro _ ⟨⟩
      exact hbrace
  | digits backslash value =>
    obtain rfl : backslash = origin := hplace
    simp only [unquote] at h
    -- where the digits end there is no glyph, unless they name a character before the brace
    have hbad (hd : hexDigit? d = none) (hvalue : d = '}' → value.bind charOfCode? = none) :
        (∃ rest, front = '\\' :: rest) ∧ ∀ g : Glyph, ¬ g.text <+: front ++ d :: text := by
      obtain ⟨digits, hdigits, rfl, rfl⟩ := hfront
      refine ⟨⟨_, rfl⟩, no_glyph_digits hdigits ?_ fun hhead => hvalue (Option.some.inj hhead)⟩
      rintro _ ⟨⟩
      exact hd
    split_ifs at h with hbrace
    · split at h
      · next f hf =>
        obtain ⟨g, hg, rfl⟩ := hfront.exists_glyph hf
        subst hbrace
        exact .inr (.inl ⟨g, hg, h⟩)
      · next hnone =>
        refine .inr (.inr ⟨(Except.error.inj h).symm, hbad ?_ fun _ => hnone⟩)
        rw [hbrace]
        decide
    · split at h
      · next f hf => exact .inl ⟨_, hfront.digit hf, rfl, h⟩
      · next hnone =>
        exact .inr (.inr ⟨(Except.error.inj h).symm, hbad hnone fun hd => absurd hd hbrace⟩)

/-- What is left of a quoted string that is not read is glyphs up to the end of the text, or up to a
backslash with which none begins. -/
theorem unquote_error (hfront : Begun part front) (hplace : BeginsAt origin part)
    (hoffset : offset = origin + Text.size front)
    (h : unquote start part read offset text = .error e) :
    (e = .unterminatedString start ∧ ∃ gs : List Glyph, front ++ text = gs.flatMap Glyph.text) ∨
    ∃ (gs : List Glyph) (rest : List Char),
      e = .invalidEscape (origin + Text.size (gs.flatMap Glyph.text)) ∧
      front ++ text = gs.flatMap Glyph.text ++ '\\' :: rest ∧
      ∀ g : Glyph, ¬ g.text <+: '\\' :: rest := by
  induction text generalizing part front read offset origin with
  | nil =>
    rw [List.append_nil]
    rcases unquote_nil_error hfront hplace h with ⟨rfl, rfl⟩ | ⟨rfl, ⟨rest, rfl⟩, hbad⟩
    · exact .inl ⟨rfl, [], rfl⟩
    · exact .inr ⟨[], rest, rfl, rfl, hbad⟩
  | cons d text ih =>
    have hsplit : front ++ d :: text = (front ++ [d]) ++ text := by simp
    have hnext : offset + d.utf8Size = origin + Text.size (front ++ [d]) := by
      rw [hoffset, Text.size_append, Text.size_cons, Text.size_nil]
      omega
    rcases unquote_cons_error hfront hplace hoffset h with
      ⟨part', hfront', hplace', h⟩ | ⟨g, hg, h⟩ | ⟨rfl, ⟨rest, rfl⟩, hbad⟩
    · rw [hsplit]
      exact ih hfront' hplace' hnext h
    · have hstart : offset + d.utf8Size = offset + d.utf8Size + Text.size [] := rfl
      rcases ih begun_plain trivial hstart h with ⟨rfl, gs, hgs⟩ | ⟨gs, rest, rfl, hgs, hbad⟩
      · refine .inl ⟨rfl, g :: gs, ?_⟩
        rw [hsplit, hg, List.flatMap_cons, ← hgs]
        rfl
      · refine .inr ⟨g :: gs, rest, ?_, ?_, hbad⟩
        · rw [hnext, hg, List.flatMap_cons, Text.size_append, Nat.add_assoc]
        · rw [hsplit, hg, List.flatMap_cons, List.append_assoc, ← hgs]
          rfl
    · exact .inr ⟨[], _, rfl, rfl, hbad⟩

end Unquote

/-- Where a quoted string is looked for, its quote is in front, but for blanks behind the
parenthesis of a message. -/
def QuotePlace (text : List Char) (ls : List Lexeme) (c : Cursor) : Prop :=
  pastBlanks c.rest = c.rest ∨
    (∃ ls', ls = ls' ++ [.error, .sign .openParen]) ∧ ∃ front, text = front ++ '(' :: c.rest

theorem quoted_flawed (hc : Behind text ls c) (hplace : QuotePlace text ls c)
    (hbegins : ∀ q : Quotation, Begins (ls ++ [.quotation q])) (h : quoted c = .error e) :
    Flawed text e := by
  unfold quoted at h
  rw [offset_bind] at h
  rcases bind_error h with h | ⟨u, c', hok, h⟩
  · exact expect_flawed hc.stands h
  obtain ⟨o, hahead, hquote, hoffset⟩ := expect_ok hok
  have hfront : c'.offset = c'.offset + Text.size [] := rfl
  split at h
  · cases h
  next e' herr =>
  obtain rfl := Except.error.inj h
  rcases unquote_error begun_plain trivial hfront herr with
    ⟨rfl, gs, hgs⟩ | ⟨gs, rest, rfl, hgs, hbad⟩
  · rw [List.nil_append] at hgs
    refine .unterminatedString hc hbegins (hgs ▸ hquote) ?_
    rcases hplace with hpast | hmessage
    · rw [← hpast, hquote]
      exact .inl rfl
    · exact .inr hmessage
  · rw [List.nil_append] at hgs
    have hmore : Lexes [] c.rest ('"' :: c'.rest) := by
      rw [← hquote]
      exact lexes_nil c.rest
    have hhere := hc.ahead hahead hmore
    rw [List.append_nil, hgs] at hhere
    have hflaw := Flawed.invalidEscape hhere hbegins hbad
    rw [Text.size_cons, ← Nat.add_assoc, ← hoffset] at hflaw
    exact hflaw

/-! ## Names, counts, annotations -/

theorem token?_flawed (hc : Behind text ls c)
    (hbegins : ∀ n : Naming, Begins (ls ++ n.lexemes)) (h : token? c = .error e) :
    Flawed text e := by
  obtain ⟨o, hskip, h⟩ := bind_error_takes h (skipBlank_takes rfl)
  have hc := hc.blanks skipBlank_forward hskip rfl
  rw [get_bind] at h
  dsimp only at h
  generalize pastBlanks c.rest = left at h hc
  split at h
  · next mid =>
    obtain ⟨o, hdash, h⟩ := bind_error_takes h (eat_takes '-' _)
    obtain ⟨o', hangle, h⟩ := bind_error_takes h (eat_takes '>' mid)
    have hahead := ((eat_forward _).ahead hdash).trans ((eat_forward _).ahead hangle)
    have harrow : Behind text (ls ++ [.sign .arrow]) ⟨mid, o'⟩ :=
      hc.ahead hahead (.sign .arrow (show Lexes [] mid mid from rfl))
    obtain ⟨o'', hskip, h⟩ := bind_error_takes h (skipBlank_takes rfl)
    have hname := harrow.blanks skipBlank_forward hskip rfl
    rw [peek?_bind] at h
    split_ifs at h
    · rcases bind_error h with h | ⟨_, _, _, h⟩
      · refine quoted_flawed hname (.inl (Text.pastBlanks_pastBlanks mid)) (fun q => ?_) h
        rw [List.append_assoc]
        exact hbegins (.quoted q)
      · cases h
    · rcases bind_error h with h | ⟨name, c', hrun, h⟩
      · exact absurd h takeWhile_ne_error
      · split at h
        · cases h
          exact .expected (hname.stands.trans ((takeWhile_forward _).ahead hrun))
        · cases h
  · cases h

/-- Digits that are no count. -/
theorem count_flawed (hc : Behind text ls c)
    (hbegins : ∃ n : Count, Begins (ls ++ [.word n.word])) (h : count c = .error e) :
    Flawed text e := by
  obtain ⟨o, hskip, h⟩ := bind_error_takes h (skipBlank_takes rfl)
  have hc := hc.blanks skipBlank_forward hskip rfl
  rw [offset_bind] at h
  rcases bind_error h with h | ⟨run, c', hrun, h⟩
  · exact absurd h takeWhile_ne_error
  obtain ⟨hrest, hall, hends⟩ := took_takeWhile (took_of_ok hrun)
  split at h
  · cases h
    exact .invalidCount hc hbegins hrest hall hends (.inl rfl)
  · dsimp only at h
    split_ifs at h with hsmall
    · cases h
    · cases h
      exact .invalidCount hc hbegins hrest hall hends (.inr (Nat.not_lt.1 hsmall))

/-- One. -/
def one : Count := ⟨['1'], List.cons_ne_nil _ _, List.forall_mem_singleton.2 rfl, by decide⟩

theorem bounds_flawed (hc : Behind text ls c)
    (hbegins : ∀ b : Bounds, b.Ordered → Begins (ls ++ b.lexemes)) (h : bounds c = .error e) :
    Flawed text e := by
  obtain ⟨o, hskip, h⟩ := bind_error_takes h (skipBlank_takes rfl)
  have hc := hc.blanks skipBlank_forward hskip rfl
  rcases bind_error h with h | ⟨taken, c', heat, h⟩
  · exact absurd h eat_ne_error
  cases taken with
  | false => cases h
  | true =>
    have hc' := eat_behind hc .comma rfl heat
    rcases bind_error h with h | ⟨min, c'', hmin, h⟩
    · refine count_flawed hc' ⟨one, ?_⟩ h
      rw [List.append_assoc]
      exact hbegins (.least one) nofun
    obtain ⟨n, rfl, hn⟩ := took_count (took_of_ok hmin)
    obtain ⟨o', hskip, h⟩ := bind_error_takes h (skipBlank_takes rfl)
    rcases bind_error h with h | ⟨taken, d, heat, h⟩
    · exact absurd h eat_ne_error
    cases taken with
    | false => cases h
    | true =>
      obtain ⟨_, hcomma, -⟩ := eat_ok heat
      have hnext : pastBlanks c''.rest = ',' :: d.rest := congrArg Cursor.rest hcomma
      -- the first count ends where the comma comes
      have hword : Lexes [.word n.word, .sign .comma] c'.rest d.rest :=
        ⟨c''.rest, hn, fun _ => ends_of_delimiter (by decide) hnext, d.rest, hnext, nofun, rfl⟩
      have hahead := ((count_forward.ahead hmin).trans (skipBlank_forward.ahead hskip)).trans
        ((eat_forward _).ahead heat)
      rcases bind_error h with h | ⟨_, _, _, h⟩
      · refine count_flawed (hc'.ahead hahead hword) ⟨n, ?_⟩ h
        rw [List.append_assoc, List.append_assoc]
        refine hbegins (.both n n) ?_
        rintro _ ⟨⟩
        exact UInt32.le_refl _
      · cases h

theorem literals_flawed {fuel : Nat} {found : List String} (hc : Behind text ls c)
    (hbegins : ∀ others, Begins (ls ++ literalLexemes others))
    (h : literals fuel found c = .error e) : Flawed text e := by
  induction fuel generalizing ls c found with
  | zero =>
    obtain ⟨o, hskip, h⟩ := bind_error_takes h (skipBlank_takes rfl)
    cases h
  | succ fuel ih =>
    obtain ⟨o, hskip, h⟩ := bind_error_takes h (skipBlank_takes rfl)
    have hc := hc.blanks skipBlank_forward hskip rfl
    rcases bind_error h with h | ⟨taken, c', heat, h⟩
    · exact absurd h eat_ne_error
    cases taken with
    | false => cases h
    | true =>
      have hc' := eat_behind hc .bar rfl heat
      obtain ⟨o', hskip, h⟩ := bind_error_takes h (skipBlank_takes rfl)
      have hc' := hc'.blanks skipBlank_forward hskip rfl
      have hliteral (q : Quotation) (others : List Quotation) :
          Begins (ls ++ [.sign .bar] ++ [.quotation q] ++ literalLexemes others) := by
        rw [List.append_assoc, List.append_assoc]
        exact hbegins (q :: others)
      rcases bind_error h with h | ⟨value, c'', hquoted, h⟩
      · refine quoted_flawed hc' (.inl (Text.pastBlanks_pastBlanks _)) (fun q => ?_) h
        exact List.append_nil (_ ++ [Lexeme.quotation q]) ▸ hliteral q []
      · obtain ⟨q, -, hq⟩ := took_quoted (took_of_ok hquoted)
        have hlexes : Lexes [.quotation q] (pastBlanks c'.rest) c''.rest := ⟨_, hq, nofun, rfl⟩
        exact ih (hc'.took quoted_forward hquoted hlexes) (hliteral q) h

/-- The message of an annotation, with what is gone on with behind it. -/
theorem message_flawed {α : Type} {f : String → Reader α} (hc : Behind text (ls ++ [.error]) c)
    (hroom : RoomFor ls) (hf : ∀ (q : Quotation) (c' : Cursor),
      Behind text (ls ++ (Mark.error q).lexemes) c' → f q.value c' = .error e → Flawed text e)
    (h : (do
      expect '(' .openParen
      let message ← quoted
      expect ')' .closeParen
      f message) c = .error e) : Flawed text e := by
  rcases bind_error h with h | ⟨_, opened, hopen, h⟩
  · exact expect_flawed hc.stands h
  have hopened := expect_behind hc .openParen rfl hopen
  rw [List.append_assoc] at hopened
  have hplace : QuotePlace text (ls ++ ([.error] ++ [.sign .openParen])) opened := by
    obtain ⟨_, hparen, -, -⟩ := expect_ok hopen
    obtain ⟨front, hfront, -⟩ := hc.stands.trans hparen
    exact .inr ⟨⟨ls, rfl⟩, front, hfront⟩
  rcases bind_error h with h | ⟨value, read, hquoted, h⟩
  · refine quoted_flawed hopened hplace (fun q => ?_) h
    rw [List.append_assoc]
    exact hroom.begins_mark (.error q) (List.prefix_append ..)
  obtain ⟨q, rfl, hq⟩ := took_quoted (took_of_ok hquoted)
  have hlexes : Lexes [.quotation q] opened.rest read.rest := ⟨_, hq, nofun, rfl⟩
  have hread := hopened.took quoted_forward hquoted hlexes
  rcases bind_error h with h | ⟨_, closed, hclose, h⟩
  · exact expect_flawed hread.stands h
  have hclosed := expect_behind hread .closeParen rfl hclose
  rw [List.append_assoc, List.append_assoc] at hclosed
  exact hf q closed hclosed h

theorem annotations_flawed {fuel : Nat} {found : Annotations} (hc : Behind text ls c)
    (hroom : RoomFor ls) (h : annotations fuel found c = .error e) : Flawed text e := by
  induction fuel generalizing ls c found with
  | zero =>
    obtain ⟨o, hskip, h⟩ := bind_error_takes h (skipBlank_takes rfl)
    cases h
  | succ fuel ih =>
    obtain ⟨o, hskip, h⟩ := bind_error_takes h (skipBlank_takes rfl)
    have hc := hc.blanks skipBlank_forward hskip rfl
    rw [offset_bind] at h
    rcases bind_error h with h | ⟨taken, c', heat, h⟩
    · exact absurd h eat_ne_error
    cases taken with
    | false => cases h
    | true =>
      obtain ⟨_, hsign, -⟩ := eat_ok heat
      have hsign : pastBlanks c.rest = '@' :: c'.rest := congrArg Cursor.rest hsign
      rcases bind_error h with h | ⟨run, named, hrun, h⟩
      · exact absurd h takeWhile_ne_error
      obtain ⟨hrest, hall, hends⟩ := took_takeWhile (took_of_ok hrun)
      have hahead := ((eat_forward _).ahead heat).trans ((takeWhile_forward _).ahead hrun)
      rw [hrest] at hsign
      -- the name ends where the run does
      have hlexes {l : Lexeme} (hl : l.text = '@' :: run) :
          Lexes [l] (pastBlanks c.rest) named.rest := by
        refine ⟨named.rest, ?_, fun _ => hends, rfl⟩
        rw [Text.pastBlanks_pastBlanks, hsign, hl, List.cons_append]
      dsimp only at h
      split_ifs at h with herror
      · have hname : run = "error".toList := by rw [← herror, String.toList_ofList]
        have hc' := hc.ahead hahead (hlexes (l := .error) (by rw [hname]; rfl))
        exact message_flawed hc' hroom (fun q _ hclosed => ih hclosed (hroom.mark (.error q))) h
      · cases hflag : Flag.named? (String.ofList run) with
        | some f =>
          rw [hflag] at h
          have hname : run = f.name.toList := by rw [name_of_named? hflag, String.toList_ofList]
          have hc' := hc.ahead hahead (hlexes (l := .flag f) (by rw [hname]; rfl))
          exact ih hc' (hroom.mark (.flag f)) h
        | none =>
          rw [hflag] at h
          cases h
          have hbegins : Begins (ls ++ [.error]) :=
            hroom.begins_mark (.error ⟨[]⟩) (List.prefix_append ..)
          refine .unknownFlag hc hbegins ?_ ?_ hends herror ?_
          · rw [String.toList_ofList]
            exact hsign
          · rwa [String.toList_ofList]
          · intro f hf
            rw [← hf, Flag.named?_name] at hflag
            cases hflag

end Reader

end Lexigraph
