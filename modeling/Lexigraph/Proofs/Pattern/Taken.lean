/-
# Lexigraph.Proofs.Pattern.Taken -- what readers of lexemes take

`Took` says what some run of a reader took from a text and left of it; a proof goes through the
reader from the front and asks what each part took. Where a reader takes a string, a name, bounds
or annotations, it has found the part of a derivation tree that they are the value of, and the
lexemes of that part can be taken from the text.

Each reader looks at one character to decide how to go on, and goes on as long as it can.
-/

import Lexigraph.Proofs.Pattern.Lexing

namespace Lexigraph

open Text (pastBlanks)
open Phrase

variable {ε α β : Type}

/-! ## Runs of readers -/

/-- From `text` some run of the reader takes `a` and leaves `rest`. -/
def Took (r : StateT Cursor (Except ε) α) (text : List Char) (a : α) (rest : List Char) : Prop :=
  ∃ o o', r ⟨text, o⟩ = .ok (a, ⟨rest, o'⟩)

variable {r : StateT Cursor (Except ε) α} {f : α → StateT Cursor (Except ε) β}
  {text rest : List Char} {a : α} {b : β}

theorem Took.bind (h : Took (r >>= f) text b rest) :
    ∃ a mid, Took r text a mid ∧ Took (f a) mid b rest := by
  obtain ⟨o, o', h⟩ := h
  have hbind : (r >>= f) ⟨text, o⟩ =
      (r ⟨text, o⟩ >>= fun p => f p.1 p.2 : Except ε (β × Cursor)) := rfl
  rw [hbind] at h
  cases hr : r ⟨text, o⟩ with
  | error e =>
    rw [hr] at h
    cases h
  | ok p =>
    obtain ⟨a, mid, o''⟩ := p
    rw [hr] at h
    exact ⟨a, mid, ⟨o, o'', hr⟩, ⟨o'', o', h⟩⟩

/-- What a reader always takes is what it took. -/
theorem Took.eq {a' : α} {rest' : List Char} (h : Took r text a rest)
    (h' : Takes r text a' rest') : a = a' ∧ rest = rest' := by
  obtain ⟨o, o', h⟩ := h
  obtain ⟨o'', h'⟩ := h' o
  rw [h] at h'
  cases h'
  exact ⟨rfl, rfl⟩

/-- A part that always takes the same is passed. -/
theorem Took.bind_takes {a' : α} {mid : List Char} (h : Took (r >>= f) text b rest)
    (h' : Takes r text a' mid) : Took (f a') mid b rest := by
  obtain ⟨a, mid', hr, h⟩ := h.bind
  obtain ⟨rfl, rfl⟩ := hr.eq h'
  exact h

theorem Took.pure {a' : α} (h : Took (pure a' : StateT Cursor (Except ε) α) text a rest) :
    a = a' ∧ rest = text := h.eq (Takes.pure a' text)

theorem Took.get_bind {f : Cursor → StateT Cursor (Except ε) β}
    (h : Took (get >>= f) text b rest) : ∃ o, Took (f ⟨text, o⟩) text b rest := by
  obtain ⟨o, o', h⟩ := h
  exact ⟨o, o, o', h⟩

/-- A reader of lexemes takes among patterns what it takes by itself. -/
theorem Took.lift {r : Reader α} (h : Took (liftM r : PatternReader α) text a rest) :
    Took r text a rest := by
  obtain ⟨o, o', h⟩ := h
  rw [PatternReader.lift_apply] at h
  refine ⟨o, o', ?_⟩
  cases hr : r ⟨text, o⟩ with
  | error e =>
    rw [hr] at h
    cases h
  | ok p =>
    rw [hr] at h
    cases h
    rfl

theorem Took.after {r : PatternReader α} {done : Unit → List Pattern}
    (h : Took (PatternReader.after done r) text a rest) : Took r text a rest := by
  obtain ⟨o, o', h⟩ := h
  refine ⟨o, o', ?_⟩
  unfold PatternReader.after at h
  cases hr : r ⟨text, o⟩ with
  | error e =>
    rw [hr] at h
    cases h
  | ok p =>
    rw [hr] at h
    cases h
    rfl

namespace Reader

theorem took_offset {o : Nat} (h : Took offset text o rest) : rest = text := by
  obtain ⟨o, o', h⟩ := h
  cases h
  rfl

/-- A run is taken as far as it goes. -/
theorem took_takeWhile {p : Char → Bool} {run : List Char}
    (h : Took (takeWhile p) text run rest) :
    text = run ++ rest ∧ (∀ c ∈ run, p c = true) ∧ ∀ c ∈ rest.head?, p c = false := by
  obtain ⟨o, o', h⟩ := h
  cases h
  refine ⟨List.takeWhile_append_dropWhile.symm, fun c hc => List.mem_takeWhile_imp hc, ?_⟩
  intro c hc
  have hstop := List.head?_dropWhile_not p text
  rw [hc] at hstop
  exact hstop

theorem took_eat {c : Char} {taken : Bool} (h : Took (eat c) text taken rest) :
    (taken = true ∧ text = c :: rest) ∨ (taken = false ∧ rest = text ∧ text.head? ≠ some c) := by
  by_cases hc : text.head? = some c
  · obtain ⟨mid, rfl⟩ := List.head?_eq_some_iff.1 hc
    obtain ⟨htaken, rfl⟩ := h.eq (eat_takes c mid)
    exact .inl ⟨htaken, rfl⟩
  · obtain ⟨htaken, hrest⟩ := h.eq (eat_takes_not hc)
    exact .inr ⟨htaken, hrest, hc⟩

theorem not_took_missing {wanted : Wanted} : ¬ Took (missing wanted) text a rest := by
  rintro ⟨o, o', h⟩
  cases h

theorem not_took_throw {e : ε} :
    ¬ Took (throw e : StateT Cursor (Except ε) α) text a rest := by
  rintro ⟨o, o', h⟩
  cases h

theorem took_expect {c : Char} {wanted : Wanted} {u : Unit}
    (h : Took (expect c wanted) text u rest) : pastBlanks text = c :: rest := by
  have hskip := h.bind_takes (skipBlank_takes rfl)
  obtain ⟨taken, mid, heat, hmid⟩ := hskip.bind
  rcases took_eat heat with ⟨rfl, htext⟩ | ⟨rfl, -, -⟩
  · rw [htext, hmid.pure.2]
  · exact absurd hmid not_took_missing

/-! ## Quoted strings -/

theorem mem_escapes_iff {c d : Char} : (c, d) ∈ escapes ↔ unescape? c = some d := by
  constructor
  · have hall : ∀ e ∈ escapes, unescape? e.1 = some e.2 := by decide
    exact hall (c, d)
  · intro h
    unfold unescape? at h
    split_ifs at h with h₁ h₂ h₃ h₄
    · cases h
      rcases h₁ with rfl | rfl <;> decide
    all_goals
      cases h
      subst c
      decide

theorem mem_hexDigits_iff {c : Char} {n : Nat} : (c, n) ∈ hexDigits ↔ hexDigit? c = some n := by
  constructor
  · have hall : ∀ d ∈ hexDigits, hexDigit? d.1 = some d.2 := by decide
    exact hall (c, n)
  · intro h
    have hlt : c.toNat < 128 := by
      unfold hexDigit? Char.isDigit at h
      split_ifs at h with h₁ h₂ h₃
      · simp only [ge_iff_le, Bool.and_eq_true, decide_eq_true_eq, UInt32.le_iff_toNat_le] at h₁
        exact h₁.2.trans_lt (by decide)
      · exact (UInt32.le_iff_toNat_le.1 h₂.2).trans_lt (by decide)
      · exact (UInt32.le_iff_toNat_le.1 h₃.2).trans_lt (by decide)
    have hall : ∀ m < 128, ∀ n ∈ hexDigit? (Char.ofNat m), (Char.ofNat m, n) ∈ hexDigits := by
      decide +kernel
    have hc := hall c.toNat hlt n
    rw [Char.ofNat_toNat] at hc
    exact hc h

theorem charOfCode?_toNat (c : Char) : charOfCode? c.toNat = some c := by
  unfold charOfCode?
  rw [dif_pos (show c.toNat.isValidChar from c.valid)]
  rfl

theorem charOfCode?_eq_some_iff {n : Nat} {c : Char} : charOfCode? n = some c ↔ n = c.toNat := by
  constructor
  · intro h
    unfold charOfCode? at h
    by_cases hvalid : n.isValidChar
    · rw [dif_pos hvalid] at h
      rw [← Option.some.inj h]
      rfl
    · rw [dif_neg hvalid] at h
      cases h
  · rintro rfl
    exact charOfCode?_toNat c

theorem hexValue_append (digits : List (Char × Nat)) (d : Char × Nat) :
    hexValue (digits ++ [d]) = 16 * hexValue digits + d.2 := by
  unfold hexValue
  rw [List.foldl_append]
  rfl

/-- The number that the digits so far stand for, if there are any. -/
def hexValue? (digits : List (Char × Nat)) : Option Nat :=
  if digits = [] then none else some (hexValue digits)

theorem hexValue?_append (digits : List (Char × Nat)) (d : Char × Nat) :
    hexValue? (digits ++ [d]) = some (16 * (hexValue? digits).getD 0 + d.2) := by
  unfold hexValue?
  rw [if_neg (by simp), hexValue_append]
  split_ifs with hnil
  · rw [hnil]
    rfl
  · rfl

/-- What stands in front of a part of a quoted string and has been read as no character yet. -/
def Begun : QuotedPart → List Char → Prop
  | .plain, front => front = []
  | .escape _, front => front = ['\\']
  | .code _, front => front = ['\\', 'u']
  | .digits _ value, front => ∃ digits : List (Char × Nat), (∀ d ∈ digits, d ∈ hexDigits) ∧
      value = hexValue? digits ∧ front = '\\' :: 'u' :: '\x7b' :: digits.map Prod.fst

theorem begun_plain : Begun .plain [] := rfl

/-- A digit goes to those before it. -/
theorem Begun.digit {backslash : Nat} {value : Option Nat} {front : List Char}
    (h : Begun (.digits backslash value) front) {c : Char} {d : Nat} (hd : hexDigit? c = some d) :
    Begun (.digits backslash (some (16 * value.getD 0 + d))) (front ++ [c]) := by
  obtain ⟨digits, hdigits, rfl, rfl⟩ := h
  refine ⟨digits ++ [(c, d)], ?_, (hexValue?_append digits (c, d)).symm, by simp⟩
  rw [List.forall_mem_append, List.forall_mem_singleton]
  exact ⟨hdigits, mem_hexDigits_iff.2 hd⟩

/-- The closing brace ends a glyph, if the digits name a character. -/
theorem Begun.exists_glyph {backslash : Nat} {value : Option Nat} {front : List Char}
    (h : Begun (.digits backslash value) front) {d : Char}
    (hd : value.bind charOfCode? = some d) :
    ∃ g : Glyph, front ++ ['}'] = g.text ∧ g.char = d := by
  obtain ⟨digits, hdigits, rfl, rfl⟩ := h
  unfold hexValue? at hd
  split_ifs at hd with hnil
  · cases hd
  · exact ⟨.code digits d hnil hdigits (charOfCode?_eq_some_iff.1 hd), rfl, rfl⟩

section Unquote

variable {start offset : Nat} {part : QuotedPart} {c : Char} {front read : List Char}

/-- What one character of a quoted string does: it ends the string, or it goes on with a glyph,
or it ends one. -/
theorem unquote_cons_cases {result : List Char × Cursor} (hfront : Begun part front)
    (h : unquote start part read offset (c :: text) = .ok result) :
    (front = [] ∧ c = '"' ∧ result = (read.reverse, ⟨text, offset + c.utf8Size⟩)) ∨
    (∃ part', Begun part' (front ++ [c]) ∧
      unquote start part' read (offset + c.utf8Size) text = .ok result) ∨
    ∃ g : Glyph, front ++ [c] = g.text ∧
      unquote start .plain (g.char :: read) (offset + c.utf8Size) text = .ok result := by
  cases part with
  | plain =>
    obtain rfl : front = _ := hfront
    simp only [unquote] at h
    split_ifs at h with hquote hback
    · exact .inl ⟨rfl, hquote, (Except.ok.inj h).symm⟩
    · subst hback
      exact .inr (.inl ⟨.escape offset, rfl, h⟩)
    · exact .inr (.inr ⟨.plain c hquote hback, rfl, h⟩)
  | escape backslash =>
    obtain rfl : front = _ := hfront
    simp only [unquote] at h
    split_ifs at h with hu
    · subst hu
      exact .inr (.inl ⟨.code backslash, rfl, h⟩)
    · split at h
      · next d hd => exact .inr (.inr ⟨.escape c d (mem_escapes_iff.2 hd), rfl, h⟩)
      · cases h
  | code backslash =>
    obtain rfl : front = _ := hfront
    simp only [unquote] at h
    split_ifs at h with hbrace
    subst hbrace
    exact .inr (.inl ⟨.digits backslash none, ⟨[], List.forall_mem_nil _, rfl, rfl⟩, h⟩)
  | digits backslash value =>
    simp only [unquote] at h
    split_ifs at h with hbrace
    · split at h
      · next d hd =>
        obtain ⟨g, hg, rfl⟩ := hfront.exists_glyph hd
        subst hbrace
        exact .inr (.inr ⟨g, hg, h⟩)
      · cases h
    · split at h
      · next d hd => exact .inr (.inl ⟨_, hfront.digit hd, h⟩)
      · cases h

/-- What is left of a quoted string is glyphs up to its end, the first one perhaps begun. -/
theorem unquote_derives {offset' : Nat} {out : List Char} (hfront : Begun part front)
    (h : unquote start part read offset text = .ok (out, ⟨rest, offset'⟩)) :
    ∃ gs : List Glyph, front ++ text = gs.flatMap Glyph.text ++ '"' :: rest ∧
      out = read.reverse ++ gs.map Glyph.char := by
  induction text generalizing part front read offset with
  | nil => cases part <;> cases h
  | cons c text ih =>
    have hsplit : front ++ c :: text = (front ++ [c]) ++ text := by simp
    rcases unquote_cons_cases hfront h with ⟨rfl, rfl, hend⟩ | ⟨part', hnext, h⟩ | ⟨g, hg, h⟩
    · cases hend
      exact ⟨[], rfl, (List.append_nil _).symm⟩
    · rw [hsplit]
      exact ih hnext h
    · obtain ⟨gs, htext, rfl⟩ := ih begun_plain h
      refine ⟨g :: gs, ?_, by simp⟩
      rw [hsplit, hg, List.flatMap_cons, List.append_assoc, ← htext]
      rfl

end Unquote

theorem took_quoted {value : String} (h : Took quoted text value rest) :
    ∃ q : Quotation, q.value = value ∧ pastBlanks text = q.text ++ rest := by
  obtain ⟨start, mid, hoffset, h⟩ := h.bind
  rw [took_offset hoffset] at h
  obtain ⟨_, mid, hexpect, h⟩ := h.bind
  rw [took_expect hexpect]
  obtain ⟨o, o', h⟩ := h
  dsimp only at h
  split at h
  · next read cursor hread =>
    cases h
    obtain ⟨gs, hmid, hread⟩ := unquote_derives begun_plain hread
    refine ⟨⟨gs⟩, ?_, ?_⟩
    · rw [hread]
      rfl
    · rw [show mid = _ from hmid]
      simp [Quotation.text]
  · cases h

/-! ## Names, counts, annotations -/

theorem took_token? {token : Option String} (h : Took token? text token rest) :
    ∃ n : Option Naming, n.map Naming.value = token ∧ Lexes (tokenLexemes n) text rest := by
  have h := h.bind_takes (skipBlank_takes rfl)
  obtain ⟨o, h⟩ := h.get_bind
  split at h
  · next mid htext =>
    have htext : pastBlanks text = '-' :: '>' :: mid := htext
    rw [htext] at h
    have h := h.bind_takes (eat_takes '-' _)
    have h := h.bind_takes (eat_takes '>' _)
    have h := h.bind_takes (skipBlank_takes rfl)
    have h := h.bind_takes (peek?_takes _)
    -- whatever the name is, the arrow stands in front of it
    have harrow {n : Naming} (hn : Lexes [n.lexeme] mid rest) :
        Lexes (tokenLexemes (some n)) text rest := ⟨mid, htext, nofun, hn⟩
    split_ifs at h
    · obtain ⟨value, mid', hquoted, h⟩ := h.bind
      obtain ⟨rfl, rfl⟩ := h.pure
      obtain ⟨q, rfl, hq⟩ := took_quoted hquoted
      rw [Text.pastBlanks_pastBlanks] at hq
      exact ⟨some (.quoted q), rfl, harrow ⟨_, hq, nofun, rfl⟩⟩
    · obtain ⟨run, mid', hrun, h⟩ := h.bind
      obtain ⟨hmid, hall, hends⟩ := took_takeWhile hrun
      split at h
      · exact absurd h not_took_missing
      · next hne =>
        obtain ⟨rfl, rfl⟩ := h.pure
        exact ⟨some (.bare ⟨run, hne, hall⟩), rfl, harrow ⟨_, hmid, fun _ => hends, rfl⟩⟩
  · obtain ⟨rfl, rfl⟩ := h.pure
    exact ⟨none, rfl, (Text.pastBlanks_pastBlanks text).symm⟩

theorem took_count {n : UInt32} (h : Took count text n rest) :
    ∃ c : Count, c.value = n ∧ pastBlanks text = c.digits ++ rest := by
  have h := h.bind_takes (skipBlank_takes rfl)
  obtain ⟨start, mid, hoffset, h⟩ := h.bind
  rw [took_offset hoffset] at h
  obtain ⟨run, mid, hrun, h⟩ := h.bind
  obtain ⟨hmid, hall, -⟩ := took_takeWhile hrun
  split at h
  · exact absurd h not_took_throw
  · next hne =>
    dsimp only at h
    split_ifs at h with hsmall
    · obtain ⟨rfl, rfl⟩ := h.pure
      exact ⟨⟨run, hne, hall, hsmall⟩, rfl, hmid⟩
    · exact absurd h not_took_throw

/-- What a delimiter follows is not gone on with. -/
theorem ends_of_delimiter {c : Char} {cs : List Char} (hc : Text.isNameChar c = false)
    (h : pastBlanks text = c :: cs) : ∀ d ∈ text.head?, Text.isNameChar d = false := by
  intro d hd
  obtain ⟨ds, rfl⟩ := List.head?_eq_some_iff.1 hd
  cases hblank : Text.isBlank d with
  | true => exact Text.isNameChar_of_isBlank hblank
  | false =>
    rw [Text.pastBlanks_cons hblank] at h
    rw [(List.cons_eq_cons.1 h).1]
    exact hc

/-- Bounds are read up to the parenthesis behind them. -/
theorem took_bounds {b : UInt32 × Option UInt32} {mid : List Char} (h : Took bounds text b mid)
    (hmid : pastBlanks mid = ')' :: rest) :
    ∃ bs : Bounds, bs.min = b.1 ∧ bs.max = b.2 ∧
      Lexes (bs.lexemes ++ [.sign .closeParen]) text rest := by
  have hparen : Lexes [.sign .closeParen] mid rest := ⟨rest, hmid, nofun, rfl⟩
  -- a count goes as far as the delimiter behind it
  have hcount {n : Count} {before after cs : List Char} {c : Char} {ls : List Lexeme}
      (hn : pastBlanks before = n.digits ++ after) (hc : Text.isNameChar c = false)
      (hafter : pastBlanks after = c :: cs) (hls : Lexes ls after rest) :
      Lexes (.word n.word :: ls) before rest :=
    ⟨after, hn, fun _ => ends_of_delimiter hc hafter, hls⟩
  have h := h.bind_takes (skipBlank_takes rfl)
  obtain ⟨taken, left, heat, h⟩ := h.bind
  rcases took_eat heat with ⟨rfl, htext⟩ | ⟨rfl, hleft, -⟩
  · obtain ⟨n, next, hn, h⟩ := h.bind
    obtain ⟨min, rfl, hmin⟩ := took_count hn
    have h := h.bind_takes (skipBlank_takes rfl)
    obtain ⟨taken, last, heat, h⟩ := h.bind
    rcases took_eat heat with ⟨rfl, hnext⟩ | ⟨rfl, hnext, -⟩
    · obtain ⟨n, tail, hn, h⟩ := h.bind
      obtain ⟨max, rfl, hmax⟩ := took_count hn
      obtain ⟨rfl, rfl⟩ := h.pure
      have hlast := hcount hmax (by decide) hmid hparen
      have hcomma : Lexes (.sign .comma :: .word max.word :: [.sign .closeParen]) next rest :=
        ⟨_, hnext, nofun, hlast⟩
      exact ⟨.both min max, rfl, rfl, _, htext, nofun, hcount hmin (by decide) hnext hcomma⟩
    · obtain ⟨rfl, rfl⟩ := h.pure
      rw [hnext, Text.pastBlanks_pastBlanks] at hmid
      have hlast : Lexes [.sign .closeParen] next rest := ⟨rest, hmid, nofun, rfl⟩
      exact ⟨.least min, rfl, rfl, _, htext, nofun, hcount hmin (by decide) hmid hlast⟩
  · obtain ⟨rfl, rfl⟩ := h.pure
    rw [hleft, Text.pastBlanks_pastBlanks] at hmid
    exact ⟨.usual, rfl, rfl, rest, hmid, nofun, rfl⟩

theorem took_literals {fuel : Nat} {found all : List String}
    (h : Took (literals fuel found) text all rest) :
    ∃ others : List Quotation, all = found.reverse ++ others.map Quotation.value ∧
      Lexes (literalLexemes others) text rest := by
  induction fuel generalizing found text with
  | zero =>
    have h := h.bind_takes (skipBlank_takes rfl)
    obtain ⟨rfl, rfl⟩ := h.pure
    exact ⟨[], (List.append_nil _).symm, lexes_nil text⟩
  | succ fuel ih =>
    have h := h.bind_takes (skipBlank_takes rfl)
    obtain ⟨taken, left, heat, h⟩ := h.bind
    rcases took_eat heat with ⟨rfl, htext⟩ | ⟨rfl, rfl, -⟩
    · have h := h.bind_takes (skipBlank_takes rfl)
      obtain ⟨value, mid, hquoted, h⟩ := h.bind
      obtain ⟨q, rfl, hq⟩ := took_quoted hquoted
      rw [Text.pastBlanks_pastBlanks] at hq
      obtain ⟨others, rfl, hothers⟩ := ih h
      exact ⟨q :: others, by simp, left, htext, nofun, mid, hq, nofun, hothers⟩
    · obtain ⟨rfl, rfl⟩ := h.pure
      exact ⟨[], (List.append_nil _).symm, lexes_nil text⟩

/-- The name of an annotation is that of its flag. -/
theorem name_of_named? {name : String} {f : Flag} (h : Flag.named? name = some f) :
    f.name = name := by
  have hname := List.find?_some h
  exact beq_iff_eq.1 hname

theorem took_annotations {fuel : Nat} {found a : Annotations}
    (h : Took (annotations fuel found) text a rest) :
    ∃ marks : List Mark, a = marks.foldl Mark.add found ∧
      Lexes (marks.flatMap Mark.lexemes) text rest := by
  induction fuel generalizing found text with
  | zero =>
    have h := h.bind_takes (skipBlank_takes rfl)
    obtain ⟨start, mid, hoffset, h⟩ := h.bind
    rw [took_offset hoffset] at h
    obtain ⟨rfl, rfl⟩ := h.pure
    exact ⟨[], rfl, lexes_nil text⟩
  | succ fuel ih =>
    have h := h.bind_takes (skipBlank_takes rfl)
    obtain ⟨start, mid, hoffset, h⟩ := h.bind
    rw [took_offset hoffset] at h
    obtain ⟨taken, named, heat, h⟩ := h.bind
    rcases took_eat heat with ⟨rfl, htext⟩ | ⟨rfl, rfl, -⟩
    · obtain ⟨run, mid, hrun, h⟩ := h.bind
      obtain ⟨hname, -, hends⟩ := took_takeWhile hrun
      rw [hname] at htext
      dsimp only at h
      split_ifs at h with herror
      · obtain ⟨_, opened, hopen, h⟩ := h.bind
        obtain ⟨value, quoted, hquoted, h⟩ := h.bind
        obtain ⟨_, closed, hclose, h⟩ := h.bind
        obtain ⟨q, rfl, hq⟩ := took_quoted hquoted
        obtain ⟨marks, rfl, hmarks⟩ := ih h
        rw [show run = "error".toList by rw [← herror, String.toList_ofList]] at htext
        refine ⟨.error q :: marks, rfl, mid, htext, fun _ => hends, opened, took_expect hopen,
          nofun, quoted, hq, nofun, closed, took_expect hclose, nofun, hmarks⟩
      · split at h
        · next f hf =>
          obtain ⟨marks, rfl, hmarks⟩ := ih h
          rw [show run = f.name.toList by rw [name_of_named? hf, String.toList_ofList]] at htext
          exact ⟨.flag f :: marks, rfl, mid, htext, fun _ => hends, hmarks⟩
        · exact absurd h not_took_throw
    · obtain ⟨rfl, rfl⟩ := h.pure
      exact ⟨[], rfl, lexes_nil text⟩

end Reader

theorem Phrase.Bounds.checkBounds_eq_ok_iff (b : Bounds) :
    checkBounds b.min b.max = .ok () ↔ b.Ordered := by
  unfold checkBounds Ordered
  cases b.max with
  | none => simp
  | some max => simp

end Lexigraph
