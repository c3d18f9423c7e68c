/-
# Lexigraph.Proofs.Pattern.Lexing -- texts as lexemes between blanks

The texts of a derivation tree are the spellings of its lexemes, one after another, with any
blanks in front of each (`Phrase.texts_eq`). `Lexes` says the same of a text from the front, as
readers go: the lexemes are taken one by one and something is left. Each lexeme goes as far as
it can, which a text of a tree leaves room for, because a word comes behind a delimiter only
(`mem_documents_iff`).
-/

import Mathlib.Data.List.TakeWhile
import Lexigraph.Proofs.Pattern.Phrase
import Lexigraph.Proofs.Pattern.Reading

namespace Lexigraph

/-! ## Names and blanks -/

namespace Text

theorem isBlank_of_isNameChar {c : Char} (h : isNameChar c = true) :
    isBlank c = false := by
  delta isNameChar Char.isAlphanum Char.isAlpha Char.isUpper Char.isLower Char.isDigit at h
  simp only [Bool.or_eq_true, Bool.and_eq_true, decide_eq_true_eq, ge_iff_le,
    UInt32.le_iff_toNat_le] at h
  rw [Bool.eq_false_iff]
  intro hblank
  simp only [isBlank, blankRanges, List.any_cons, List.any_nil, Bool.or_false,
    Bool.or_eq_true, Bool.and_eq_true, decide_eq_true_eq, UInt32.le_iff_toNat_le] at hblank
  rcases h with h | rfl
  · simp only [Char.isValue, Char.reduceVal, UInt32.reduceToNat, Char.toNat_val] at h hblank
    omega
  · revert hblank
    decide

theorem isNameChar_of_isBlank {c : Char} (h : isBlank c = true) :
    isNameChar c = false := by
  rw [Bool.eq_false_iff]
  intro hname
  rw [isBlank_of_isNameChar hname] at h
  cases h

/-- In front of a character that cannot be in a name, a name ends. -/
theorem isNameChar_head {c : Char} (h : isNameChar c = false) (cs : List Char) :
    ∀ d ∈ (c :: cs).head?, isNameChar d = false := by
  intro d hd
  rwa [← Option.some.inj hd]

end Text

theorem Flag.isNameChar_name (f : Flag) : ∀ c ∈ f.name.toList, Text.isNameChar c = true := by
  have hall : f.name.toList.all Text.isNameChar = true := by
    cases f <;> decide
  exact List.all_eq_true.1 hall

theorem Flag.name_ne_error (f : Flag) : f.name ≠ "error" := by
  cases f <;> decide

theorem isNameChar_error : ∀ c ∈ "error".toList, Text.isNameChar c = true := by
  have hall : "error".toList.all Text.isNameChar = true := by decide
  exact List.all_eq_true.1 hall

namespace Phrase

open Text (pastBlanks)

/-! ## Texts and lexemes -/

/-- Lexemes one after another, with any blanks in front of each. -/
def spaced (ls : List Lexeme) : Language Char := (ls.map fun l => ws * l.spelling).prod

@[simp] theorem spaced_nil : spaced [] = 1 := rfl

@[simp] theorem spaced_cons (l : Lexeme) (ls : List Lexeme) :
    spaced (l :: ls) = ws * l.spelling * spaced ls := List.prod_cons

@[simp] theorem spaced_append (ls ls' : List Lexeme) :
    spaced (ls ++ ls') = spaced ls * spaced ls' := by
  unfold spaced
  rw [List.map_append, List.prod_append]

theorem ws_mul_ws : ws * ws = ws := by
  apply Set.ext
  intro cs
  constructor
  · rintro ⟨a, ha, b, hb, rfl⟩
    intro c hc
    exact (List.mem_append.1 hc).elim (ha c) (hb c)
  · intro hcs
    exact ⟨[], nofun, cs, hcs, rfl⟩

/-- More blanks in front of the first lexeme make no difference. -/
theorem ws_mul_spaced {ls : List Lexeme} (h : ls ≠ []) : ws * spaced ls = spaced ls := by
  cases ls with
  | nil => exact absurd rfl h
  | cons l ls => rw [spaced_cons, ← mul_assoc, ← mul_assoc, ws_mul_ws]

theorem Mark.texts_eq (m : Mark) : m.texts = spaced m.lexemes := by
  cases m <;> simp [Mark.texts, Mark.lexemes, mul_assoc]

theorem marks_texts_eq (marks : List Mark) :
    (marks.map Mark.texts).prod = spaced (marks.flatMap Mark.lexemes) := by
  induction marks with
  | nil => rfl
  | cons m marks ih =>
    rw [List.map_cons, List.prod_cons, ih, m.texts_eq, List.flatMap_cons, spaced_append]

theorem Naming.texts_eq (n : Naming) : n.texts = spaced n.lexemes := by
  simp [Naming.texts, Naming.lexemes, mul_assoc]

theorem tokenTexts_eq (token : Option Naming) : tokenTexts token = spaced (tokenLexemes token) := by
  cases token with
  | none => rfl
  | some token => exact token.texts_eq

theorem Bounds.texts_eq (b : Bounds) : b.texts = spaced b.lexemes := by
  cases b <;> simp [Bounds.texts, Bounds.lexemes, mul_assoc]

theorem moreLiterals_eq (others : List Quotation) :
    moreLiterals others = spaced (literalLexemes others) := by
  unfold moreLiterals literalLexemes
  induction others with
  | nil => rfl
  | cons q others ih =>
    rw [List.map_cons, List.prod_cons, ih, List.flatMap_cons]
    simp [mul_assoc]

theorem lexemes_ne_nil (p : Phrase) : p.lexemes ≠ [] := by
  rcases p with ⟨marks, body, next⟩
  simp [lexemes]

mutual

/-- **The texts of a node are its lexemes**, with any blanks in front of each. -/
theorem texts_eq (p : Phrase) : p.texts = spaced p.lexemes := by
  match p with
  | .mk marks body next =>
    have hbody := body.texts_eq
    have hnext := next.texts_eq
    rw [texts, lexemes, marks_texts_eq, mul_assoc _ ws, hbody, hnext, spaced_append,
      ← List.cons_append, spaced_append, mul_assoc]

theorem Body.texts_eq (body : Body) :
    ws * body.texts = spaced (.sign .openParen :: body.lexemes) := by
  match body with
  | .terminal first others token =>
    simp [Body.texts, Body.lexemes, moreLiterals_eq, token.texts_eq, mul_assoc]
  | .repetition child bounds _ token =>
    have hchild : ws * child.texts = spaced child.lexemes := by
      rw [texts_eq child, ws_mul_spaced child.lexemes_ne_nil]
    rw [Body.texts, mul_assoc _ ws (texts child), hchild]
    simp [Body.lexemes, bounds.texts_eq, tokenTexts_eq, mul_assoc]
  | .choice token => simp [Body.texts, Body.lexemes, tokenTexts_eq, mul_assoc]

theorem Next.texts_eq (next : Next) : next.texts = spaced next.lexemes := by
  match next with
  | .none => rfl
  | .one p =>
    have hp : ws * p.texts = spaced p.lexemes := by
      rw [texts_eq p, ws_mul_spaced p.lexemes_ne_nil]
    rw [Next.texts, mul_assoc _ ws (texts p), hp, Next.lexemes, spaced_cons]
  | .list p ps =>
    have hp : ws * p.texts = spaced p.lexemes := by
      rw [texts_eq p, ws_mul_spaced p.lexemes_ne_nil]
    have hmore := moreTexts_eq ps
    rw [Next.texts, mul_assoc _ ws (texts p), hp, mul_assoc _ ws, mul_assoc _ (moreTexts ps),
      ← mul_assoc (moreTexts ps), hmore]
    simp [Next.lexemes, mul_assoc]

theorem moreTexts_eq (ps : List Phrase) :
    moreTexts ps * ws * Sign.closeBrace.spelling = spaced (moreLexemes ps) := by
  match ps with
  | [] => simp [moreTexts, moreLexemes]
  | p :: ps =>
    have hp : ws * p.texts = spaced p.lexemes := by
      rw [texts_eq p, ws_mul_spaced p.lexemes_ne_nil]
    have hmore := moreTexts_eq ps
    rw [moreTexts, mul_assoc _ ws (texts p), hp, mul_assoc, mul_assoc _ (moreTexts ps),
      ← mul_assoc (moreTexts ps), hmore]
    simp [moreLexemes, mul_assoc]

end

/-! ## Lexemes from the front -/

/-- Does the lexeme end with a name character? -/
def Lexeme.named : Lexeme → Bool
  | flag _ | error | word _ => true
  | sign _ | quotation _ => false

/-- What follows does not go on with the lexeme. -/
def Lexeme.Ends (l : Lexeme) (rest : List Char) : Prop :=
  l.named = true → ∀ c ∈ rest.head?, Text.isNameChar c = false

/-- From `text` the lexemes can be taken, blanks in front of each, and `rest` is left but for
blanks. -/
def Lexes : List Lexeme → List Char → List Char → Prop
  | [], text, rest => pastBlanks text = pastBlanks rest
  | l :: ls, text, rest => ∃ mid, pastBlanks text = l.text ++ mid ∧ l.Ends mid ∧ Lexes ls mid rest

variable {l : Lexeme} {ls ls' : List Lexeme} {text text' mid rest rest' : List Char}

theorem lexes_nil (text : List Char) : Lexes [] text (pastBlanks text) :=
  (Text.pastBlanks_pastBlanks text).symm

/-- Blanks in front of the text and of what is left do not count. -/
theorem Lexes.congr (h : Lexes ls text rest) (htext : pastBlanks text' = pastBlanks text)
    (hrest : pastBlanks rest' = pastBlanks rest) : Lexes ls text' rest' := by
  induction ls generalizing text text' with
  | nil => exact htext.trans (Eq.trans h hrest.symm)
  | cons l ls ih =>
    obtain ⟨mid, hmid, hends, h⟩ := h
    exact ⟨mid, htext.trans hmid, hends, ih h rfl⟩

theorem lexes_append_iff :
    Lexes (ls ++ ls') text rest ↔ ∃ mid, Lexes ls text mid ∧ Lexes ls' mid rest := by
  induction ls generalizing text with
  | nil =>
    constructor
    · intro h
      exact ⟨text, rfl, h⟩
    · rintro ⟨mid, hmid, h⟩
      exact h.congr hmid rfl
  | cons l ls ih =>
    constructor
    · rintro ⟨next, hnext, hends, h⟩
      obtain ⟨mid, hmid, h⟩ := ih.1 h
      exact ⟨mid, ⟨next, hnext, hends, hmid⟩, h⟩
    · rintro ⟨mid, ⟨next, hnext, hends, hmid⟩, h⟩
      exact ⟨next, hnext, hends, ih.2 ⟨mid, hmid, h⟩⟩

theorem Lexes.append (h : Lexes ls text mid) (h' : Lexes ls' mid rest) :
    Lexes (ls ++ ls') text rest :=
  lexes_append_iff.2 ⟨mid, h, h'⟩

/-- No lexeme starts with a blank, and words only start with a name character. -/
theorem Lexeme.text_eq_cons (l : Lexeme) : ∃ c cs, l.text = c :: cs ∧ Text.isBlank c = false ∧
    ((∀ w, l ≠ .word w) → Text.isNameChar c = false) := by
  match l with
  | .sign s => cases s <;> exact ⟨_, _, rfl, by decide, fun _ => by decide⟩
  | .flag f => exact ⟨_, _, rfl, by decide, fun _ => by decide⟩
  | .error => exact ⟨_, _, rfl, by decide, fun _ => by decide⟩
  | .quotation q => exact ⟨_, _, rfl, by decide, fun _ => by decide⟩
  | .word w =>
    obtain ⟨c, cs, hw⟩ := List.exists_cons_of_ne_nil w.nonempty
    have hc : Text.isNameChar c = true := w.all c (by rw [hw]; exact List.mem_cons_self)
    exact ⟨c, cs, hw, Text.isBlank_of_isNameChar hc, fun h => absurd rfl (h w)⟩

theorem Lexeme.pastBlanks_text (l : Lexeme) (rest : List Char) :
    pastBlanks (l.text ++ rest) = l.text ++ rest := by
  obtain ⟨c, cs, hl, hc, -⟩ := l.text_eq_cons
  rw [hl, List.cons_append, Text.pastBlanks_cons hc]

/-- A lexeme in front, which ends where the others start. -/
theorem Lexes.cons {l : Lexeme} (hends : l.Ends mid) (h : Lexes ls mid rest) :
    Lexes (l :: ls) (l.text ++ mid) rest :=
  ⟨mid, l.pastBlanks_text mid, hends, h⟩

theorem Lexes.sign (s : Sign) (h : Lexes ls mid rest) :
    Lexes (.sign s :: ls) (s.text ++ mid) rest :=
  .cons (fun hs => absurd hs Bool.false_ne_true) h

theorem Lexes.quotation (q : Quotation) (h : Lexes ls mid rest) :
    Lexes (.quotation q :: ls) (q.text ++ mid) rest :=
  .cons (fun hq => absurd hq Bool.false_ne_true) h

theorem Lexes.blank {c : Char} (hc : Text.isBlank c = true) (h : Lexes ls text rest) :
    Lexes ls (c :: text) rest :=
  h.congr (Text.pastBlanks_cons_blank hc text) rfl

theorem Lexes.blanks {blanks : List Char} (hblanks : ∀ c ∈ blanks, Text.isBlank c = true)
    (h : Lexes ls text rest) : Lexes ls (blanks ++ text) rest :=
  h.congr (Text.pastBlanks_append hblanks text) rfl

/-- Every lexeme takes a character at least. -/
theorem Lexes.length_le (h : Lexes ls text rest) : ls.length ≤ text.length := by
  induction ls generalizing text with
  | nil => exact Nat.zero_le _
  | cons l ls ih =>
    obtain ⟨mid, hmid, -, h⟩ := h
    obtain ⟨c, cs, hl, -, -⟩ := l.text_eq_cons
    have hle := ih h
    have hlength := congrArg List.length hmid
    have hpast : (pastBlanks text).length ≤ text.length := List.length_dropWhile_le _ _
    rw [hl, List.length_append, List.length_cons] at hlength
    rw [List.length_cons]
    omega

/-! ## Words behind delimiters -/

/-- Every word has a delimiter in front of it. -/
inductive Separated : List Lexeme → Prop where
  | nil : Separated []
  | cons {l : Lexeme} {ls : List Lexeme} : (∀ w, l ≠ .word w) → Separated ls → Separated (l :: ls)
  | word {s : Sign} {w : Word} {ls : List Lexeme} :
    Separated ls → Separated (.sign s :: .word w :: ls)

theorem Separated.append (h : Separated ls) (h' : Separated ls') : Separated (ls ++ ls') := by
  induction h with
  | nil => exact h'
  | cons hl _ ih => exact .cons hl ih
  | word _ ih => exact .word ih

theorem Separated.sign {s : Sign} (h : Separated ls) : Separated (.sign s :: ls) := .cons nofun h

theorem Separated.flatMap {α : Type} {f : α → List Lexeme} (as : List α)
    (h : ∀ a, Separated (f a)) : Separated (as.flatMap f) := by
  induction as with
  | nil => exact .nil
  | cons a as ih => exact (h a).append ih

theorem Mark.separated (m : Mark) : Separated m.lexemes := by
  cases m with
  | flag f => exact .cons nofun .nil
  | error message => exact .cons nofun (.sign (.cons nofun (.sign .nil)))

theorem Naming.separated (n : Naming) : Separated n.lexemes := by
  cases n with
  | bare w => exact .word .nil
  | quoted q => exact .sign (.cons nofun .nil)

theorem tokenLexemes_separated (token : Option Naming) : Separated (tokenLexemes token) := by
  cases token with
  | none => exact .nil
  | some token => exact token.separated

theorem Bounds.separated (b : Bounds) : Separated b.lexemes := by
  cases b with
  | usual => exact .nil
  | least min => exact .word .nil
  | both min max => exact .word (.word .nil)

theorem literalLexemes_separated (others : List Quotation) : Separated (literalLexemes others) :=
  .flatMap others fun _ => .sign (.cons nofun .nil)

mutual

theorem lexemes_separated (p : Phrase) : Separated p.lexemes := by
  match p with
  | .mk marks body next =>
    have hbody := (Body.separated body).append (Next.separated next)
    exact (Separated.flatMap marks Mark.separated).append (.sign hbody)

theorem Body.separated (body : Body) : Separated body.lexemes := by
  match body with
  | .terminal first others token =>
    exact .cons nofun ((literalLexemes_separated others).append (.sign token.separated))
  | .repetition child bounds _ token =>
    have hend := bounds.separated.append (.sign (s := .closeParen) (tokenLexemes_separated token))
    exact (lexemes_separated child).append hend
  | .choice token => exact .sign (tokenLexemes_separated token)

theorem Next.separated (next : Next) : Separated next.lexemes := by
  match next with
  | .none => exact .nil
  | .one p => exact .sign (lexemes_separated p)
  | .list p ps => exact .sign (.sign ((lexemes_separated p).append (moreLexemes_separated ps)))

theorem moreLexemes_separated (ps : List Phrase) : Separated (moreLexemes ps) := by
  match ps with
  | [] => exact .sign .nil
  | p :: ps => exact .sign ((lexemes_separated p).append (moreLexemes_separated ps))

end

/-- Where lexemes come that do not start with a word, nothing goes on with a name. -/
theorem Separated.ends (h : Separated ls) (htext : Lexes ls text []) :
    ∀ c ∈ text.head?, Text.isNameChar c = false := by
  intro c hc
  cases hblank : Text.isBlank c with
  | true => exact Text.isNameChar_of_isBlank hblank
  | false =>
    obtain ⟨cs, rfl⟩ : ∃ cs, text = c :: cs := List.head?_eq_some_iff.1 hc
    -- a lexeme that is no word starts with `c`
    have hfirst {l : Lexeme} {ls : List Lexeme} (h : Lexes (l :: ls) (c :: cs) [])
        (hl : ∀ w, l ≠ .word w) : Text.isNameChar c = false := by
      obtain ⟨mid, hmid, -, -⟩ := h
      obtain ⟨d, ds, htext, -, hd⟩ := l.text_eq_cons
      rw [Text.pastBlanks_cons hblank, htext] at hmid
      obtain ⟨rfl, -⟩ := List.cons_eq_cons.1 hmid
      exact hd hl
    cases h with
    | nil =>
      rw [show Lexes [] (c :: cs) [] = (pastBlanks (c :: cs) = []) from rfl,
        Text.pastBlanks_cons hblank] at htext
      cases htext
    | cons hl => exact hfirst htext hl
    | word => exact hfirst htext nofun

theorem mem_spaced_cons :
    text ∈ spaced (l :: ls) * ws ↔
      ∃ blanks ∈ ws, ∃ mid ∈ spaced ls * ws, text = blanks ++ (l.text ++ mid) := by
  rw [spaced_cons, mul_assoc, mul_assoc]
  constructor
  · rintro ⟨blanks, hblanks, _, ⟨_, rfl, mid, hmid, rfl⟩, rfl⟩
    exact ⟨blanks, hblanks, mid, hmid, rfl⟩
  · rintro ⟨blanks, hblanks, mid, hmid, rfl⟩
    exact ⟨blanks, hblanks, _, ⟨_, rfl, mid, hmid, rfl⟩, rfl⟩

theorem lexes_of_mem_spaced (h : Separated ls) (htext : text ∈ spaced ls * ws) :
    Lexes ls text [] := by
  -- each lexeme ends where the next one starts, by the lemma above
  have hcons {l : Lexeme} {ls : List Lexeme} {text : List Char}
      (hends : ∀ mid, Lexes ls mid [] → l.Ends mid) (ih : ∀ mid ∈ spaced ls * ws, Lexes ls mid [])
      (htext : text ∈ spaced (l :: ls) * ws) : Lexes (l :: ls) text [] := by
    obtain ⟨blanks, hblanks, mid, hmid, rfl⟩ := mem_spaced_cons.1 htext
    refine ⟨mid, ?_, hends mid (ih mid hmid), ih mid hmid⟩
    rw [Text.pastBlanks_append hblanks, l.pastBlanks_text]
  induction h generalizing text with
  | nil =>
    rw [spaced_nil, one_mul] at htext
    show pastBlanks text = []
    have hpast := Text.pastBlanks_append htext []
    rwa [List.append_nil] at hpast
  | cons _ hls ih => exact hcons (fun mid hmid _ => hls.ends hmid) (fun mid => ih) htext
  | word hls ih =>
    refine hcons (fun _ _ h => absurd h Bool.false_ne_true) (fun mid => ?_) htext
    exact hcons (fun mid hmid _ => hls.ends hmid) fun mid => ih

theorem mem_spaced_of_lexes (h : Lexes ls text []) : text ∈ spaced ls * ws := by
  induction ls generalizing text with
  | nil =>
    have htext : text.takeWhile Text.isBlank ++ pastBlanks text = text :=
      List.takeWhile_append_dropWhile
    rw [show pastBlanks text = [] from h, List.append_nil] at htext
    rw [spaced_nil, one_mul, ← htext]
    exact fun c hc => List.mem_takeWhile_imp hc
  | cons l ls ih =>
    obtain ⟨mid, hmid, -, h⟩ := h
    refine mem_spaced_cons.2 ⟨text.takeWhile Text.isBlank, ?_, mid, ih h, ?_⟩
    · exact fun c hc => List.mem_takeWhile_imp hc
    · rw [← hmid]
      exact List.takeWhile_append_dropWhile.symm

/-- **A text derives from a tree when the lexemes of the tree can be taken from it** and
nothing is left. -/
theorem mem_documents_iff {p : Phrase} : text ∈ p.documents ↔ Lexes p.lexemes text [] := by
  have hdocuments : p.documents = spaced p.lexemes * ws := by
    rw [documents, texts_eq, ws_mul_spaced p.lexemes_ne_nil]
  rw [hdocuments]
  exact ⟨lexes_of_mem_spaced p.lexemes_separated, mem_spaced_of_lexes⟩

end Phrase

end Lexigraph
