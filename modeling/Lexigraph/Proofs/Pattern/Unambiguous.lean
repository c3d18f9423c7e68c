/-
# Lexigraph.Proofs.Pattern.Unambiguous -- a text has one derivation tree at most

First the lexemes are known from a text. No lexeme is the beginning of another one that goes on:
delimiters and quoted strings have their ends in themselves, and a name goes as far as it can.

Then the tree is known from its lexemes. Whatever can be missing from a tree is announced by a
lexeme that cannot come there otherwise: what follows a node is a comma, a parenthesis, a brace
or nothing (`Stops`), and none of them goes on with a node.
-/

import Lexigraph.Proofs.Pattern.Lexing

namespace Lexigraph.Phrase

variable {rest rest' : List Char}

/-! ## Lexemes are known from their texts -/

/-- A run and what ends it are known from the text. -/
theorem run_unique {p : Char → Bool} {run run' : List Char} (hrun : ∀ c ∈ run, p c = true)
    (hrest : ∀ c ∈ rest.head?, p c = false) (hrun' : ∀ c ∈ run', p c = true)
    (hrest' : ∀ c ∈ rest'.head?, p c = false) (h : run ++ rest = run' ++ rest') :
    run = run' ∧ rest = rest' := by
  obtain ⟨htake, hdrop⟩ := Reader.span_run hrun hrest
  obtain ⟨htake', hdrop'⟩ := Reader.span_run hrun' hrest'
  rw [h] at htake hdrop
  exact ⟨htake.symm.trans htake', hdrop.symm.trans hdrop'⟩

theorem hexDigits_unique : ∀ d ∈ hexDigits, ∀ e ∈ hexDigits, d.1 = e.1 → d = e := by decide

theorem escapes_unique : ∀ d ∈ escapes, ∀ e ∈ escapes, d.1 = e.1 → d = e := by decide

theorem hexDigits_ne_brace : ∀ d ∈ hexDigits, d.1 ≠ '}' := by decide

theorem escapes_ne_u : ∀ d ∈ escapes, d.1 ≠ 'u' := by decide

/-- Digits are known from the characters that they are written with. -/
theorem digits_unique {ds es : List (Char × Nat)} (hds : ∀ d ∈ ds, d ∈ hexDigits)
    (hes : ∀ e ∈ es, e ∈ hexDigits) (h : ds.map Prod.fst = es.map Prod.fst) : ds = es := by
  induction ds generalizing es with
  | nil => exact (List.map_eq_nil_iff.1 h.symm).symm
  | cons d ds ih =>
    cases es with
    | nil => cases h
    | cons e es =>
      rw [List.map_cons, List.map_cons, List.cons.injEq] at h
      rw [List.forall_mem_cons] at hds hes
      rw [hexDigits_unique d hds.1 e hes.1 h.1, ih hds.2 hes.2 h.2]

/-- Digits go up to the brace behind them. -/
theorem braced_unique {ds es : List (Char × Nat)} (hds : ∀ d ∈ ds, d ∈ hexDigits)
    (hes : ∀ e ∈ es, e ∈ hexDigits)
    (h : ds.map Prod.fst ++ '}' :: rest = es.map Prod.fst ++ '}' :: rest') :
    ds = es ∧ rest = rest' := by
  have hrun {ds : List (Char × Nat)} (hds : ∀ d ∈ ds, d ∈ hexDigits) :
      ∀ c ∈ ds.map Prod.fst, (c != '}') = true := by
    intro c hc
    obtain ⟨d, hd, rfl⟩ := List.mem_map.1 hc
    exact bne_iff_ne.2 (hexDigits_ne_brace d (hds d hd))
  obtain ⟨hdigits, hrest⟩ := run_unique (hrun hds) (by simp) (hrun hes) (by simp) h
  exact ⟨digits_unique hds hes hdigits, (List.cons_eq_cons.1 hrest).2⟩

namespace Glyph

/-- A glyph has its end in itself. -/
theorem unique {g g' : Glyph} (h : g.text ++ rest = g'.text ++ rest') : g = g' ∧ rest = rest' := by
  cases g with
  | plain c _ hc =>
    cases g' with
    | plain c' _ _ =>
      obtain ⟨rfl, hrest⟩ := List.cons_eq_cons.1 h
      exact ⟨rfl, hrest⟩
    | escape letter' c' _ => exact absurd (List.cons_eq_cons.1 h).1 hc
    | code digits' c' _ _ _ => exact absurd (List.cons_eq_cons.1 h).1 hc
  | escape letter c known =>
    cases g' with
    | plain c' _ hc' => exact absurd (List.cons_eq_cons.1 h).1.symm hc'
    | escape letter' c' known' =>
      simp only [text, List.cons_append, List.nil_append, List.cons.injEq, true_and] at h
      obtain ⟨rfl, hrest⟩ := h
      cases escapes_unique _ known _ known' rfl
      exact ⟨rfl, hrest⟩
    | code digits' c' _ _ _ =>
      simp only [text, List.cons_append, List.nil_append, List.cons.injEq, true_and] at h
      exact absurd h.1 (escapes_ne_u _ known)
  | code digits c _ hex named =>
    cases g' with
    | plain c' _ hc' => exact absurd (List.cons_eq_cons.1 h).1.symm hc'
    | escape letter' c' known' =>
      simp only [text, List.cons_append, List.nil_append, List.cons.injEq, true_and] at h
      exact absurd h.1.symm (escapes_ne_u _ known')
    | code digits' c' _ hex' named' =>
      simp only [text, List.cons_append, List.append_assoc, List.cons.injEq, true_and,
        List.nil_append] at h
      obtain ⟨rfl, hrest⟩ := braced_unique hex hex' h
      have hc : c = c' := Char.ext (UInt32.toNat_inj.1 (named.symm.trans named'))
      subst hc
      exact ⟨rfl, hrest⟩

theorem text_eq_cons (g : Glyph) : ∃ c cs, g.text = c :: cs ∧ c ≠ '"' := by
  cases g with
  | plain c hc _ => exact ⟨c, [], rfl, hc⟩
  | escape letter c _ => exact ⟨'\\', [letter], rfl, by decide⟩
  | code digits c _ _ _ => exact ⟨'\\', _, rfl, by decide⟩

end Glyph

/-- A quoted string has its end in itself. -/
theorem glyphs_unique {gs gs' : List Glyph}
    (h : gs.flatMap Glyph.text ++ '"' :: rest = gs'.flatMap Glyph.text ++ '"' :: rest') :
    gs = gs' ∧ rest = rest' := by
  -- a quote cannot stand where a glyph does
  have hquote (g : Glyph) (cs tail : List Char) : '"' :: tail ≠ g.text ++ cs := by
    obtain ⟨c, ds, hg, hc⟩ := g.text_eq_cons
    rw [hg]
    exact fun heq => hc (List.cons_eq_cons.1 heq).1.symm
  induction gs generalizing gs' with
  | nil =>
    cases gs' with
    | nil => exact ⟨rfl, (List.cons_eq_cons.1 h).2⟩
    | cons g' gs' =>
      rw [List.flatMap_cons, List.append_assoc] at h
      exact absurd h (hquote _ _ _)
  | cons g gs ih =>
    cases gs' with
    | nil =>
      rw [List.flatMap_cons, List.append_assoc] at h
      exact absurd h.symm (hquote _ _ _)
    | cons g' gs' =>
      rw [List.flatMap_cons, List.flatMap_cons, List.append_assoc, List.append_assoc] at h
      obtain ⟨rfl, hmore⟩ := Glyph.unique h
      obtain ⟨rfl, hrest⟩ := ih hmore
      exact ⟨rfl, hrest⟩

namespace Lexeme

/-- A word cannot stand where another lexeme does. -/
theorem word_ne {w : Word} {l : Lexeme} (hl : ∀ w', l ≠ .word w') :
    (word w).text ++ rest ≠ l.text ++ rest' := by
  intro h
  obtain ⟨c, cs, hw⟩ := List.exists_cons_of_ne_nil w.nonempty
  obtain ⟨d, ds, htext, -, hd⟩ := l.text_eq_cons
  rw [htext, show (word w).text = c :: cs from hw] at h
  have hc : Text.isNameChar c = true := w.all c (by rw [hw]; exact List.mem_cons_self)
  rw [(List.cons_eq_cons.1 h).1, hd hl] at hc
  cases hc

/-- **No lexeme is the beginning of another one that goes on.** -/
theorem unique {l l' : Lexeme} (hends : l.Ends rest) (hends' : l'.Ends rest')
    (h : l.text ++ rest = l'.text ++ rest') : l = l' ∧ rest = rest' := by
  match l, l' with
  | .word w, .word w' =>
    obtain ⟨hw, hrest⟩ := run_unique w.all (hends rfl) w'.all (hends' rfl) h
    exact ⟨congrArg word (Word.ext hw), hrest⟩
  | .word w, .sign _ | .word w, .flag _ | .word w, .error | .word w, .quotation _ =>
    exact absurd h (word_ne fun _ h => by cases h)
  | .sign _, .word w' | .flag _, .word w' | .error, .word w' | .quotation _, .word w' =>
    exact absurd h.symm (word_ne fun _ h => by cases h)
  | .sign s, .sign s' =>
    cases s <;> cases s' <;> simp_all [text, Sign.text]
  | .sign s, .flag _ | .sign s, .error | .sign s, .quotation _ =>
    cases s <;> simp [text, Sign.text, Quotation.text] at h
  | .flag _, .sign s | .error, .sign s | .quotation _, .sign s =>
    cases s <;> simp [text, Sign.text, Quotation.text] at h
  | .flag f, .flag f' =>
    obtain ⟨hname, hrest⟩ := run_unique f.isNameChar_name (hends rfl) f'.isNameChar_name
      (hends' rfl) (List.cons_eq_cons.1 h).2
    have hf : some f = some f' := by
      rw [← Flag.named?_name, ← Flag.named?_name, String.toList_inj.1 hname]
    exact ⟨congrArg flag (Option.some.inj hf), hrest⟩
  | .flag f, .error =>
    obtain ⟨hname, -⟩ := run_unique f.isNameChar_name (hends rfl) isNameChar_error
      (hends' rfl) (List.cons_eq_cons.1 h).2
    exact absurd (String.toList_inj.1 hname) f.name_ne_error
  | .error, .flag f' =>
    obtain ⟨hname, -⟩ := run_unique isNameChar_error (hends rfl) f'.isNameChar_name
      (hends' rfl) (List.cons_eq_cons.1 h).2
    exact absurd (String.toList_inj.1 hname.symm) f'.name_ne_error
  | .error, .error => exact ⟨rfl, List.append_cancel_left h⟩
  | .flag _, .quotation _ | .error, .quotation _ => simp [text, Quotation.text] at h
  | .quotation _, .flag _ | .quotation _, .error => simp [text, Quotation.text] at h
  | .quotation ⟨gs⟩, .quotation ⟨gs'⟩ =>
    simp only [text, Quotation.text, List.cons_append, List.append_assoc, List.cons.injEq,
      true_and, List.nil_append] at h
    obtain ⟨rfl, hrest⟩ := glyphs_unique h
    exact ⟨rfl, hrest⟩

end Lexeme

/-- **The lexemes are known from the text.** -/
theorem Lexes.unique {ls ls' : List Lexeme} {text : List Char} (h : Lexes ls text [])
    (h' : Lexes ls' text []) : ls = ls' := by
  have hnil {l : Lexeme} {ls : List Lexeme} {text : List Char} (h : Lexes [] text [])
      (h' : Lexes (l :: ls) text []) : False := by
    obtain ⟨mid, hmid, -, -⟩ := h'
    obtain ⟨c, cs, hl, -, -⟩ := l.text_eq_cons
    rw [show Text.pastBlanks text = [] from h, hl] at hmid
    cases hmid
  induction ls generalizing ls' text with
  | nil =>
    cases ls' with
    | nil => rfl
    | cons l' ls' => exact (hnil h h').elim
  | cons l ls ih =>
    cases ls' with
    | nil => exact (hnil h' h).elim
    | cons l' ls' =>
      obtain ⟨mid, hmid, hends, h⟩ := h
      obtain ⟨mid', hmid', hends', h'⟩ := h'
      obtain ⟨rfl, rfl⟩ := Lexeme.unique hends hends' (hmid.symm.trans hmid')
      rw [ih h h']

/-! ## Trees are known from their lexemes -/

/-- What follows goes on with no node: it is nothing, a comma, a parenthesis or a brace. -/
def Stops (k : List Lexeme) : Prop :=
  ∀ l ∈ k.head?, l = .sign .comma ∨ l = .sign .closeParen ∨ l = .sign .closeBrace

/-- A node starts with an annotation or its parenthesis. -/
def Starts (l : Lexeme) : Prop := (∃ f, l = .flag f) ∨ l = .error ∨ l = .sign .openParen

variable {k k' : List Lexeme}

theorem starts_of_lexemes {p : Phrase} {l : Lexeme} (h : p.lexemes ++ k = l :: k') : Starts l := by
  rcases p with ⟨_ | ⟨m, marks⟩, body, next⟩
  · exact .inr (.inr (List.cons_eq_cons.1 h).1.symm)
  · cases m with
    | flag f => exact .inl ⟨f, (List.cons_eq_cons.1 h).1.symm⟩
    | error message => exact .inr (.inl (List.cons_eq_cons.1 h).1.symm)

theorem stops_cons {l : Lexeme}
    (hl : l = .sign .comma ∨ l = .sign .closeParen ∨ l = .sign .closeBrace) : Stops (l :: k) := by
  intro l' hl'
  cases hl'
  exact hl

theorem not_stops_dot : ¬ Stops (.sign .dot :: k) := by
  intro h
  have hdot : Lexeme.sign .dot = .sign .comma ∨ _ := h _ rfl
  simp at hdot

theorem Bounds.stops (b : Bounds) : Stops (b.lexemes ++ .sign .closeParen :: k) := by
  cases b with
  | usual => exact stops_cons (.inr (.inl rfl))
  | least min => exact stops_cons (.inl rfl)
  | both min max => exact stops_cons (.inl rfl)

theorem moreLexemes_stops (ps : List Phrase) : Stops (moreLexemes ps ++ k) := by
  cases ps with
  | nil => exact stops_cons (.inr (.inr rfl))
  | cons p ps => exact stops_cons (.inl rfl)

/-- Something other than an arrow follows a node's parentheses and token. -/
theorem Next.head_ne_arrow (next : Next) (hk : Stops k) :
    (next.lexemes ++ k).head? ≠ some (.sign .arrow) := by
  cases next with
  | none =>
    intro harrow
    have h : Lexeme.sign .arrow = .sign .comma ∨ _ := hk _ harrow
    simp at h
  | one p => simp [Next.lexemes]
  | list p ps => simp [Next.lexemes]

theorem marks_unique {marks marks' : List Mark}
    (h : marks.flatMap Mark.lexemes ++ .sign .openParen :: k =
      marks'.flatMap Mark.lexemes ++ .sign .openParen :: k') : marks = marks' ∧ k = k' := by
  induction marks generalizing marks' with
  | nil =>
    rcases marks' with _ | ⟨_ | _, marks'⟩
    · exact ⟨rfl, (List.cons_eq_cons.1 h).2⟩
    · simp [Mark.lexemes] at h
    · simp [Mark.lexemes] at h
  | cons m marks ih =>
    cases m with
    | flag f =>
      rcases marks' with _ | ⟨_ | _, marks'⟩
      · simp [Mark.lexemes] at h
      · simp only [List.flatMap_cons, Mark.lexemes, List.cons_append, List.nil_append,
          List.cons.injEq, Lexeme.flag.injEq] at h
        obtain ⟨rfl, hmore⟩ := h
        obtain ⟨rfl, hk⟩ := ih hmore
        exact ⟨rfl, hk⟩
      · simp [Mark.lexemes] at h
    | error message =>
      rcases marks' with _ | ⟨_ | _, marks'⟩
      · simp [Mark.lexemes] at h
      · simp [Mark.lexemes] at h
      · simp only [List.flatMap_cons, Mark.lexemes, List.cons_append, List.nil_append,
          List.cons.injEq, Lexeme.quotation.injEq, true_and] at h
        obtain ⟨rfl, hmore⟩ := h
        obtain ⟨rfl, hk⟩ := ih hmore
        exact ⟨rfl, hk⟩

theorem Naming.unique {n n' : Naming} (h : n.lexemes ++ k = n'.lexemes ++ k') :
    n = n' ∧ k = k' := by
  cases n <;> cases n' <;> simp_all [Naming.lexemes, Naming.lexeme]

/-- A token that may be missing is announced by its arrow. -/
theorem token_unique {token token' : Option Naming} (hk : k.head? ≠ some (.sign .arrow))
    (hk' : k'.head? ≠ some (.sign .arrow))
    (h : tokenLexemes token ++ k = tokenLexemes token' ++ k') : token = token' ∧ k = k' := by
  cases token with
  | none =>
    cases token' with
    | none => exact ⟨rfl, h⟩
    | some n' =>
      rw [show k = .sign .arrow :: (n'.lexeme :: k') from h] at hk
      exact absurd rfl hk
  | some n =>
    cases token' with
    | none =>
      rw [show k' = .sign .arrow :: (n.lexeme :: k) from h.symm] at hk'
      exact absurd rfl hk'
    | some n' =>
      obtain ⟨rfl, hk⟩ := Naming.unique h
      exact ⟨rfl, hk⟩

theorem Count.word_inj {n n' : Count} (h : n.word = n'.word) : n = n' :=
  Count.ext (congrArg Word.chars h)

theorem Bounds.unique {b b' : Bounds}
    (h : b.lexemes ++ .sign .closeParen :: k = b'.lexemes ++ .sign .closeParen :: k') :
    b = b' ∧ k = k' := by
  cases b <;> cases b' <;> simp_all [Bounds.lexemes]
  · exact Count.word_inj h.1
  · exact ⟨Count.word_inj h.1, Count.word_inj h.2.1⟩

theorem literals_unique {others others' : List Quotation}
    (h : literalLexemes others ++ .sign .closeParen :: k =
      literalLexemes others' ++ .sign .closeParen :: k') : others = others' ∧ k = k' := by
  unfold literalLexemes at h
  induction others generalizing others' with
  | nil =>
    cases others' with
    | nil => exact ⟨rfl, (List.cons_eq_cons.1 h).2⟩
    | cons q' others' => simp at h
  | cons q others ih =>
    cases others' with
    | nil => simp at h
    | cons q' others' =>
      simp only [List.flatMap_cons, List.cons_append, List.nil_append, List.cons.injEq,
        Lexeme.quotation.injEq, true_and] at h
      obtain ⟨rfl, hmore⟩ := h
      obtain ⟨rfl, hk⟩ := ih hmore
      exact ⟨rfl, hk⟩

mutual

/-- **A node is known from its lexemes** and those that follow it. -/
theorem unique {p p' : Phrase} {k k' : List Lexeme} (hk : Stops k) (hk' : Stops k')
    (h : p.lexemes ++ k = p'.lexemes ++ k') : p = p' ∧ k = k' := by
  match p, p' with
  | .mk marks body next, .mk marks' body' next' =>
    simp only [lexemes, List.append_assoc, List.cons_append] at h
    obtain ⟨rfl, hbody⟩ := marks_unique h
    obtain ⟨rfl, hnext⟩ := Body.unique (next.head_ne_arrow hk) (next'.head_ne_arrow hk') hbody
    obtain ⟨rfl, hrest⟩ := Next.unique hk hk' hnext
    exact ⟨rfl, hrest⟩

theorem Body.unique {body body' : Body} {k k' : List Lexeme}
    (hk : k.head? ≠ some (.sign .arrow)) (hk' : k'.head? ≠ some (.sign .arrow))
    (h : body.lexemes ++ k = body'.lexemes ++ k') : body = body' ∧ k = k' := by
  -- behind the parenthesis stands a quotation, a node or the other parenthesis
  match body, body' with
  | .terminal first others token, .terminal first' others' token' =>
    simp only [Body.lexemes, List.cons_append, List.append_assoc, List.cons.injEq,
      Lexeme.quotation.injEq] at h
    obtain ⟨rfl, hothers⟩ := h
    obtain ⟨rfl, htoken⟩ := literals_unique hothers
    obtain ⟨rfl, hrest⟩ := Naming.unique htoken
    exact ⟨rfl, hrest⟩
  | .repetition child bounds _ token, .repetition child' bounds' _ token' =>
    simp only [Body.lexemes, List.append_assoc, List.cons_append] at h
    obtain ⟨rfl, hbounds⟩ := unique bounds.stops bounds'.stops h
    obtain ⟨rfl, htoken⟩ := Bounds.unique hbounds
    obtain ⟨rfl, hrest⟩ := token_unique hk hk' htoken
    exact ⟨rfl, hrest⟩
  | .choice token, .choice token' =>
    simp only [Body.lexemes, List.cons_append, List.cons.injEq, true_and] at h
    obtain ⟨rfl, hrest⟩ := token_unique hk hk' h
    exact ⟨rfl, hrest⟩
  | .terminal _ _ _, .choice _ | .choice _, .terminal _ _ _ => simp [Body.lexemes] at h
  | .repetition child _ _ _, .terminal _ _ _ | .repetition child _ _ _, .choice _ =>
    simp only [Body.lexemes, List.cons_append, List.append_assoc] at h
    simpa [Starts] using starts_of_lexemes h
  | .terminal _ _ _, .repetition child _ _ _ | .choice _, .repetition child _ _ _ =>
    simp only [Body.lexemes, List.cons_append, List.append_assoc] at h
    simpa [Starts] using starts_of_lexemes h.symm

theorem Next.unique {next next' : Next} {k k' : List Lexeme} (hk : Stops k) (hk' : Stops k')
    (h : next.lexemes ++ k = next'.lexemes ++ k') : next = next' ∧ k = k' := by
  match next, next' with
  | .none, .none => exact ⟨rfl, h⟩
  | .one p, .one p' =>
    simp only [Next.lexemes, List.cons_append, List.cons.injEq, true_and] at h
    obtain ⟨rfl, hrest⟩ := unique hk hk' h
    exact ⟨rfl, hrest⟩
  | .list p ps, .list p' ps' =>
    simp only [Next.lexemes, List.cons_append, List.append_assoc, List.cons.injEq,
      true_and] at h
    obtain ⟨rfl, hmore⟩ := unique (moreLexemes_stops ps) (moreLexemes_stops ps') h
    obtain ⟨rfl, hrest⟩ := moreLexemes_unique hmore
    exact ⟨rfl, hrest⟩
  | .none, .one _ | .none, .list _ _ =>
    rw [show k = .sign .dot :: _ from h] at hk
    exact absurd hk not_stops_dot
  | .one _, .none | .list _ _, .none =>
    rw [show k' = .sign .dot :: _ from h.symm] at hk'
    exact absurd hk' not_stops_dot
  | .one p, .list _ _ =>
    simp only [Next.lexemes, List.cons_append, List.cons.injEq, true_and] at h
    simpa [Starts] using starts_of_lexemes h
  | .list _ _, .one p' =>
    simp only [Next.lexemes, List.cons_append, List.cons.injEq, true_and] at h
    simpa [Starts] using starts_of_lexemes h.symm

theorem moreLexemes_unique {ps ps' : List Phrase} {k k' : List Lexeme}
    (h : moreLexemes ps ++ k = moreLexemes ps' ++ k') : ps = ps' ∧ k = k' := by
  match ps, ps' with
  | [], [] => exact ⟨rfl, (List.cons_eq_cons.1 h).2⟩
  | [], _ :: _ | _ :: _, [] => simp [moreLexemes] at h
  | p :: ps, p' :: ps' =>
    simp only [moreLexemes, List.cons_append, List.append_assoc, List.cons.injEq,
      true_and] at h
    obtain ⟨rfl, hmore⟩ := unique (moreLexemes_stops ps) (moreLexemes_stops ps') h
    obtain ⟨rfl, hrest⟩ := moreLexemes_unique hmore
    exact ⟨rfl, hrest⟩

end

/-- **A text derives from one tree at most.** -/
theorem documents_unique {p p' : Phrase} {text : List Char} (h : text ∈ p.documents)
    (h' : text ∈ p'.documents) : p = p' := by
  have hlexemes := (mem_documents_iff.1 h).unique (mem_documents_iff.1 h')
  have hnil : Stops [] := nofun
  exact (unique hnil hnil (congrArg (· ++ []) hlexemes)).1

end Lexigraph.Phrase
