/-
# Lexigraph.Proofs.Pattern.Accepted -- what derives is read

Where the lexemes of a derivation tree can be taken from a text, the reader takes the pattern of
the tree (`Accepts`). At each place one character tells how the tree goes on, and what follows a
part does not go on with it. Every recursion of the reader takes a lexeme at least, so a bound
for the number of lexemes will do.
-/

import Lexigraph.Proofs.Pattern.Lexeme

namespace Lexigraph

open Text (pastBlanks)

namespace Phrase

variable {text mid rest : List Char}

/-! ## What follows -/

/-- Past blanks, the text ends or goes on with a delimiter that closes a pattern. -/
def Closes (rest : List Char) : Prop :=
  ∀ c ∈ (pastBlanks rest).head?, c = ',' ∨ c = ')' ∨ c = '}'

theorem Closes.head_ne (h : Closes rest) {c : Char} (hc : c ≠ ',' ∧ c ≠ ')' ∧ c ≠ '}') :
    (pastBlanks rest).head? ≠ some c := by
  intro hhead
  rcases h c hhead with rfl | rfl | rfl <;> simp at hc

/-- Where a node has to stop, the text goes on with what closes one. -/
theorem Stops.closes {k : List Lexeme} (hk : Stops k) (hne : k ≠ []) (h : Lexes k text rest) :
    Closes text := by
  cases k with
  | nil => exact absurd rfl hne
  | cons l k =>
    obtain ⟨mid, htext, -, -⟩ := h
    intro c hc
    rw [htext] at hc
    rcases hk l rfl with rfl | rfl | rfl
    · exact .inl (Option.some.inj hc).symm
    · exact .inr (.inl (Option.some.inj hc).symm)
    · exact .inr (.inr (Option.some.inj hc).symm)

theorem Next.not_arrow (next : Next) (h : Lexes next.lexemes text rest) (hrest : Closes rest) :
    (pastBlanks text).head? ≠ some '-' := by
  cases next with
  | none =>
    have htext : pastBlanks text = pastBlanks rest := h
    rw [htext]
    exact hrest.head_ne (by decide)
  | one p =>
    obtain ⟨mid, htext, -, -⟩ := h
    simp [htext, Lexeme.text, Sign.text]
  | list p ps =>
    obtain ⟨mid, htext, -, -⟩ := h
    simp [htext, Lexeme.text, Sign.text]

/-- A node starts with the sign of an annotation or with its parenthesis. -/
theorem head_of_lexes (p : Phrase) (h : Lexes p.lexemes text rest) :
    ∃ c cs, pastBlanks text = c :: cs ∧ (c = '@' ∨ c = '(') := by
  rcases p with ⟨_ | ⟨_ | _, marks⟩, body, next⟩
  · obtain ⟨mid, htext, -, -⟩ := h
    exact ⟨'(', mid, htext, .inr rfl⟩
  · obtain ⟨mid, htext, -, -⟩ := h
    exact ⟨'@', _, htext, .inl rfl⟩
  · obtain ⟨mid, htext, -, -⟩ := h
    exact ⟨'@', _, htext, .inl rfl⟩

/-! ## How many lexemes there are -/

/-- Parts are no more than what they consist of. -/
theorem length_le_flatMap {α β : Type} {f : α → List β} (hf : ∀ a, f a ≠ []) (as : List α) :
    as.length ≤ (as.flatMap f).length := by
  induction as with
  | nil => exact Nat.le_refl _
  | cons a as ih =>
    have ha : 0 < (f a).length := List.length_pos_of_ne_nil (hf a)
    rw [List.flatMap_cons, List.length_append, List.length_cons]
    omega

theorem Mark.lexemes_ne_nil (m : Mark) : m.lexemes ≠ [] := by
  cases m <;> exact List.cons_ne_nil _ _

theorem length_lt_moreLexemes (ts : List Phrase) : ts.length < (moreLexemes ts).length := by
  induction ts with
  | nil => exact Nat.one_pos
  | cons t ts ih =>
    simp only [moreLexemes, List.length_cons, List.length_append]
    omega

end Phrase

namespace PatternReader

open Reader Phrase

variable {node : PatternReader Pattern} {fuel : Nat} {text mid rest : List Char}

/-- With that bound, the reader takes the pattern of every tree of no more lexemes. -/
def Accepts (node : PatternReader Pattern) (bound : Nat) : Prop :=
  ∀ (t : Phrase) text rest, Lexes t.lexemes text rest → Closes rest → t.lexemes.length ≤ bound →
    ReadsAt node text t.pattern rest

/-! ## Bodies -/

theorem terminal_readsAt (first : Quotation) (others : List Quotation) (token : Naming)
    (annotations : Annotations) (opened : Nat)
    (h : Lexes (Body.terminal first others token).lexemes text rest)
    (hrest : (pastBlanks rest).head? ≠ some '-')
    (hfuel : (Body.terminal first others token).lexemes.length ≤ fuel) :
    ReadsAt (terminal fuel annotations opened) text
      ((Body.terminal first others token).pattern annotations) rest := by
  have hlength : others.length ≤ (literalLexemes others).length :=
    length_le_flatMap (fun _ => List.cons_ne_nil _ _) others
  simp only [Body.lexemes, List.length_cons, List.length_append] at hfuel
  have hsteps : others.length ≤ fuel := by omega
  obtain ⟨left, hfirst, -, h⟩ := h
  obtain ⟨mid, hothers, h⟩ := literals_takes others [] hsteps h
  refine (first.takes hfirst).lift.bind_readsAt (hothers.lift.bind_readsAt ?_)
  refine (expect_takes (Text.pastBlanks_cons isBlank_closeParen mid)).lift.bind_readsAt ?_
  exact (token_readsAt (some token) h hrest).lift.bind (Reads.pure _ _)

theorem choice_readsAt (token : Option Naming) (annotations : Annotations)
    (h : Lexes (tokenLexemes token) text rest) (hrest : (pastBlanks rest).head? ≠ some '-') :
    ReadsAt (choice annotations) (')' :: text)
      (.choice annotations (token.map Naming.value) []) rest :=
  (eat_takes ')' text).lift.bind_readsAt ((token_readsAt token h hrest).lift.bind (Reads.pure _ _))

theorem checkedBounds_readsAt (b : Bounds) (hordered : b.Ordered) {ls : List Lexeme}
    (h : Lexes (b.lexemes ++ .sign .closeParen :: ls) text rest) :
    ∃ mid, ReadsAt (do
      let bounds ← Reader.bounds
      Reader.expect ')' .closeParen
      check (checkBounds bounds.1 bounds.2)
      return bounds : PatternReader (UInt32 × Option UInt32)) text (b.min, b.max) mid ∧
        Lexes ls mid rest := by
  obtain ⟨mid, hbounds, h⟩ := b.readsAt h
  refine ⟨mid, hbounds.lift.bind fun left hleft => ?_, h⟩
  rw [Text.pastBlanks_cons isBlank_closeParen] at hleft
  have hcheck : Takes (check (checkBounds b.min b.max)) mid ⟨⟩ mid := by
    rw [b.checkBounds_eq_ok_iff.2 hordered]
    exact Takes.pure _ _
  exact (expect_takes hleft).lift.bind_readsAt (hcheck.bind_readsAt (Reads.pure _ _).readsAt)

theorem repetition_readsAt (hnode : Accepts node fuel) (child : Phrase) (b : Bounds)
    (hordered : b.Ordered) (token : Option Naming) (annotations : Annotations)
    (h : Lexes (child.lexemes ++ (b.lexemes ++ .sign .closeParen :: tokenLexemes token)) text rest)
    (hrest : (pastBlanks rest).head? ≠ some '-') (hfuel : child.lexemes.length ≤ fuel) :
    ReadsAt (repetition node annotations) text
      (.repetition annotations child.pattern b.min b.max (token.map Naming.value) []) rest := by
  obtain ⟨mid, hchild, h⟩ := lexes_append_iff.1 h
  have hcloses : Closes mid := b.stops.closes (by simp) h
  refine (hnode child text mid hchild hcloses hfuel).bind fun text₁ htext₁ => ?_
  obtain ⟨left, hbounds, h⟩ := checkedBounds_readsAt b hordered (h.congr htext₁ rfl)
  refine hbounds.after.bind fun text₂ htext₂ => ?_
  have htoken := token_readsAt token (h.congr htext₂ rfl) hrest
  exact htoken.lift.after.bind (Reads.pure _ _)

/-- What stands behind a parenthesis tells by its first character what body it is. -/
theorem body_readsAt (hnode : Accepts node fuel) (b : Phrase.Body) (annotations : Annotations)
    (opened : Nat) (h : Lexes b.lexemes text rest) (htext : pastBlanks text = text)
    (hrest : (pastBlanks rest).head? ≠ some '-') (hfuel : b.lexemes.length ≤ fuel) :
    ReadsAt (body node fuel annotations opened) text (b.pattern annotations) rest := by
  refine (peek?_takes text).lift.bind_readsAt ?_
  cases b with
  | terminal first others token =>
    have hread := terminal_readsAt first others token annotations opened h hrest hfuel
    obtain ⟨mid, hmid, -, -⟩ := h
    have hquote : text.head? = some '"' := by
      rw [← htext, hmid]
      rfl
    rw [hquote]
    exact hread
  | repetition child b ordered token =>
    simp only [Body.lexemes, List.length_append] at hfuel
    have hread := repetition_readsAt hnode child b ordered token annotations h hrest (by omega)
    obtain ⟨mid, hchild, -⟩ := lexes_append_iff.1 h
    obtain ⟨c, cs, hhead, hc⟩ := child.head_of_lexes hchild
    rw [htext] at hhead
    rw [hhead] at hread ⊢
    -- a node starts with neither a quote nor a closing parenthesis
    rcases hc with rfl | rfl <;> exact hread
  | choice token =>
    obtain ⟨mid, hmid, -, h⟩ := h
    have hparen : text = ')' :: mid := htext.symm.trans hmid
    rw [hparen]
    exact choice_readsAt token annotations h hrest

/-! ## Branches -/

/-- Nodes are read up to the closing brace behind them. -/
theorem branchList_readsAt (hnode : Accepts node fuel) (head : Pattern) (t : Phrase)
    (ts : List Phrase) (found : List Pattern) (steps : Nat) (hsteps : ts.length < steps)
    (hfuel : (t.lexemes ++ moreLexemes ts).length ≤ fuel)
    (h : Lexes (t.lexemes ++ moreLexemes ts) text rest) :
    ReadsAt (branchList node head steps found) text
      (head.withBranches (found.reverse ++ t.pattern :: patternAll ts)) rest := by
  induction steps generalizing t ts found text with
  | zero => exact absurd hsteps (Nat.not_lt_zero _)
  | succ steps ih =>
    obtain ⟨mid, ht, hmore⟩ := lexes_append_iff.1 h
    rw [List.length_append] at hfuel
    have hcloses : Closes mid := by
      rw [← List.append_nil (moreLexemes ts)] at hmore
      exact (moreLexemes_stops ts).closes (by cases ts <;> simp [moreLexemes]) hmore
    have hnode := hnode t _ mid (ht.congr (Text.pastBlanks_pastBlanks text) rfl) hcloses (by omega)
    unfold branchList
    refine (skipBlank_takes rfl).lift.bind_readsAt (hnode.after.bind fun text' htext' => ?_)
    cases ts with
    | nil =>
      -- the last node has the closing brace behind it
      obtain ⟨left, hbrace, -, hleft⟩ := hmore
      rw [hbrace] at htext'
      refine (skipBlank_takes htext').lift.bind_readsAt ?_
      refine (eat_takes_not (by simp [Lexeme.text, Sign.text])).lift.bind_readsAt ?_
      have hpast : pastBlanks ('}' :: left) = '}' :: left := Text.pastBlanks_cons (by decide) left
      refine (expect_takes hpast).lift.after.bind_readsAt ?_
      rw [List.reverse_cons]
      exact (Takes.pure _ _).readsAt hleft
    | cons t' ts =>
      -- any other node has a comma behind it, and then the list goes on
      obtain ⟨left, hcomma, -, hmore⟩ := hmore
      rw [hcomma] at htext'
      refine (skipBlank_takes htext').lift.bind_readsAt ((eat_takes ',' left).lift.bind_readsAt ?_)
      simp only [moreLexemes, List.length_cons] at hfuel
      have hlist := ih t' ts (t.pattern :: found) (Nat.lt_of_succ_lt_succ hsteps) (by omega) hmore
      rw [List.reverse_cons, List.append_assoc] at hlist
      exact hlist

/-- A node goes on with what was found behind it. -/
theorem branches_readsAt (hnode : Accepts node fuel) (head : Pattern) (next : Phrase.Next)
    (hhead : head.branches = []) (hrest : Closes rest) (hfuel : next.lexemes.length ≤ fuel)
    (h : Lexes next.lexemes text rest) :
    ReadsAt (branches node fuel head) text (head.withBranches next.patterns) rest := by
  cases next with
  | none =>
    have htext : pastBlanks text = pastBlanks rest := h
    refine (skipBlank_takes htext).lift.bind_readsAt ?_
    refine (eat_takes_not (hrest.head_ne (by decide))).lift.bind_readsAt ?_
    have hself : head.withBranches Phrase.Next.none.patterns = head :=
      Pattern.withBranches_self hhead
    rw [hself]
    exact (Takes.pure _ _).readsAt (Text.pastBlanks_pastBlanks rest)
  | one t =>
    obtain ⟨mid, htext, -, h⟩ := h
    obtain ⟨c, cs, hhead, hc⟩ := t.head_of_lexes h
    have hnot : (pastBlanks mid).head? ≠ some '\x7b' := by
      rw [hhead, List.head?_cons]
      rcases hc with rfl | rfl <;> decide
    refine (skipBlank_takes htext).lift.bind_readsAt ((eat_takes '.' mid).lift.bind_readsAt ?_)
    refine (skipBlank_takes rfl).lift.bind_readsAt ((eat_takes_not hnot).lift.bind_readsAt ?_)
    have h := h.congr (Text.pastBlanks_pastBlanks mid) rfl
    have hbranch := hnode t _ _ h hrest (Nat.le_of_succ_le hfuel)
    exact hbranch.after.bind (Reads.pure _ _)
  | list t ts =>
    obtain ⟨mid, htext, -, left, hmid, -, h⟩ := h
    have hlength := length_lt_moreLexemes ts
    simp only [Next.lexemes, List.length_cons] at hfuel
    refine (skipBlank_takes htext).lift.bind_readsAt ((eat_takes '.' mid).lift.bind_readsAt ?_)
    refine (skipBlank_takes hmid).lift.bind_readsAt ((eat_takes '\x7b' left).lift.bind_readsAt ?_)
    refine branchList_readsAt hnode head t ts [] fuel ?_ (by omega) h
    rw [List.length_append] at hfuel
    omega

/-! ## Patterns -/

theorem around_accepts (hnode : Accepts node fuel) : Accepts (around node fuel) (fuel + 1) := by
  intro t text rest h hrest hfuel
  rcases t with ⟨marks, body, next⟩
  simp only [lexemes, List.length_append, List.length_cons] at hfuel
  have hlength := length_le_flatMap Mark.lexemes_ne_nil marks
  have hsteps : marks.length ≤ fuel + 1 := by omega
  obtain ⟨inner, hmarks, h⟩ := marks_takes marks {} hsteps h
  refine hmarks.lift.bind_readsAt ?_
  refine ReadsAt.look_bind (fun o => ⟨o, rfl⟩) fun opened => ?_
  refine (expect_takes (Text.pastBlanks_cons (by decide) inner)).lift.bind_readsAt ?_
  refine (skipBlank_takes rfl).lift.bind_readsAt ?_
  obtain ⟨last, hbody, hnext⟩ := lexes_append_iff.1 h
  have hinside := hbody.congr (Text.pastBlanks_pastBlanks inner) rfl
  have hread := body_readsAt hnode body (marks.foldl Mark.add {}) opened hinside
    (Text.pastBlanks_pastBlanks inner) (next.not_arrow hnext hrest) (by omega)
  refine hread.bind fun text' htext' => ?_
  exact branches_readsAt hnode _ next (body.branches_pattern _) hrest (by omega)
    (hnext.congr htext' rfl)

theorem pattern_accepts (fuel : Nat) : Accepts (pattern fuel) fuel := by
  induction fuel with
  | zero =>
    intro t text rest _ _ hfuel
    exact absurd (List.length_pos_of_ne_nil t.lexemes_ne_nil) (by omega)
  | succ fuel ih => exact around_accepts ih

end PatternReader

/-- **What derives from a tree denotes the pattern of the tree.** -/
theorem Pattern.ofText_of_mem_documents {text : List Char} {t : Phrase} (h : text ∈ t.documents) :
    ofText text = .ok t.pattern := by
  have hlexes := Phrase.mem_documents_iff.1 h
  have hend : Phrase.Closes [] := fun c hc => by cases hc
  have hlength : t.lexemes.length ≤ text.length := hlexes.length_le
  have hread : ReadsAt (PatternReader.whole text.length) text t.pattern [] := by
    refine (PatternReader.pattern_accepts _ t text [] hlexes hend hlength).bind ?_
    refine Reads.bind (a := ⟨⟩) (Reads.after (Reads.of_skip
      (fun text => (Reader.skipBlank_takes rfl).lift) ?_)) (Reads.pure _ [])
    exact fun o => ⟨[], o, rfl, rfl⟩
  obtain ⟨left, offset, hwhole, -⟩ := hread 0
  unfold ofText
  rw [hwhole]

end Lexigraph
