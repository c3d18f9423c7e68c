/-
# Lexigraph.Proofs.Pattern.Reading -- what a reader takes from a text

`Takes` says exactly what a reader takes from a text and what it leaves. Readers of larger
parts look past blanks, before what they take and after it, so for them blanks in front do
not count: `ReadsAt` says what is left but for blanks, and `Reads` starts behind any number
of blanks too. Offsets are told in errors only and are left out of all three.

Each of the three has a lemma for a chain of readers. A proof about a reader goes through
it from the front, and names the text that each part leaves.
-/

import Lexigraph.Pattern.Reader

namespace Lexigraph

/-! ## Blanks in front -/

/-- A text without the blanks in front. -/
def Text.pastBlanks (cs : List Char) : List Char := cs.dropWhile Text.isBlank

namespace Text

theorem pastBlanks_cons {c : Char} (h : isBlank c = false) (cs : List Char) :
    pastBlanks (c :: cs) = c :: cs := by
  unfold pastBlanks
  rw [List.dropWhile_cons_of_neg (by rw [h]; simp)]

theorem pastBlanks_cons_blank {c : Char} (h : isBlank c = true) (cs : List Char) :
    pastBlanks (c :: cs) = pastBlanks cs :=
  List.dropWhile_cons_of_pos h

theorem pastBlanks_append {blanks : List Char} (h : ∀ c ∈ blanks, isBlank c = true)
    (cs : List Char) : pastBlanks (blanks ++ cs) = pastBlanks cs := by
  induction blanks with
  | nil => rfl
  | cons c blanks ih =>
    rw [List.cons_append, pastBlanks_cons_blank (h c List.mem_cons_self)]
    exact ih fun d hd => h d (List.mem_cons_of_mem _ hd)

theorem isBlank_of_head_pastBlanks {cs : List Char} {c : Char}
    (h : (pastBlanks cs).head? = some c) : isBlank c = false := by
  induction cs with
  | nil => cases h
  | cons d cs ih =>
    cases hd : isBlank d with
    | true =>
      rw [pastBlanks_cons_blank hd] at h
      exact ih h
    | false =>
      rw [pastBlanks_cons hd] at h
      obtain rfl : d = c := Option.some.inj h
      exact hd

theorem pastBlanks_pastBlanks (cs : List Char) : pastBlanks (pastBlanks cs) = pastBlanks cs := by
  cases h : pastBlanks cs with
  | nil => rfl
  | cons c rest =>
    apply pastBlanks_cons
    apply isBlank_of_head_pastBlanks
    rw [h]
    rfl

end Text

open Text (pastBlanks)

variable {ε α β : Type}

/-! ## Taking and reading -/

/-- From `text` a reader takes `a` and leaves `rest`. -/
def Takes (r : StateT Cursor (Except ε) α) (text : List Char) (a : α) (rest : List Char) : Prop :=
  ∀ o, ∃ o', r ⟨text, o⟩ = .ok (a, ⟨rest, o'⟩)

/-- From `text` a reader takes `a` and leaves `rest`, give or take blanks in front of it. -/
def ReadsAt (r : StateT Cursor (Except ε) α) (text : List Char) (a : α) (rest : List Char) :
    Prop :=
  ∀ o, ∃ left o', r ⟨text, o⟩ = .ok (a, ⟨left, o'⟩) ∧ pastBlanks left = pastBlanks rest

/-- The same from any text that is `text`, give or take blanks in front of it. -/
def Reads (r : StateT Cursor (Except ε) α) (text : List Char) (a : α) (rest : List Char) : Prop :=
  ∀ text', pastBlanks text' = pastBlanks text → ReadsAt r text' a rest

variable {r : StateT Cursor (Except ε) α} {f : α → StateT Cursor (Except ε) β}
  {text mid rest : List Char} {a : α} {b : β}

theorem Reads.readsAt (h : Reads r text a rest) : ReadsAt r text a rest := h text rfl

theorem Takes.readsAt {left : List Char} (h : Takes r text a left)
    (hleft : pastBlanks left = pastBlanks rest) : ReadsAt r text a rest := by
  intro o
  obtain ⟨o', hr⟩ := h o
  exact ⟨left, o', hr, hleft⟩

theorem bind_eq_of_ok {cursor cursor' : Cursor} (h : r cursor = .ok (a, cursor')) :
    (r >>= f) cursor = f a cursor' := by
  show (r cursor >>= fun p => f p.1 p.2 : Except ε (β × Cursor)) = _
  rw [h]
  rfl

theorem Takes.bind (h : Takes r text a mid) (h' : Takes (f a) mid b rest) :
    Takes (r >>= f) text b rest := by
  intro o
  obtain ⟨o', hr⟩ := h o
  rw [bind_eq_of_ok hr]
  exact h' o'

theorem Takes.bind_readsAt (h : Takes r text a mid) (h' : ReadsAt (f a) mid b rest) :
    ReadsAt (r >>= f) text b rest := by
  intro o
  obtain ⟨o', hr⟩ := h o
  rw [bind_eq_of_ok hr]
  exact h' o'

theorem ReadsAt.bind (h : ReadsAt r text a mid) (h' : Reads (f a) mid b rest) :
    ReadsAt (r >>= f) text b rest := by
  intro o
  obtain ⟨left, o', hr, hleft⟩ := h o
  rw [bind_eq_of_ok hr]
  exact h' left hleft o'

theorem Reads.bind (h : Reads r text a mid) (h' : Reads (f a) mid b rest) :
    Reads (r >>= f) text b rest :=
  fun text' htext => (h text' htext).bind h'

theorem Takes.pure (a : α) (text : List Char) :
    Takes (pure a : StateT Cursor (Except ε) α) text a text :=
  fun o => ⟨o, rfl⟩

theorem Reads.pure (a : α) (text : List Char) :
    Reads (pure a : StateT Cursor (Except ε) α) text a text :=
  fun text' htext o => ⟨text', o, rfl, htext⟩

/-- Something that is only looked at: whatever it is, the rest takes from the same text. -/
theorem Takes.look_bind (hr : ∀ o, ∃ a, r ⟨text, o⟩ = .ok (a, ⟨text, o⟩))
    (h : ∀ a, Takes (f a) text b rest) : Takes (r >>= f) text b rest := by
  intro o
  obtain ⟨a, ha⟩ := hr o
  rw [bind_eq_of_ok ha]
  exact h a o

theorem Takes.get_bind {f : Cursor → StateT Cursor (Except ε) β}
    (h : ∀ o, Takes (f ⟨text, o⟩) text b rest) : Takes (get >>= f) text b rest :=
  fun o => h o o

theorem ReadsAt.look_bind (hr : ∀ o, ∃ a, r ⟨text, o⟩ = .ok (a, ⟨text, o⟩))
    (h : ∀ a, ReadsAt (f a) text b rest) : ReadsAt (r >>= f) text b rest := by
  intro o
  obtain ⟨a, ha⟩ := hr o
  rw [bind_eq_of_ok ha]
  exact h a o

/-- Once blanks are skipped, what is left is known exactly. -/
theorem Reads.of_skip {skip : StateT Cursor (Except ε) Unit} {f : Unit → StateT Cursor (Except ε) β}
    (hskip : ∀ text, Takes skip text ⟨⟩ (pastBlanks text))
    (h : ReadsAt (f ⟨⟩) (pastBlanks text) b rest) : Reads (skip >>= f) text b rest := by
  intro text' htext
  rw [← htext] at h
  exact (hskip text').bind_readsAt h

/-! ## Lexemes among patterns -/

section Lift

variable {r : Reader α}

theorem lift_apply_of_ok {cursor : Cursor} {result : α × Cursor} (h : r cursor = .ok result) :
    (liftM r : PatternReader α) cursor = .ok result := by
  rw [PatternReader.lift_apply, h]
  rfl

theorem Takes.lift (h : Takes r text a rest) : Takes (liftM r : PatternReader α) text a rest := by
  intro o
  obtain ⟨o', hr⟩ := h o
  exact ⟨o', lift_apply_of_ok hr⟩

theorem ReadsAt.lift (h : ReadsAt r text a rest) :
    ReadsAt (liftM r : PatternReader α) text a rest := by
  intro o
  obtain ⟨left, o', hr, hleft⟩ := h o
  exact ⟨left, o', lift_apply_of_ok hr, hleft⟩

/-- What was read before is told when a reader fails, and else makes no difference. -/
theorem Takes.after {r : PatternReader α} {done : Unit → List Pattern}
    (h : Takes r text a rest) : Takes (PatternReader.after done r) text a rest := by
  intro o
  obtain ⟨o', hr⟩ := h o
  refine ⟨o', ?_⟩
  unfold PatternReader.after
  rw [hr]

theorem ReadsAt.after {r : PatternReader α} {done : Unit → List Pattern}
    (h : ReadsAt r text a rest) : ReadsAt (PatternReader.after done r) text a rest := by
  intro o
  obtain ⟨left, o', hr, hleft⟩ := h o
  refine ⟨left, o', ?_, hleft⟩
  unfold PatternReader.after
  rw [hr]

theorem Reads.after {r : PatternReader α} {done : Unit → List Pattern}
    (h : Reads r text a rest) : Reads (PatternReader.after done r) text a rest :=
  fun text' htext => (h text' htext).after

end Lift

/-! ## Characters -/

namespace Reader

/-- A run of characters of one kind ends at the first one of another kind. -/
theorem span_run {p : Char → Bool} {run : List Char} (hrun : ∀ c ∈ run, p c = true)
    (hrest : ∀ c ∈ rest.head?, p c = false) :
    (run ++ rest).takeWhile p = run ∧ (run ++ rest).dropWhile p = rest := by
  have hstop : rest.takeWhile p = [] ∧ rest.dropWhile p = rest := by
    cases rest with
    | nil => exact ⟨rfl, rfl⟩
    | cons c rest =>
      have hc : p c = false := hrest c rfl
      rw [List.takeWhile_cons, List.dropWhile_cons, hc]
      exact ⟨rfl, rfl⟩
  rw [List.takeWhile_append_of_pos hrun, List.dropWhile_append_of_pos hrun, hstop.1, hstop.2,
    List.append_nil]
  exact ⟨rfl, rfl⟩

theorem takeWhile_takes {p : Char → Bool} {run : List Char} (hrun : ∀ c ∈ run, p c = true)
    (hrest : ∀ c ∈ rest.head?, p c = false) : Takes (takeWhile p) (run ++ rest) run rest := by
  intro o
  obtain ⟨htake, hleave⟩ := span_run hrun hrest
  refine ⟨o + Text.size run, ?_⟩
  show Except.ok ((run ++ rest).takeWhile p, _) = _
  rw [htake, hleave]

theorem skipBlank_takes (h : pastBlanks text = rest) : Takes skipBlank text ⟨⟩ rest := by
  intro o
  subst h
  exact ⟨_, rfl⟩

theorem eat_takes (c : Char) (rest : List Char) : Takes (eat c) (c :: rest) true rest := by
  intro o
  refine ⟨o + c.utf8Size, ?_⟩
  show Except.ok (if c = c then _ else _) = _
  rw [if_pos rfl]

theorem eat_takes_not {c : Char} (h : text.head? ≠ some c) : Takes (eat c) text false text := by
  intro o
  refine ⟨o, ?_⟩
  cases text with
  | nil => rfl
  | cons d text =>
    have hne : c ≠ d := fun heq => h (by rw [heq]; rfl)
    show Except.ok (if c = d then _ else _) = _
    rw [if_neg hne]

theorem peek?_takes (text : List Char) : Takes peek? text text.head? text := fun o => ⟨o, rfl⟩

theorem offset_look (text : List Char) (o : Nat) :
    ∃ a, (offset : Reader Nat) ⟨text, o⟩ = .ok (a, ⟨text, o⟩) := ⟨o, rfl⟩

theorem expect_takes {c : Char} {wanted : Wanted} (h : pastBlanks text = c :: rest) :
    Takes (expect c wanted) text ⟨⟩ rest :=
  (skipBlank_takes h).bind ((eat_takes c rest).bind (Takes.pure _ _))

end Reader

end Lexigraph
