/-
# Lexigraph.Proofs.Pattern.CutOff -- texts with more than a pattern

Where there is more than a whole node, the text is cut in two. Up to there it is a pattern by
itself: its lexemes are the same without what comes behind (`mem_documents_of_trailing`). And what
comes there does not go on with the pattern, however much of it there is: with more of the text, or
with all of it, the error is the same (`ofText_of_further`).
-/

import Lexigraph.Proofs.Pattern.Accepted
import Lexigraph.Proofs.Pattern.Misread
import Lexigraph.Proofs.Pattern.Unbounded

namespace Lexigraph

open Text (pastBlanks)

/-! ## Up to the offset -/

namespace Phrase

variable {ls : List Lexeme} {front rest : List Char} {d : Char}

/-- What is left of a text is an end of it. -/
theorem Lexes.suffix {text : List Char} (h : Lexes ls text rest) : pastBlanks rest <:+ text := by
  induction ls generalizing text with
  | nil =>
    have heq : pastBlanks text = pastBlanks rest := h
    rw [← heq]
    exact List.dropWhile_suffix _
  | cons l ls ih =>
    obtain ⟨mid, hmid, -, h⟩ := h
    have hpast : pastBlanks text <:+ text := List.dropWhile_suffix _
    rw [hmid] at hpast
    exact (ih h).trans ((List.suffix_append _ _).trans hpast)

/-- A text is cut in front of a character that is no blank: its lexemes stay. -/
theorem Lexes.cut (hd : Text.isBlank d = false)
    (h : Lexes ls (front ++ d :: rest) (d :: rest)) : Lexes ls front [] := by
  have hkeep : pastBlanks (d :: rest) = d :: rest := Text.pastBlanks_cons hd rest
  -- past blanks, either something of the front is left, or all of it was blank
  have hfront (cs : List Char) : pastBlanks (cs ++ d :: rest) = pastBlanks cs ++ d :: rest := by
    unfold pastBlanks at hkeep ⊢
    rw [List.dropWhile_append]
    split
    · next hempty => rw [List.isEmpty_iff.1 hempty, List.nil_append, hkeep]
    · rfl
  induction ls generalizing front with
  | nil =>
    have heq : pastBlanks (front ++ d :: rest) = pastBlanks (d :: rest) := h
    rw [hfront, hkeep] at heq
    show pastBlanks front = []
    exact List.append_left_eq_self.1 heq
  | cons l ls ih =>
    obtain ⟨mid, hmid, hends, h⟩ := h
    obtain ⟨mid, rfl⟩ : ∃ mid', mid' ++ d :: rest = mid := by
      have hsuffix := h.suffix
      rwa [hkeep] at hsuffix
    rw [hfront, ← List.append_assoc] at hmid
    refine ⟨mid, List.append_cancel_right hmid, fun hnamed c hc => ?_, ih h⟩
    refine hends hnamed c ?_
    rw [List.head?_append, Option.mem_def.1 hc]
    rfl

/-- Where there is more than a whole node, the text up to there is a document. -/
theorem mem_documents_of_trailing {p : Phrase} (hd : Text.isBlank d = false)
    (h : Lexes p.lexemes (front ++ d :: rest) (d :: rest)) : front ∈ p.documents :=
  mem_documents_iff.2 (h.cut hd)

end Phrase

/-! ## Further than the offset -/

namespace PatternReader

/-- A node is read the same, and the blanks behind it are, if a text goes on for a character at
least. -/
theorem pattern_of_further {p : Pattern} {c : Cursor} {passed front rest : List Char} {o : Nat}
    (hp : pattern (passed ++ rest).length (.ofText (passed ++ rest)) = .ok (p, c))
    (hskip : Reader.skipBlank c = .ok (⟨⟩, ⟨rest, o⟩)) (hne : front ≠ [])
    (hfront : front <+: rest) :
    ∃ c', pattern (passed ++ front).length (.ofText (passed ++ front)) = .ok (p, c') ∧
      Reader.skipBlank c' = .ok (⟨⟩, ⟨front, o⟩) := by
  obtain ⟨passed₁, hpassed, -⟩ := (pattern_forward _).ahead hp
  obtain ⟨passed₂, hc, -⟩ := Reader.skipBlank_forward.ahead hskip
  obtain ⟨left, o'⟩ := c
  obtain rfl : left = passed₂ ++ rest := hc
  obtain rfl : passed = passed₁ ++ passed₂ :=
    List.append_cancel_right (hpassed.trans (List.append_assoc _ _ _).symm)
  refine ⟨⟨passed₂ ++ front, o'⟩, ?_, Reader.skipBlank_forward.cut hskip hne hfront⟩
  have hlength : (passed₁ ++ passed₂ ++ front).length ≤ (passed₁ ++ passed₂ ++ rest).length := by
    have hle := hfront.length_le
    simp only [List.length_append]
    omega
  have hstable : pattern (passed₁ ++ passed₂ ++ front).length
      (.ofText (passed₁ ++ passed₂ ++ front)) =
        pattern (passed₁ ++ passed₂ ++ rest).length (.ofText (passed₁ ++ passed₂ ++ front)) :=
    pattern_stable (Nat.le_refl _) hlength
  have hmid : passed₂ ++ front <+: passed₂ ++ rest := (List.prefix_append_right_inj _).2 hfront
  have hne : passed₂ ++ front ≠ [] := List.append_ne_nil_of_right_ne_nil _ hne
  rw [hstable]
  unfold Cursor.ofText at hp ⊢
  generalize (passed₁ ++ passed₂ ++ rest).length = length at hp ⊢
  rw [List.append_assoc] at hp ⊢
  exact (pattern_forward length).cut hp hne hmid

/-- A whole text is refused where a character is left behind its node. -/
theorem whole_of_trailing {text rest : List Char} {p : Pattern} {c : Cursor} {o : Nat}
    (hp : pattern text.length (.ofText text) = .ok (p, c))
    (hskip : Reader.skipBlank c = .ok (⟨⟩, ⟨rest, o⟩)) (hne : rest ≠ []) :
    whole text.length (.ofText text) = .error { error := .trailingInput o, fragments := [p] } := by
  obtain ⟨d, rest, rfl⟩ := List.exists_cons_of_ne_nil hne
  unfold whole
  rw [bind_eq_of_ok hp]
  have hafter : after (fun _ => [p]) (do
      Reader.skipBlank
      let rest := (← get).rest
      unless rest.isEmpty do throw { error := .trailingInput (← Reader.offset) }) c =
        .error { error := .trailingInput o, fragments := [p] } := by
    unfold after
    rw [bind_eq_of_ok (lift_ok_iff.2 hskip), get_bind]
    rfl
  show (after _ _ c >>= fun q => _ : Except Misread (Pattern × Cursor)) = _
  rw [hafter]
  rfl

end PatternReader

/-- **What comes behind a whole node does not go on with it.** The text is refused for the same
error if it is cut off anywhere further on. -/
theorem Pattern.ofText_of_further {text front : List Char} {m : Misread} {o : Nat}
    (h : ofText text = .error m) (hm : m.error = .trailingInput o) (hfront : front <+: text)
    (ho : o < Text.size front) : ofText front = .error m := by
  have hwhole : PatternReader.whole text.length (.ofText text) = .error m := by
    unfold ofText at h
    split at h
    · cases h
    · next m' hwhole => exact hwhole.trans (congrArg _ (Except.error.inj h))
  rcases PatternReader.whole_error hwhole with herror | ⟨p, c, d, rest, o', hp, -, hskip, rfl⟩
  · -- inside of a node there is no such error
    have hflaw := (PatternReader.pattern_honest text _).flawed _ _ m (Phrase.behind_nil text)
      (fun p => ⟨p, List.prefix_refl _⟩) herror
    rw [hm] at hflaw
    cases hflaw
  obtain rfl : o' = o := ReadError.trailingInput.inj hm
  obtain ⟨passed, htext, hoffset⟩ :=
    ((PatternReader.pattern_forward _).ahead hp).trans (Reader.skipBlank_forward.ahead hskip)
  obtain rfl : text = passed ++ d :: rest := htext
  have hsize : o' = Text.size passed := hoffset.trans (Nat.zero_add _)
  -- the front goes on for a character at least
  obtain ⟨more, rfl⟩ : passed <+: front := by
    rcases List.prefix_or_prefix_of_prefix hfront (List.prefix_append _ _) with hless | hmore
    · obtain ⟨left, rfl⟩ := hless
      rw [hsize, Text.size_append] at ho
      omega
    · exact hmore
  have hne : more ≠ [] := by
    rintro rfl
    rw [hsize, List.append_nil] at ho
    exact Nat.lt_irrefl _ ho
  have hmore : more <+: d :: rest := (List.prefix_append_right_inj passed).1 hfront
  obtain ⟨c', hp', hskip'⟩ := PatternReader.pattern_of_further hp hskip hne hmore
  have hfurther := PatternReader.whole_of_trailing hp' hskip' hne
  unfold Cursor.ofText at hfurther
  unfold ofText
  rw [hfurther]

end Lexigraph
