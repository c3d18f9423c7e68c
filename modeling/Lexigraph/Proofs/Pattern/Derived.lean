/-
# Lexigraph.Proofs.Pattern.Derived -- what is read derives

Where the reader takes a pattern from a text, the pattern is that of a derivation tree, and the
lexemes of the tree can be taken from the text (`Derives`). The reader recurses on a bound, and
so does the proof: what is behind a smaller bound is known, part by part, to derive.
-/

import Lexigraph.Proofs.Pattern.Taken

namespace Lexigraph

open Text (pastBlanks)
open Phrase

variable {text rest : List Char}

namespace PatternReader

open Reader

/-! ## Bodies -/

variable {fuel opened : Nat} {annotations : Annotations} {p head : Pattern}

theorem took_terminal (h : Took (terminal fuel annotations opened) text p rest) :
    ∃ body : Phrase.Body, p = body.pattern annotations ∧ Lexes body.lexemes text rest := by
  obtain ⟨first, mid, hfirst, h⟩ := h.bind
  obtain ⟨others, last, hothers, h⟩ := h.bind
  obtain ⟨_, closed, hclose, h⟩ := h.bind
  obtain ⟨token, left, htoken, h⟩ := h.bind
  obtain ⟨q, rfl, hq⟩ := took_quoted hfirst.lift
  obtain ⟨qs, rfl, hqs⟩ := took_literals hothers.lift
  obtain ⟨n, rfl, hn⟩ := took_token? htoken.lift
  cases n with
  | none => exact absurd h not_took_throw
  | some n =>
    obtain ⟨rfl, rfl⟩ := h.pure
    have hend : Lexes (.sign .closeParen :: n.lexemes) last rest :=
      ⟨closed, took_expect hclose.lift, nofun, hn⟩
    exact ⟨.terminal q qs n, rfl, mid, hq, nofun, hqs.append hend⟩

theorem took_choice (htext : text.head? = some ')')
    (h : Took (choice annotations) text p rest) :
    ∃ body : Phrase.Body, p = body.pattern annotations ∧ Lexes body.lexemes text rest := by
  obtain ⟨mid, rfl⟩ := List.head?_eq_some_iff.1 htext
  have h := h.bind_takes (eat_takes ')' mid).lift
  obtain ⟨token, left, htoken, h⟩ := h.bind
  obtain ⟨n, rfl, hn⟩ := took_token? htoken.lift
  obtain ⟨rfl, rfl⟩ := h.pure
  exact ⟨.choice n, rfl, mid, Text.pastBlanks_cons (by decide) mid, nofun, hn⟩

/-- What the reader takes is the pattern of a node, whose lexemes can be taken. -/
def Derives (node : PatternReader Pattern) : Prop :=
  ∀ text p rest, Took node text p rest →
    ∃ t : Phrase, p = t.pattern ∧ Lexes t.lexemes text rest

variable {node : PatternReader Pattern}

/-- Bounds that pass the check are in order. -/
theorem took_checkedBounds {b : UInt32 × Option UInt32} (h : Took (do
      let bounds ← Reader.bounds
      Reader.expect ')' .closeParen
      check (checkBounds bounds.1 bounds.2)
      return bounds : PatternReader (UInt32 × Option UInt32)) text b rest) :
    ∃ bs : Bounds, bs.Ordered ∧ b = (bs.min, bs.max) ∧
      Lexes (bs.lexemes ++ [.sign .closeParen]) text rest := by
  obtain ⟨b', mid, hbounds, h⟩ := h.bind
  obtain ⟨_, closed, hclose, h⟩ := h.bind
  obtain ⟨_, left, hcheck, h⟩ := h.bind
  obtain ⟨rfl, rfl⟩ := h.pure
  cases hchecked : checkBounds b.1 b.2 with
  | error e =>
    rw [hchecked] at hcheck
    exact absurd hcheck not_took_throw
  | ok u =>
    rw [hchecked] at hcheck
    obtain ⟨-, rfl⟩ := hcheck.pure
    obtain ⟨bs, hmin, hmax, hbs⟩ := took_bounds hbounds.lift (took_expect hclose.lift)
    rw [← hmin, ← hmax] at hchecked
    refine ⟨bs, bs.checkBounds_eq_ok_iff.1 hchecked, ?_, hbs⟩
    rw [hmin, hmax]

theorem took_repetition (hnode : Derives node)
    (h : Took (repetition node annotations) text p rest) :
    ∃ body : Phrase.Body, p = body.pattern annotations ∧ Lexes body.lexemes text rest := by
  obtain ⟨child, mid, hchild, h⟩ := h.bind
  obtain ⟨b, closed, hbounds, h⟩ := h.bind
  obtain ⟨token, left, htoken, h⟩ := h.bind
  obtain ⟨t, rfl, ht⟩ := hnode _ _ _ hchild
  obtain ⟨bs, hordered, rfl, hbs⟩ := took_checkedBounds hbounds.after
  obtain ⟨n, rfl, hn⟩ := took_token? htoken.after.lift
  obtain ⟨rfl, rfl⟩ := h.pure
  have hend := hbs.append hn
  rw [List.append_assoc] at hend
  exact ⟨.repetition t bs hordered n, rfl, ht.append hend⟩

theorem took_body (hnode : Derives node)
    (h : Took (body node fuel annotations opened) text p rest) :
    ∃ body : Phrase.Body, p = body.pattern annotations ∧ Lexes body.lexemes text rest := by
  have h := h.bind_takes (peek?_takes text).lift
  split at h
  · exact took_terminal h
  · next hhead => exact took_choice hhead h
  · exact took_repetition hnode h

/-! ## Branches -/

theorem took_branchList (hnode : Derives node) {found : List Pattern}
    (h : Took (branchList node head fuel found) text p rest) :
    ∃ (t : Phrase) (ts : List Phrase),
      p = head.withBranches (found.reverse ++ t.pattern :: patternAll ts) ∧
        Lexes (t.lexemes ++ moreLexemes ts) text rest := by
  induction fuel generalizing found text with
  | zero =>
    have h : Took (after (fun _ => [head.withBranches found.reverse]) missing) text p rest := h
    exact absurd h.after.lift not_took_missing
  | succ fuel ih =>
    have h := h.bind_takes (skipBlank_takes rfl).lift
    obtain ⟨branch, mid, hbranch, h⟩ := h.bind
    obtain ⟨t, rfl, ht⟩ := hnode _ _ _ hbranch.after
    have ht := ht.congr (Text.pastBlanks_pastBlanks text).symm rfl
    have h := h.bind_takes (skipBlank_takes rfl).lift
    obtain ⟨taken, left, heat, h⟩ := h.bind
    rcases took_eat heat.lift with ⟨rfl, hmid⟩ | ⟨rfl, rfl, -⟩
    · obtain ⟨t', ts, rfl, hts⟩ := ih h
      exact ⟨t, t' :: ts, by simp [patternAll], ht.append ⟨left, hmid, nofun, hts⟩⟩
    · obtain ⟨_, left, hclose, h⟩ := h.bind
      obtain ⟨rfl, rfl⟩ := h.pure
      have hbrace := took_expect hclose.after.lift
      rw [Text.pastBlanks_pastBlanks] at hbrace
      exact ⟨t, [], by simp [patternAll], ht.append ⟨_, hbrace, nofun, rfl⟩⟩

theorem took_branches (hnode : Derives node) (hhead : head.branches = [])
    (h : Took (branches node fuel head) text p rest) :
    ∃ next : Phrase.Next, p = head.withBranches next.patterns ∧ Lexes next.lexemes text rest := by
  have h := h.bind_takes (skipBlank_takes rfl).lift
  obtain ⟨taken, mid, heat, h⟩ := h.bind
  rcases took_eat heat.lift with ⟨rfl, htext⟩ | ⟨rfl, rfl, -⟩
  · have h := h.bind_takes (skipBlank_takes rfl).lift
    obtain ⟨taken, left, heat, h⟩ := h.bind
    rcases took_eat heat.lift with ⟨rfl, hmid⟩ | ⟨rfl, rfl, -⟩
    · obtain ⟨t, ts, rfl, hts⟩ := took_branchList hnode h
      exact ⟨.list t ts, rfl, mid, htext, nofun, left, hmid, nofun, hts⟩
    · obtain ⟨branch, left, hbranch, h⟩ := h.bind
      obtain ⟨t, rfl, ht⟩ := hnode _ _ _ hbranch.after
      obtain ⟨rfl, rfl⟩ := h.pure
      have ht := ht.congr (Text.pastBlanks_pastBlanks mid).symm rfl
      exact ⟨.one t, rfl, mid, htext, nofun, ht⟩
  · obtain ⟨rfl, rfl⟩ := h.pure
    exact ⟨.none, (Pattern.withBranches_self hhead).symm, lexes_nil text⟩

/-! ## Patterns -/

theorem around_derives (hnode : Derives node) (fuel : Nat) : Derives (around node fuel) := by
  intro text p rest h
  obtain ⟨a, mid, hannotations, h⟩ := h.bind
  obtain ⟨opened, mid', hoffset, h⟩ := h.bind
  rw [took_offset hoffset.lift] at h
  obtain ⟨_, inner, hopen, h⟩ := h.bind
  have h := h.bind_takes (skipBlank_takes rfl).lift
  obtain ⟨head, last, hbody, h⟩ := h.bind
  obtain ⟨marks, rfl, hmarks⟩ := took_annotations hannotations.lift
  obtain ⟨body, rfl, hinside⟩ := took_body hnode hbody
  obtain ⟨next, rfl, hnext⟩ := took_branches hnode (body.branches_pattern _) h
  have hinner := hinside.congr (Text.pastBlanks_pastBlanks inner).symm rfl
  have hparen : Lexes (.sign .openParen :: (body.lexemes ++ next.lexemes)) mid rest :=
    ⟨inner, took_expect hopen.lift, nofun, hinner.append hnext⟩
  exact ⟨.mk marks body next, rfl, hmarks.append hparen⟩

theorem pattern_derives (fuel : Nat) : Derives (pattern fuel) := by
  induction fuel with
  | zero => exact fun text p rest h => absurd h.lift not_took_missing
  | succ fuel ih => exact around_derives ih fuel

end PatternReader

/-- **What a text denotes is the pattern of a tree that the text derives from.** -/
theorem Pattern.derives_of_ofText {text : List Char} {p : Pattern} (h : ofText text = .ok p) :
    ∃ t : Phrase, text ∈ t.documents ∧ t.pattern = p := by
  have htook : ∃ rest, Took (PatternReader.whole text.length) text p rest := by
    unfold ofText at h
    split at h
    · next p' cursor hwhole =>
      cases h
      exact ⟨cursor.rest, 0, cursor.offset, hwhole⟩
    · cases h
  obtain ⟨rest, h⟩ := htook
  obtain ⟨p', mid, hpattern, h⟩ := h.bind
  obtain ⟨_, left, hend, h⟩ := h.bind
  obtain ⟨rfl, rfl⟩ := h.pure
  obtain ⟨t, rfl, ht⟩ := PatternReader.pattern_derives _ _ _ _ hpattern
  have hend := hend.after.bind_takes (Reader.skipBlank_takes rfl).lift
  obtain ⟨o, hend⟩ := hend.get_bind
  refine ⟨t, mem_documents_iff.2 ?_, rfl⟩
  -- nothing but blanks is left, or the reader would have failed
  cases hmid : pastBlanks mid with
  | nil => exact ht.congr rfl hmid.symm
  | cons c cs =>
    rw [hmid] at hend
    obtain ⟨o, left, hoffset, hend⟩ := hend.bind
    exact absurd hend Reader.not_took_throw

end Lexigraph
