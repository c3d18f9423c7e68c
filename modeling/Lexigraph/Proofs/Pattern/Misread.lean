/-
# Lexigraph.Proofs.Pattern.Misread -- the faults of texts that are no patterns

A reader of patterns that fails does so for a flaw of the text. It is gone through as one of lexemes
is: behind what was taken of a node any lexeme may come that goes on with the node, and a node that
is read inside another one may be any node. The reader recurses on a bound, and so does the proof.

A text that is not read has a flaw in its node, or there is more than the node.
-/

import Lexigraph.Proofs.Pattern.Accepted
import Lexigraph.Proofs.Pattern.Flaw

namespace Lexigraph

open Text (pastBlanks)
open Phrase

/-! ## What a node may go on with -/

namespace Phrase

variable {ls k : List Lexeme}

theorem RoomFor.next (h : RoomFor ls) (body : Body) (next : Next) :
    Begins (ls ++ .sign .openParen :: (body.lexemes ++ next.lexemes)) := h (.mk [] body next)

theorem RoomFor.body (h : RoomFor ls) (body : Body) (hk : k <+: .sign .openParen :: body.lexemes) :
    Begins (ls ++ k) := by
  refine (h.next body .none).shorter ?_
  rw [List.prefix_append_right_inj]
  exact hk.trans (by simp [Next.lexemes])

theorem RoomFor.marks (h : RoomFor ls) (marks : List Mark) :
    RoomFor (ls ++ marks.flatMap Mark.lexemes) := by
  induction marks generalizing ls with
  | nil => rwa [List.flatMap_nil, List.append_nil]
  | cons m marks ih =>
    rw [List.flatMap_cons, ← List.append_assoc]
    exact ih (h.mark m)

/-- A child is a node behind a parenthesis. -/
theorem RoomFor.child (h : RoomFor ls) : RoomFor (ls ++ [.sign .openParen]) := by
  intro p
  rw [List.append_assoc]
  refine h.body (.repetition p .usual nofun none) ?_
  simp [Body.lexemes]

end Phrase

namespace PatternReader

open Reader

variable {text : List Char} {ls : List Lexeme} {c : Cursor} {m : Misread}
  {node : PatternReader Pattern} {fuel : Nat} {annotations : Annotations}

/-! ## Bodies -/

theorem lift_peek?_bind {α : Type} {f : Option Char → PatternReader α} :
    ((liftM Reader.peek? : PatternReader (Option Char)) >>= f) c = f c.rest.head? c := rfl

theorem lift_offset_bind {α : Type} {f : Nat → PatternReader α} :
    ((liftM Reader.offset : PatternReader Nat) >>= f) c = f c.offset c := rfl

/-- No blanks are left behind annotations. -/
theorem annotations_past {found a : Annotations} {text rest : List Char}
    (h : Took (Reader.annotations fuel found) text a rest) : pastBlanks rest = rest := by
  induction fuel generalizing found text with
  | zero =>
    have h := h.bind_takes (skipBlank_takes rfl)
    obtain ⟨start, mid, hoffset, h⟩ := h.bind
    rw [took_offset hoffset] at h
    rw [h.pure.2]
    exact Text.pastBlanks_pastBlanks text
  | succ fuel ih =>
    have h := h.bind_takes (skipBlank_takes rfl)
    obtain ⟨start, mid, hoffset, h⟩ := h.bind
    rw [took_offset hoffset] at h
    obtain ⟨taken, named, heat, h⟩ := h.bind
    rcases took_eat heat with ⟨rfl, -⟩ | ⟨rfl, rfl, -⟩
    · obtain ⟨run, mid, -, h⟩ := h.bind
      dsimp only at h
      split_ifs at h
      · obtain ⟨_, _, -, h⟩ := h.bind
        obtain ⟨_, _, -, h⟩ := h.bind
        obtain ⟨_, _, -, h⟩ := h.bind
        exact ih h
      · split at h
        · exact ih h
        · exact absurd h not_took_throw
    · rw [h.pure.2]
      exact Text.pastBlanks_pastBlanks text

/-- Where a character is not taken, the cursor stays. -/
theorem eat_not {d : Char} {c' : Cursor} (h : eat d c = .ok (false, c')) : c' = c := by
  rcases c with ⟨_ | ⟨f, rest⟩, o⟩
  · cases h
    rfl
  · unfold eat at h
    dsimp only at h
    split_ifs at h
    · cases h
    · cases h
      rfl

theorem missing_flawed (hc : c.Stands text) (h : missing c = .error m) : Flawed text m.error := by
  cases h
  exact .expected hc

/-- No token is taken where there is no arrow. -/
theorem token?_none {c' : Cursor} (h : token? c = .ok (none, c')) :
    ¬ ['-', '>'] <+: pastBlanks c.rest := by
  rintro ⟨rest, hrest⟩
  have h := (took_of_ok h).bind_takes (skipBlank_takes rfl)
  obtain ⟨o, h⟩ := h.get_bind
  dsimp only at h
  rw [← hrest] at h
  have h := h.bind_takes (eat_takes '-' _)
  have h := h.bind_takes (eat_takes '>' rest)
  have h := h.bind_takes (skipBlank_takes rfl)
  have h := h.bind_takes (peek?_takes _)
  split_ifs at h
  · obtain ⟨_, _, -, h⟩ := h.bind
    cases h.pure.1
  · obtain ⟨name, _, -, h⟩ := h.bind
    split at h
    · exact not_took_missing h
    · cases h.pure.1

/-- The parenthesis of a node in front of a text, and the cursor behind it. -/
structure Opened (text : List Char) (ls : List Lexeme) (paren c : Cursor) : Prop where
  before : Behind text ls paren
  head : paren.rest.head? = some '('
  lexes : Lexes [.sign .openParen] paren.rest c.rest
  inside : Behind text (ls ++ [.sign .openParen]) c
  past : pastBlanks c.rest = c.rest
  room : RoomFor ls

theorem terminal_flawed {paren : Cursor} (hc : Opened text ls paren c)
    (h : terminal fuel annotations paren.offset c = .error m) : Flawed text m.error := by
  rcases bind_error h with h | ⟨first, c₁, hfirst, h⟩
  · refine quoted_flawed hc.inside (.inl hc.past) (fun q => ?_) (lift_error h)
    rw [List.append_assoc]
    exact hc.room.body (.terminal q [] (.quoted q)) (by simp [Body.lexemes])
  obtain ⟨q, rfl, hq⟩ := took_quoted (took_of_ok (lift_ok_iff.1 hfirst))
  have hlexes₁ : Lexes [.quotation q] c.rest c₁.rest := ⟨_, hq, nofun, rfl⟩
  have hc₁ := hc.inside.took quoted_forward (lift_ok_iff.1 hfirst) hlexes₁
  rcases bind_error h with h | ⟨others, c₂, hothers, h⟩
  · refine literals_flawed hc₁ (fun others => ?_) (lift_error h)
    rw [List.append_assoc, List.append_assoc]
    exact hc.room.body (.terminal q others (.quoted q)) (by simp [Body.lexemes])
  obtain ⟨qs, rfl, hqs⟩ := took_literals (took_of_ok (lift_ok_iff.1 hothers))
  have hc₂ := hc₁.took (literals_forward fuel []) (lift_ok_iff.1 hothers) hqs
  rcases bind_error h with h | ⟨_, c₃, hclose, h⟩
  · exact expect_flawed hc₂.stands (lift_error h)
  have hc₃ := expect_behind hc₂ .closeParen rfl (lift_ok_iff.1 hclose)
  rcases bind_error h with h | ⟨token, c₄, htoken, h⟩
  · refine token?_flawed hc₃ (fun n => ?_) (lift_error h)
    simp only [List.append_assoc]
    exact hc.room.body (.terminal q qs n) (by simp [Body.lexemes])
  cases token with
  | some token => cases h
  | none =>
    cases h
    have hbegins : Begins (ls ++ [.sign .openParen]) :=
      hc.room.body (.choice none) (by simp)
    have hend : Lexes [.sign .closeParen] c₂.rest c₃.rest :=
      ⟨_, took_expect (took_of_ok (lift_ok_iff.1 hclose)), nofun, rfl⟩
    have hall := hc.lexes.append (hlexes₁.append (hqs.append hend))
    exact .missingToken hc.before hbegins hc.head hall (token?_none (lift_ok_iff.1 htoken))

theorem choice_flawed {paren : Cursor} (hc : Opened text ls paren c)
    (hhead : c.rest.head? = some ')') (h : choice annotations c = .error m) :
    Flawed text m.error := by
  obtain ⟨rest, hrest⟩ := List.head?_eq_some_iff.1 hhead
  have htakes : Takes (liftM (eat ')') : PatternReader Bool) c.rest true rest := by
    rw [hrest]
    exact (eat_takes ')' rest).lift
  obtain ⟨o, heat, h⟩ := bind_error_takes h htakes
  have hclosed := eat_behind hc.inside .closeParen rfl (lift_ok_iff.1 heat)
  rcases bind_error h with h | ⟨_, _, _, h⟩
  · refine token?_flawed hclosed (fun n => ?_) (lift_error h)
    simp only [List.append_assoc]
    exact hc.room.body (.choice (some n)) (by simp [Body.lexemes, tokenLexemes])
  · cases h

/-- A reader of nodes goes forward and takes nodes, and fails for flaws behind lexemes where a node
may come. -/
structure Honest (text : List Char) (node : PatternReader Pattern) : Prop where
  forward : Forward node
  derives : Derives node
  flawed : ∀ ls c m, Behind text ls c → RoomFor ls → node c = .error m → Flawed text m.error

theorem checkedBounds_flawed (hc : Behind text ls c)
    (hbegins : ∀ b : Bounds, b.Ordered → Begins (ls ++ b.lexemes))
    (h : (do
      let bounds ← Reader.bounds
      Reader.expect ')' .closeParen
      check (checkBounds bounds.1 bounds.2)
      return bounds : PatternReader (UInt32 × Option UInt32)) c = .error m) :
    Flawed text m.error := by
  rcases bind_error h with h | ⟨b, c₁, hbounds, h⟩
  · exact bounds_flawed hc hbegins (lift_error h)
  have hc₁ := hc.stands.trans (bounds_forward.ahead (lift_ok_iff.1 hbounds))
  rcases bind_error h with h | ⟨_, c₂, hclose, h⟩
  · exact expect_flawed hc₁ (lift_error h)
  rcases bind_error h with h | ⟨_, _, _, h⟩
  · cases hcheck : checkBounds b.1 b.2 with
    | ok u =>
      rw [hcheck] at h
      cases h
    | error e =>
      rw [hcheck] at h
      cases h
      exact .grammar e
  · cases h

theorem repetition_flawed {paren : Cursor} (hnode : Honest text node)
    (hc : Opened text ls paren c) (h : repetition node annotations c = .error m) :
    Flawed text m.error := by
  rcases bind_error h with h | ⟨child, c₁, hchild, h⟩
  · exact hnode.flawed _ c m hc.inside hc.room.child h
  obtain ⟨t, rfl, ht⟩ := hnode.derives _ _ _ (took_of_ok hchild)
  have hc₁ := hc.inside.took hnode.forward hchild ht
  rcases bind_error h with h | ⟨b, c₂, hbounds, h⟩
  · obtain ⟨m', h, hm⟩ := after_error h
    rw [← hm]
    refine checkedBounds_flawed hc₁ (fun b hb => ?_) h
    simp only [List.append_assoc]
    exact hc.room.body (.repetition t b hb none) (by simp [Body.lexemes])
  obtain ⟨bs, hordered, rfl, hbs⟩ := took_checkedBounds (took_of_ok hbounds).after
  have hc₂ := hc₁.took (checkedBounds_forward.after _) hbounds hbs
  rcases bind_error h with h | ⟨_, _, _, h⟩
  · obtain ⟨m', h, hm⟩ := after_error h
    rw [← hm]
    refine token?_flawed hc₂ (fun n => ?_) (lift_error h)
    simp only [List.append_assoc]
    exact hc.room.body (.repetition t bs hordered (some n)) (by simp [Body.lexemes, tokenLexemes])
  · cases h

theorem body_flawed {paren : Cursor} (hnode : Honest text node) (hc : Opened text ls paren c)
    (h : body node fuel annotations paren.offset c = .error m) : Flawed text m.error := by
  unfold body at h
  rw [lift_peek?_bind] at h
  generalize hhead : c.rest.head? = next at h
  split at h
  · exact terminal_flawed hc h
  · exact choice_flawed hc hhead h
  · exact repetition_flawed hnode hc h

/-! ## Branches -/

theorem branchList_flawed (hnode : Honest text node) {head : Pattern} {found : List Pattern}
    (hc : Behind text ls c)
    (hbegins : ∀ (t : Phrase) (ts : List Phrase), Begins (ls ++ (t.lexemes ++ moreLexemes ts)))
    (h : branchList node head fuel found c = .error m) : Flawed text m.error := by
  induction fuel generalizing ls c found with
  | zero =>
    have h : after (fun _ => [head.withBranches found.reverse]) missing c = .error m := h
    obtain ⟨m', h, hm⟩ := after_error h
    exact hm ▸ missing_flawed hc.stands h
  | succ fuel ih =>
    obtain ⟨o, hskip, h⟩ := bind_error_takes h (skipBlank_takes rfl).lift
    have hc := hc.blanks skipBlank_forward (lift_ok_iff.1 hskip) rfl
    have hroom : RoomFor ls := fun t =>
      (hbegins t []).shorter (by simp [List.prefix_append_right_inj])
    rcases bind_error h with h | ⟨branch, c₁, hbranch, h⟩
    · obtain ⟨m', h, hm⟩ := after_error h
      exact hm ▸ hnode.flawed _ _ m' hc hroom h
    obtain ⟨t, -, ht⟩ := hnode.derives _ _ _ (took_of_ok hbranch).after
    have hc₁ := hc.took (hnode.forward.after _) hbranch ht
    obtain ⟨o', hskip', h⟩ := bind_error_takes h (skipBlank_takes rfl).lift
    have hc₁ := hc₁.blanks skipBlank_forward (lift_ok_iff.1 hskip') rfl
    rcases bind_error h with h | ⟨taken, c₂, heat, h⟩
    · exact absurd (lift_error h) eat_ne_error
    cases taken with
    | true =>
      refine ih (eat_behind hc₁ .comma rfl (lift_ok_iff.1 heat)) (fun t' ts => ?_) h
      have hmore := hbegins t (t' :: ts)
      simpa [moreLexemes] using hmore
    | false =>
      have hc₂ := hc₁.stands.trans ((eat_forward _).ahead (lift_ok_iff.1 heat))
      rcases bind_error h with h | ⟨_, _, _, h⟩
      · obtain ⟨m', h, hm⟩ := after_error h
        exact hm ▸ expect_flawed hc₂ (lift_error h)
      · cases h

theorem branches_flawed (hnode : Honest text node) {head : Pattern} (hc : Behind text ls c)
    (hbegins : ∀ next : Phrase.Next, Begins (ls ++ next.lexemes))
    (h : branches node fuel head c = .error m) : Flawed text m.error := by
  obtain ⟨o, hskip, h⟩ := bind_error_takes h (skipBlank_takes rfl).lift
  have hc := hc.blanks skipBlank_forward (lift_ok_iff.1 hskip) rfl
  rcases bind_error h with h | ⟨taken, c₁, heat, h⟩
  · exact absurd (lift_error h) eat_ne_error
  cases taken with
  | false => cases h
  | true =>
    have hc₁ := eat_behind hc .dot rfl (lift_ok_iff.1 heat)
    have hroom : RoomFor (ls ++ [.sign .dot]) := fun t => by
      rw [List.append_assoc]
      exact hbegins (.one t)
    obtain ⟨o', hskip', h⟩ := bind_error_takes h (skipBlank_takes rfl).lift
    have hc₁ := hc₁.blanks skipBlank_forward (lift_ok_iff.1 hskip') rfl
    rcases bind_error h with h | ⟨listed, c₂, heat, h⟩
    · exact absurd (lift_error h) eat_ne_error
    cases listed with
    | true =>
      have hc₂ := eat_behind hc₁ .openBrace rfl (lift_ok_iff.1 heat)
      refine branchList_flawed hnode hc₂ (fun t ts => ?_) h
      have hlist := hbegins (.list t ts)
      simpa [Next.lexemes] using hlist
    | false =>
      obtain rfl := eat_not (lift_ok_iff.1 heat)
      rcases bind_error h with h | ⟨_, _, _, h⟩
      · obtain ⟨m', h, hm⟩ := after_error h
        exact hm ▸ hnode.flawed _ _ m' hc₁ hroom h
      · cases h

/-! ## Patterns -/

theorem around_honest (hnode : Honest text node) (fuel : Nat) : Honest text (around node fuel) where
  forward := around_forward hnode.forward fuel
  derives := around_derives hnode.derives fuel
  flawed ls c m hc hroom h := by
    rcases bind_error h with h | ⟨found, c₁, hfound, h⟩
    · exact annotations_flawed hc hroom (lift_error h)
    obtain ⟨marks, -, hmarks⟩ := took_annotations (took_of_ok (lift_ok_iff.1 hfound))
    have hpast := annotations_past (took_of_ok (lift_ok_iff.1 hfound))
    have hc₁ := hc.took (annotations_forward _ _) (lift_ok_iff.1 hfound) hmarks
    rw [lift_offset_bind] at h
    rcases bind_error h with h | ⟨_, c₂, hopen, h⟩
    · exact expect_flawed hc₁.stands (lift_error h)
    have hparen := took_expect (took_of_ok (lift_ok_iff.1 hopen))
    have hc₂ := expect_behind hc₁ .openParen rfl (lift_ok_iff.1 hopen)
    obtain ⟨o, hskip, h⟩ := bind_error_takes h (skipBlank_takes rfl).lift
    have hinside := hc₂.blanks skipBlank_forward (lift_ok_iff.1 hskip) rfl
    have hopened : Opened text _ c₁ ⟨pastBlanks c₂.rest, o⟩ := {
      before := hc₁
      head := by rw [← hpast, hparen]; rfl
      lexes := ⟨c₂.rest, hparen, nofun, (Text.pastBlanks_pastBlanks _).symm⟩
      inside := hinside
      past := Text.pastBlanks_pastBlanks _
      room := hroom.marks marks }
    rcases bind_error h with h | ⟨head, c₃, hbody, h⟩
    · exact body_flawed hnode hopened h
    obtain ⟨b, -, hb⟩ := took_body hnode.derives (took_of_ok hbody)
    have hc₃ := hinside.took (body_forward hnode.forward _ _ _) hbody hb
    refine branches_flawed hnode hc₃ (fun next => ?_) h
    have hnext := hopened.room.next b next
    simpa using hnext

theorem pattern_honest (text : List Char) (fuel : Nat) : Honest text (pattern fuel) := by
  induction fuel with
  | zero =>
    refine ⟨missing_forward, pattern_derives 0, fun ls c m hc _ h => ?_⟩
    exact missing_flawed hc.stands h
  | succ fuel ih => exact around_honest ih fuel

end PatternReader

/-! ## Texts -/

/-- What is wrong with a text where its error says that it is: it has a flaw inside of a node, or
there is more than the node. -/
inductive Faulty (text : List Char) : ReadError → Prop where
  | flawed {e : ReadError} (h : Flawed text e) : Faulty text e
  /-- Behind a whole node there is a character there that is not a blank. -/
  | trailingInput {p : Phrase} {c : Cursor} {d : Char} {rest : List Char}
      (here : Behind text p.lexemes c) (rest_eq : c.rest = d :: rest)
      (blank : Text.isBlank d = false) :
      Faulty text (.trailingInput c.offset)

namespace PatternReader

variable {text : List Char} {length : Nat} {m : Misread}

/-- A whole text is not read where its node is not, or where a character is left behind it. -/
theorem whole_error (h : whole length (.ofText text) = .error m) :
    pattern length (.ofText text) = .error m ∨ ∃ p c d rest o,
      pattern length (.ofText text) = .ok (p, c) ∧ pastBlanks c.rest = d :: rest ∧
        Reader.skipBlank c = .ok (⟨⟩, ⟨d :: rest, o⟩) ∧
          m = { error := .trailingInput o, fragments := [p] } := by
  rcases bind_error h with h | ⟨p, c, hp, h⟩
  · exact .inl h
  rcases bind_error h with h | ⟨_, _, _, h⟩
  · have hskips : Takes Reader.skipBlank c.rest ⟨⟩ (pastBlanks c.rest) := Reader.skipBlank_takes rfl
    obtain ⟨o, hskip⟩ := hskips c.offset
    unfold after at h
    rw [bind_eq_of_ok (lift_ok_iff.2 hskip), get_bind] at h
    cases hrest : pastBlanks c.rest with
    | nil =>
      rw [hrest] at h
      cases h
    | cons d rest =>
      rw [hrest] at h hskip
      cases h
      exact .inr ⟨p, c, d, rest, o, hp, hrest, hskip, rfl⟩
  · cases h

theorem whole_faulty (h : whole length (.ofText text) = .error m) : Faulty text m.error := by
  rcases whole_error h with h | ⟨p, c, d, rest, o, hp, hrest, hskip, rfl⟩
  · have hnode := pattern_honest text length
    exact .flawed (hnode.flawed _ _ m (behind_nil text) (fun p => ⟨p, List.prefix_refl _⟩) h)
  · obtain ⟨t, -, ht⟩ := pattern_derives length _ _ _ (took_of_ok hp)
    have hc := (behind_nil text).took (pattern_forward length) hp ht
    have hd : Text.isBlank d = false :=
      Text.isBlank_of_head_pastBlanks (congrArg List.head? hrest)
    exact .trailingInput (hc.blanks Reader.skipBlank_forward hskip hrest.symm) rfl hd

end PatternReader

/-- **A text that is no pattern has a fault where the error says.** -/
theorem Pattern.faulty_of_ofText {text : List Char} {m : Misread} (h : ofText text = .error m) :
    Faulty text m.error := by
  unfold ofText at h
  split at h
  · cases h
  · next m' hwhole =>
    cases h
    exact PatternReader.whole_faulty hwhole

end Lexigraph
