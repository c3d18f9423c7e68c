/-
# Lexigraph.Proofs.Pattern.Forward -- readers go forward in a text

A cursor is ahead of another one if what lies between them is the front of what the other has
left, and takes as many bytes as their offsets differ by. Whatever a reader takes, the cursor that
it leaves is ahead of the one that it began with. So every cursor that comes of one at the
beginning of a text stands in the text: its offset is a boundary, and what it has left is the
text from there on.

Nor does it matter what comes far behind. A reader takes the same if the text is cut off anywhere
behind the character at which it stops.

There is one lemma for each reader. A chain of readers goes forward if its links do.
-/

import Lexigraph.Proofs.Pattern.Taken

namespace Lexigraph

/-! ## Cursors of one text -/

namespace Cursor

/-- The second cursor is ahead of the first, with what was passed between them. -/
def Ahead (c c' : Cursor) : Prop :=
  ∃ passed, c.rest = passed ++ c'.rest ∧ c'.offset = c.offset + Text.size passed

theorem Ahead.refl (c : Cursor) : c.Ahead c := ⟨[], rfl, rfl⟩

theorem Ahead.trans {c c' c'' : Cursor} (h : c.Ahead c') (h' : c'.Ahead c'') : c.Ahead c'' := by
  obtain ⟨passed, hrest, hoffset⟩ := h
  obtain ⟨passed', hrest', hoffset'⟩ := h'
  refine ⟨passed ++ passed', by rw [hrest, hrest', List.append_assoc], ?_⟩
  rw [hoffset', hoffset, Text.size_append, Nat.add_assoc]

/-- Ahead there is no more left. -/
theorem Ahead.length_le {c c' : Cursor} (h : c.Ahead c') : c'.rest.length ≤ c.rest.length := by
  obtain ⟨passed, hrest, -⟩ := h
  rw [hrest, List.length_append]
  exact Nat.le_add_left _ _

/-- The cursor at the beginning of a text. -/
def ofText (text : List Char) : Cursor := { rest := text }

/-- The cursor stands in a text. -/
def Stands (text : List Char) (c : Cursor) : Prop := (ofText text).Ahead c

variable {text : List Char} {c : Cursor}

/-- A cursor stands in a text if its offset is a boundary there and what it has left is what comes
after it. -/
theorem stands_iff : c.Stands text ↔ Text.after? text c.offset = some c.rest := by
  rw [Text.after?_eq_some_iff]
  unfold Stands Ahead ofText
  simp only [Nat.zero_add]
  exact exists_congr fun _ => and_congr_right fun _ => eq_comm

end Cursor

open Cursor (Ahead)

variable {ε α β : Type}

/-! ## Runs that succeed -/

section Ok

variable {r : StateT Cursor (Except ε) α} {f : α → StateT Cursor (Except ε) β} {c c' : Cursor}
  {a : α}

/-- A chain succeeds if its links do, one after the other. -/
theorem bind_ok {b : β} (h : (r >>= f) c = .ok (b, c')) :
    ∃ a mid, r c = .ok (a, mid) ∧ f a mid = .ok (b, c') := by
  cases hr : r c with
  | error e =>
    have hbind : (r >>= f) c = (r c >>= fun p => f p.1 p.2 : Except ε (β × Cursor)) := rfl
    rw [hbind, hr] at h
    cases h
  | ok p =>
    rw [bind_eq_of_ok hr] at h
    exact ⟨p.1, p.2, rfl, h⟩

theorem get_bind {f : Cursor → StateT Cursor (Except ε) β} : (get >>= f) c = f c c := rfl

theorem lift_ok_iff {r : Reader α} :
    (liftM r : PatternReader α) c = .ok (a, c') ↔ r c = .ok (a, c') := by
  rw [PatternReader.lift_apply]
  cases r c with
  | error e => exact ⟨nofun, nofun⟩
  | ok p =>
    rw [Except.mapError]
    exact ⟨fun h => congrArg _ (Except.ok.inj h), fun h => congrArg _ (Except.ok.inj h)⟩

theorem after_ok_iff {r : PatternReader α} {done : Unit → List Pattern} :
    PatternReader.after done r c = .ok (a, c') ↔ r c = .ok (a, c') := by
  unfold PatternReader.after
  cases r c with
  | error e => exact ⟨nofun, nofun⟩
  | ok p => rfl

end Ok

/-! ## Chains of readers -/

/-- Whatever the reader takes, it leaves a cursor ahead, and it takes the same if only a front is
there of what it leaves. There has to be a character of that, or a run would not end. -/
structure Forward (r : StateT Cursor (Except ε) α) : Prop where
  ahead : ∀ {c a c'}, r c = .ok (a, c') → c.Ahead c'
  cut : ∀ {passed rest front o a o'}, r ⟨passed ++ rest, o⟩ = .ok (a, ⟨rest, o'⟩) →
    front ≠ [] → front <+: rest → r ⟨passed ++ front, o⟩ = .ok (a, ⟨front, o'⟩)

namespace Forward

variable {r : StateT Cursor (Except ε) α} {f : α → StateT Cursor (Except ε) β}

theorem bind (h : Forward r) (hf : ∀ a, Forward (f a)) : Forward (r >>= f) where
  ahead hb := by
    obtain ⟨a, mid, hr, hb⟩ := bind_ok hb
    exact (h.ahead hr).trans ((hf a).ahead hb)
  cut {passed rest front o b o''} hb hne hfront := by
    obtain ⟨a, ⟨mid, o'⟩, hr, hfa⟩ := bind_ok hb
    obtain ⟨passed₁, hpassed, -⟩ := h.ahead hr
    obtain ⟨passed₂, rfl, -⟩ := (hf a).ahead hfa
    -- what the chain takes is what its links take
    obtain rfl : passed = passed₁ ++ passed₂ :=
      List.append_cancel_right (hpassed.trans (List.append_assoc _ _ _).symm)
    rw [List.append_assoc] at hr ⊢
    have hmid : passed₂ ++ front <+: passed₂ ++ rest := (List.prefix_append_right_inj _).2 hfront
    rw [bind_eq_of_ok (h.cut hr (List.append_ne_nil_of_right_ne_nil _ hne) hmid)]
    exact (hf a).cut hfa hne hfront

/-- A reader that leaves the cursor where it is, and does not look further than to the character
there. -/
theorem of_looks (h : ∀ {c a c'}, r c = .ok (a, c') → c' = c)
    (hcut : ∀ {rest front : List Char} {o a}, r ⟨rest, o⟩ = .ok (a, ⟨rest, o⟩) → front ≠ [] →
      front <+: rest → r ⟨front, o⟩ = .ok (a, ⟨front, o⟩)) : Forward r where
  ahead hr := by
    rw [h hr]
    exact .refl _
  cut {passed rest front o a o'} hr hne hfront := by
    obtain ⟨hrest, rfl⟩ := Cursor.mk.inj (h hr)
    obtain rfl : passed = [] := List.self_eq_append_left.1 hrest
    exact hcut hr hne hfront

theorem pure (a : α) : Forward (pure a : StateT Cursor (Except ε) α) :=
  of_looks (by rintro c _ _ ⟨⟩; rfl) (by rintro rest front o _ ⟨⟩ - -; rfl)

theorem throw (e : ε) : Forward (throw e : StateT Cursor (Except ε) α) := ⟨nofun, nofun⟩

theorem lift {r : Reader α} (h : Forward r) : Forward (liftM r : PatternReader α) where
  ahead hr := h.ahead (lift_ok_iff.1 hr)
  cut hr hne hfront := lift_ok_iff.2 (h.cut (lift_ok_iff.1 hr) hne hfront)

theorem after {r : PatternReader α} (h : Forward r) (done : Unit → List Pattern) :
    Forward (PatternReader.after done r) where
  ahead hr := h.ahead (after_ok_iff.1 hr)
  cut hr hne hfront := after_ok_iff.2 (h.cut (after_ok_iff.1 hr) hne hfront)

/-- What a reader leaves is no more than what there was. -/
theorem length_le (h : Forward r) {c c' : Cursor} {a : α} (hok : r c = .ok (a, c')) :
    c'.rest.length ≤ c.rest.length := (h.ahead hok).length_le

end Forward

/-! ## Lexemes -/

namespace Reader

/-- A front of a text that is not empty has the first character of the text. -/
theorem head?_of_front {front rest : List Char} (hne : front ≠ []) (hfront : front <+: rest) :
    front.head? = rest.head? := by
  obtain ⟨more, rfl⟩ := hfront
  obtain ⟨d, front, rfl⟩ := List.exists_cons_of_ne_nil hne
  rfl

theorem offset_forward : Forward offset :=
  .of_looks (by rintro c _ _ ⟨⟩; rfl) (by rintro rest front o _ ⟨⟩ - -; rfl)

theorem peek?_forward : Forward peek? := by
  refine .of_looks (by rintro c _ _ ⟨⟩; rfl) ?_
  rintro rest front o _ ⟨⟩ hne hfront
  show Except.ok (front.head?, _) = _
  rw [head?_of_front hne hfront]

theorem missing_forward (wanted : Wanted) : Forward (missing wanted : Reader α) := ⟨nofun, nofun⟩

theorem takeWhile_forward (p : Char → Bool) : Forward (takeWhile p) where
  ahead := by
    rintro c _ _ ⟨⟩
    exact ⟨c.rest.takeWhile p, List.takeWhile_append_dropWhile.symm, rfl⟩
  cut {passed rest front o run o'} h hne hfront := by
    obtain ⟨hrest, hall, hends⟩ := took_takeWhile ⟨o, o', h⟩
    obtain rfl : passed = run := List.append_cancel_right hrest
    rw [← head?_of_front hne hfront] at hends
    obtain ⟨htake, hdrop⟩ := span_run hall hends
    obtain ⟨hrun, hcursor⟩ := Prod.mk.inj (Except.ok.inj h)
    have hoffset : o + Text.size ((passed ++ rest).takeWhile p) = o' :=
      (Cursor.mk.inj hcursor).2
    rw [hrun] at hoffset
    show Except.ok ((passed ++ front).takeWhile p, Cursor.mk ((passed ++ front).dropWhile p)
      (o + Text.size ((passed ++ front).takeWhile p))) = _
    rw [htake, hdrop, hoffset]

theorem skipBlank_forward : Forward skipBlank := (takeWhile_forward _).bind fun _ => .pure _

theorem eat_forward (d : Char) : Forward (eat d) where
  ahead {c taken c'} h := by
    rcases c with ⟨_ | ⟨e, rest⟩, offset⟩
    · cases h
      exact .refl _
    · unfold eat at h
      dsimp only at h
      by_cases heq : d = e
      · rw [if_pos heq] at h
        cases h
        exact ⟨[d], congrArg (· :: rest) heq.symm, rfl⟩
      · rw [if_neg heq] at h
        cases h
        exact .refl _
  cut {passed rest front o taken o'} h hne hfront := by
    rcases took_eat ⟨o, o', h⟩ with ⟨rfl, hrest⟩ | ⟨rfl, hrest, hhead⟩
    · obtain rfl : passed = [d] := List.append_cancel_right hrest
      have hoffset : o + d.utf8Size = o' := by
        unfold eat at h
        rw [List.singleton_append] at h
        simpa using h
      show Except.ok (if d = d then _ else _) = _
      rw [if_pos rfl, hoffset]
      rfl
    · obtain rfl : passed = [] := List.self_eq_append_left.1 hrest
      obtain ⟨e, front, rfl⟩ := List.exists_cons_of_ne_nil hne
      obtain ⟨more, rfl⟩ := hfront
      have hnot : ¬ d = e := fun heq => hhead (congrArg some heq.symm)
      have hoffset : o = o' := by
        unfold eat at h
        simpa [hnot] using h
      show Except.ok (if d = e then _ else _) = _
      rw [if_neg hnot, hoffset]
      rfl

theorem expect_forward (c : Char) (wanted : Wanted) : Forward (expect c wanted) := by
  refine skipBlank_forward.bind fun _ => (eat_forward c).bind fun taken => ?_
  cases taken with
  | true => exact .pure _
  | false => exact missing_forward wanted

section Unquote

variable {start offset : Nat} {part : QuotedPart} {read text out : List Char} {c : Cursor}

/-- A character of a quoted string is its end, or the string goes on behind the character, or it is
not read. What there is behind the character makes no difference to that. -/
theorem unquote_step (start : Nat) (part : QuotedPart) (read : List Char) (offset : Nat)
    (d : Char) :
    (∀ text, unquote start part read offset (d :: text) =
      .ok (read.reverse, ⟨text, offset + d.utf8Size⟩)) ∨
    (∃ part' read', ∀ text, unquote start part read offset (d :: text) =
      unquote start part' read' (offset + d.utf8Size) text) ∨
    ∃ e, ∀ text, unquote start part read offset (d :: text) = .error e := by
  cases part with
  | plain =>
    by_cases hquote : d = '"'
    · exact .inl fun text => by simp only [unquote, if_pos hquote]
    refine .inr (.inl ?_)
    by_cases hback : d = '\\'
    · exact ⟨.escape offset, read, fun text => by simp only [unquote, if_neg hquote, if_pos hback]⟩
    · exact ⟨.plain, d :: read, fun text => by simp only [unquote, if_neg hquote, if_neg hback]⟩
  | escape backslash =>
    refine .inr ?_
    by_cases hu : d = 'u'
    · exact .inl ⟨.code backslash, read, fun text => by simp only [unquote, if_pos hu]⟩
    cases hknown : unescape? d with
    | some e =>
      exact .inl ⟨.plain, e :: read, fun text => by simp only [unquote, if_neg hu, hknown]⟩
    | none =>
      refine .inr ⟨.invalidEscape backslash, fun text => ?_⟩
      simp only [unquote, if_neg hu, hknown]
  | code backslash =>
    refine .inr ?_
    by_cases hbrace : d = '\x7b'
    · exact .inl ⟨.digits backslash none, read, fun text => by simp only [unquote, if_pos hbrace]⟩
    · exact .inr ⟨.invalidEscape backslash, fun text => by simp only [unquote, if_neg hbrace]⟩
  | digits backslash value =>
    refine .inr ?_
    by_cases hbrace : d = '}'
    · cases hnamed : value.bind charOfCode? with
      | some e =>
        exact .inl ⟨.plain, e :: read, fun text => by simp only [unquote, if_pos hbrace, hnamed]⟩
      | none =>
        refine .inr ⟨.invalidEscape backslash, fun text => ?_⟩
        simp only [unquote, if_pos hbrace, hnamed]
    · cases hdigit : hexDigit? d with
      | some n =>
        refine .inl ⟨.digits backslash (some (16 * value.getD 0 + n)), read, fun text => ?_⟩
        simp only [unquote, if_neg hbrace, hdigit]
      | none =>
        refine .inr ⟨.invalidEscape backslash, fun text => ?_⟩
        simp only [unquote, if_neg hbrace, hdigit]

/-- What is read of a quoted string lies between the cursors. -/
theorem unquote_ahead (h : unquote start part read offset text = .ok (out, c)) :
    Ahead ⟨text, offset⟩ c := by
  induction text generalizing part read offset with
  | nil => cases part <;> cases h
  | cons d text ih =>
    have hstep : Ahead ⟨d :: text, offset⟩ ⟨text, offset + d.utf8Size⟩ := ⟨[d], rfl, rfl⟩
    rcases unquote_step start part read offset d with hend | ⟨part', read', hgo⟩ | ⟨e, hbad⟩
    · rw [hend] at h
      cases h
      exact hstep
    · rw [hgo] at h
      exact hstep.trans (ih h)
    · rw [hbad] at h
      cases h

/-- What is behind a quoted string makes no difference to it. -/
theorem unquote_cut {passed rest : List Char} {o : Nat}
    (h : unquote start part read offset (passed ++ rest) = .ok (out, ⟨rest, o⟩))
    (front : List Char) :
    unquote start part read offset (passed ++ front) = .ok (out, ⟨front, o⟩) := by
  induction passed generalizing part read offset with
  | nil =>
    -- a character at least is read
    exfalso
    cases rest with
    | nil => cases part <;> cases h
    | cons d rest =>
      rw [List.nil_append] at h
      have hlength : (d :: rest).length ≤ rest.length := by
        rcases unquote_step start part read offset d with hend | ⟨part', read', hgo⟩ | ⟨e, hbad⟩
        · rw [hend] at h
          have hc := (Prod.mk.inj (Except.ok.inj h)).2
          exact Nat.le_of_eq (congrArg List.length (Cursor.mk.inj hc).1.symm)
        · rw [hgo] at h
          exact (unquote_ahead h).length_le
        · rw [hbad] at h
          cases h
      exact absurd hlength (Nat.not_succ_le_self _)
  | cons d passed ih =>
    rw [List.cons_append] at h ⊢
    rcases unquote_step start part read offset d with hend | ⟨part', read', hgo⟩ | ⟨e, hbad⟩
    · rw [hend] at h ⊢
      obtain ⟨rfl, hc⟩ := Prod.mk.inj (Except.ok.inj h)
      obtain ⟨hrest, rfl⟩ := Cursor.mk.inj hc
      obtain rfl : passed = [] := List.self_eq_append_left.1 hrest.symm
      rfl
    · rw [hgo] at h ⊢
      exact ih h
    · rw [hbad] at h
      cases h

end Unquote

theorem quoted_forward : Forward quoted := by
  refine offset_forward.bind fun start => (expect_forward _ _).bind fun _ => ⟨?_, ?_⟩
  · intro c value c' h
    split at h
    · next read cursor hread =>
      cases h
      exact unquote_ahead hread
    · cases h
  · intro passed rest front o value o' h hne hfront
    dsimp only at h ⊢
    split at h
    · next read cursor hread =>
      cases h
      rw [unquote_cut hread front]
    · cases h

/-- Takes a name, behind the arrow in front of it. -/
def arrowName : Reader (Option String) := do
  skipBlank
  if (← peek?) = some '"' then return some (← quoted)
  match ← takeWhile Text.isNameChar with
  | [] => missing .tokenName
  | name => return some (String.ofList name)

/-- Takes an arrow and a name if there is an arrow in front. -/
def tokenHere : Reader (Option String) := do
  match (← get).rest with
  | '-' :: '>' :: _ =>
    let _ ← eat '-'
    let _ ← eat '>'
    arrowName
  | _ => return none

theorem token?_eq : token? = (do skipBlank; tokenHere) := rfl

theorem tokenHere_arrow (text : List Char) (o : Nat) :
    tokenHere ⟨'-' :: '>' :: text, o⟩ = arrowName ⟨text, o + '-'.utf8Size + '>'.utf8Size⟩ := rfl

theorem tokenHere_none {c : Cursor} (h : ¬ ['-', '>'] <+: c.rest) :
    tokenHere c = .ok (none, c) := by
  obtain ⟨text, o⟩ := c
  unfold tokenHere
  rw [get_bind]
  dsimp only at h ⊢
  generalize hcursor : Cursor.mk text o = c
  split
  · next mid => exact absurd ⟨mid, rfl⟩ h
  · rfl

theorem arrowName_forward : Forward arrowName := by
  refine skipBlank_forward.bind fun _ => peek?_forward.bind fun next => ?_
  split
  · exact quoted_forward.bind fun _ => .pure _
  · refine (takeWhile_forward _).bind fun name => ?_
    split
    · exact missing_forward _
    · exact .pure _

/-- An arrow is two characters, of which the first one alone is not taken either. -/
theorem tokenHere_forward : Forward tokenHere where
  ahead {c token c'} h := by
    by_cases harrow : ['-', '>'] <+: c.rest
    · obtain ⟨text, o⟩ := c
      obtain ⟨mid, rfl⟩ := harrow
      have hstep : Ahead ⟨'-' :: '>' :: mid, o⟩ ⟨mid, o + '-'.utf8Size + '>'.utf8Size⟩ :=
        ⟨['-', '>'], rfl, Nat.add_assoc _ _ _⟩
      rw [List.cons_append, List.singleton_append, tokenHere_arrow] at h
      exact hstep.trans (arrowName_forward.ahead h)
    · rw [tokenHere_none harrow] at h
      cases h
      exact .refl _
  cut {passed rest front o token o'} h hne hfront := by
    by_cases harrow : ['-', '>'] <+: passed ++ rest
    · obtain ⟨mid, hmid⟩ := harrow
      rw [← hmid, List.cons_append, List.singleton_append, tokenHere_arrow] at h
      obtain ⟨named, rfl, -⟩ := arrowName_forward.ahead h
      obtain rfl : ['-', '>'] ++ named = passed := by
        rw [← List.append_assoc] at hmid
        exact List.append_cancel_right hmid
      exact arrowName_forward.cut h hne hfront
    · rw [tokenHere_none harrow] at h
      obtain ⟨rfl, hc⟩ := Prod.mk.inj (Except.ok.inj h)
      obtain ⟨hrest, rfl⟩ := Cursor.mk.inj hc
      obtain rfl : passed = [] := List.append_left_eq_self.1 hrest
      exact tokenHere_none fun hcut => harrow (hcut.trans hfront)

theorem token?_forward : Forward token? := by
  rw [token?_eq]
  exact skipBlank_forward.bind fun _ => tokenHere_forward

theorem count_forward : Forward count := by
  refine skipBlank_forward.bind fun _ => offset_forward.bind fun start => ?_
  refine (takeWhile_forward _).bind fun digits => ?_
  split
  · exact .throw _
  · dsimp only
    split
    · exact .pure _
    · exact .throw _

theorem annotations_forward (fuel : Nat) (found : Annotations) :
    Forward (annotations fuel found) := by
  induction fuel generalizing found with
  | zero => exact skipBlank_forward.bind fun _ => offset_forward.bind fun _ => .pure _
  | succ fuel ih =>
    refine skipBlank_forward.bind fun _ => offset_forward.bind fun start => ?_
    refine (eat_forward _).bind fun taken => ?_
    cases taken with
    | false => exact .pure _
    | true =>
      refine (takeWhile_forward _).bind fun name => ?_
      dsimp only
      split
      · refine (expect_forward _ _).bind fun _ => quoted_forward.bind fun message => ?_
        exact (expect_forward _ _).bind fun _ => ih _
      · split
        · exact ih _
        · exact .throw _

theorem literals_forward (fuel : Nat) (found : List String) : Forward (literals fuel found) := by
  induction fuel generalizing found with
  | zero => exact skipBlank_forward.bind fun _ => .pure _
  | succ fuel ih =>
    refine skipBlank_forward.bind fun _ => (eat_forward _).bind fun taken => ?_
    cases taken with
    | false => exact .pure _
    | true => exact skipBlank_forward.bind fun _ => quoted_forward.bind fun _ => ih _

theorem bounds_forward : Forward bounds := by
  refine skipBlank_forward.bind fun _ => (eat_forward _).bind fun taken => ?_
  cases taken with
  | false => exact .pure _
  | true =>
    refine count_forward.bind fun min => skipBlank_forward.bind fun _ => ?_
    refine (eat_forward _).bind fun taken => ?_
    cases taken with
    | false => exact .pure _
    | true => exact count_forward.bind fun max => .pure _

end Reader

/-! ## Patterns -/

namespace PatternReader

open Reader

variable {node : PatternReader Pattern}

theorem missing_forward : Forward missing := (Reader.missing_forward _).lift

theorem check_forward (result : Except GrammarError Unit) : Forward (check result) := by
  cases result with
  | ok u => exact .pure _
  | error e => exact .throw _

theorem terminal_forward (fuel : Nat) (annotations : Annotations) (opened : Nat) :
    Forward (terminal fuel annotations opened) := by
  refine quoted_forward.lift.bind fun first => (literals_forward fuel []).lift.bind fun others => ?_
  refine (expect_forward _ _).lift.bind fun _ => token?_forward.lift.bind fun token => ?_
  cases token with
  | some token => exact .pure _
  | none => exact .throw _

theorem choice_forward (annotations : Annotations) : Forward (choice annotations) :=
  (eat_forward _).lift.bind fun _ => token?_forward.lift.bind fun _ => .pure _

theorem checkedBounds_forward : Forward (do
    let bounds ← Reader.bounds
    Reader.expect ')' .closeParen
    check (checkBounds bounds.1 bounds.2)
    return bounds : PatternReader (UInt32 × Option UInt32)) :=
  bounds_forward.lift.bind fun bounds => (expect_forward _ _).lift.bind fun _ =>
    (check_forward _).bind fun _ => .pure bounds

theorem repetition_forward (hnode : Forward node) (annotations : Annotations) :
    Forward (repetition node annotations) := by
  refine hnode.bind fun child => (checkedBounds_forward.after _).bind fun bounds => ?_
  exact (token?_forward.lift.after _).bind fun _ => .pure _

theorem branchList_forward (hnode : Forward node) (head : Pattern) (fuel : Nat)
    (found : List Pattern) : Forward (branchList node head fuel found) := by
  induction fuel generalizing found with
  | zero => exact missing_forward.after fun _ => [head.withBranches found.reverse]
  | succ fuel ih =>
    refine skipBlank_forward.lift.bind fun _ => (hnode.after _).bind fun branch => ?_
    refine skipBlank_forward.lift.bind fun _ => (eat_forward _).lift.bind fun taken => ?_
    cases taken with
    | true => exact ih _
    | false => exact ((expect_forward _ _).lift.after _).bind fun _ => .pure _

theorem branches_forward (hnode : Forward node) (fuel : Nat) (head : Pattern) :
    Forward (branches node fuel head) := by
  refine skipBlank_forward.lift.bind fun _ => (eat_forward _).lift.bind fun taken => ?_
  cases taken with
  | false => exact .pure _
  | true =>
    refine skipBlank_forward.lift.bind fun _ => (eat_forward _).lift.bind fun listed => ?_
    cases listed with
    | true => exact branchList_forward hnode head fuel []
    | false => exact (hnode.after _).bind fun _ => .pure _

theorem body_forward (hnode : Forward node) (fuel : Nat) (annotations : Annotations)
    (opened : Nat) : Forward (body node fuel annotations opened) := by
  refine peek?_forward.lift.bind fun next => ?_
  split
  · exact terminal_forward fuel annotations opened
  · exact choice_forward annotations
  · exact repetition_forward hnode annotations

theorem around_forward (hnode : Forward node) (fuel : Nat) : Forward (around node fuel) := by
  refine (annotations_forward _ _).lift.bind fun annotations => ?_
  refine offset_forward.lift.bind fun opened => (expect_forward _ _).lift.bind fun _ => skipBlank_forward.lift.bind fun _ => ?_
  have hbody := body_forward hnode fuel annotations opened
  exact hbody.bind fun head => branches_forward hnode fuel head

theorem pattern_forward (fuel : Nat) : Forward (pattern fuel) := by
  induction fuel with
  | zero => exact missing_forward
  | succ fuel ih => exact around_forward ih fuel

end PatternReader

end Lexigraph
