/-
# Lexigraph.Proofs.Pattern.Unbounded -- reading without a bound

The readers of patterns recurse on bounds. Here they are told without any: `Readers` are the four
that call themselves or each other, three loops and the reader of a node, and `Readers.turn` says
what each of them does, given what they do where they are called again. Readers without a bound
are those that a turn does not change.

They are called again further on in the text only. So there is one family of such readers and no
other (`Readers.existsUnique_turn`): reading comes to an end by itself. A bound for the number of
characters that are left makes no difference to it (`Readers.ofText_eq`).
-/

import Lexigraph.Proofs.Pattern.Flaw

namespace Lexigraph

variable {ε α β : Type}

/-! ## One turn -/

namespace Reader

/-- One turn of the loop that takes annotations, which goes on with `again`. -/
def annotationsTurn (again : Annotations → Reader Annotations) (found : Annotations) :
    Reader Annotations := do
  skipBlank
  let start ← offset
  unless ← eat '@' do return found
  let name := String.ofList (← takeWhile Text.isNameChar)
  if name = "error" then
    expect '(' .openParen
    let message ← quoted
    expect ')' .closeParen
    again (found.withError message)
  else
    match Flag.named? name with
    | some flag => again (found.withFlag flag)
    | none => throw (.unknownFlag name start)

/-- One turn of the loop that takes literals, which goes on with `again`. -/
def literalsTurn (again : List String → Reader (List String)) (found : List String) :
    Reader (List String) := do
  skipBlank
  unless ← eat '|' do return found.reverse
  skipBlank
  let literal ← quoted
  again (literal :: found)

end Reader

namespace PatternReader

/-- One turn of the loop that takes branches, which goes on with `again`. -/
def listTurn (node : PatternReader Pattern) (again : List Pattern → PatternReader Pattern)
    (head : Pattern) (found : List Pattern) : PatternReader Pattern := do
  Reader.skipBlank
  let branch ← after (fun _ => [head.withBranches found.reverse]) node
  Reader.skipBlank
  let found := branch :: found
  if ← Reader.eat ',' then again found
  else
    let all := head.withBranches found.reverse
    after (fun _ => [all]) (Reader.expect '}' .closeBrace)
    return all

/-- Takes the rest of a terminal, whose literals after the first `others` takes. -/
def terminalWith (others : Reader (List String)) (annotations : Annotations) (opened : Nat) :
    PatternReader Pattern := do
  let first ← Reader.quoted
  let others ← others
  Reader.expect ')' .closeParen
  match ← Reader.token? with
  | some token => return .terminal annotations { first, others } token []
  | none => throw { error := .missingToken opened }

/-- Takes what stands behind the opening parenthesis of a pattern, up to its branches. -/
def bodyWith (others : Reader (List String)) (node : PatternReader Pattern)
    (annotations : Annotations) (opened : Nat) : PatternReader Pattern := do
  match ← Reader.peek? with
  | some '"' => terminalWith others annotations opened
  | some ')' => choice annotations
  | _ => repetition node annotations

/-- Takes the branches of a pattern, if there are any; `list` takes those in braces. -/
def branchesWith (node : PatternReader Pattern) (list : Pattern → PatternReader Pattern)
    (head : Pattern) : PatternReader Pattern := do
  Reader.skipBlank
  unless ← Reader.eat '.' do return head
  Reader.skipBlank
  if ← Reader.eat '{' then list head
  else
    let branch ← after (fun _ => [head]) node
    return head.withBranches [branch]

/-- Takes a pattern, for the parts of which there are readers. -/
def aroundWith (annotations : Reader Annotations) (others : Reader (List String))
    (list : Pattern → PatternReader Pattern) (node : PatternReader Pattern) :
    PatternReader Pattern := do
  let annotations ← annotations
  let opened ← Reader.offset
  Reader.expect '(' .openParen
  Reader.skipBlank
  let head ← bodyWith others node annotations opened
  branchesWith node list head

theorem around_eq (node : PatternReader Pattern) (fuel : Nat) :
    around node fuel = aroundWith (Reader.annotations (fuel + 1) {}) (Reader.literals fuel [])
      (fun head => branchList node head fuel []) node := rfl

end PatternReader

/-- The readers that call themselves or each other: the loops that take annotations, literals and
branches after those found so far, and the reader of a node. -/
structure Readers where
  annotations : Annotations → Reader Annotations
  literals : List String → Reader (List String)
  list : Pattern → List Pattern → PatternReader Pattern
  node : PatternReader Pattern

/-- What readers do, given what they do where they are called again. -/
def Readers.turn (r : Readers) : Readers where
  annotations := Reader.annotationsTurn r.annotations
  literals := Reader.literalsTurn r.literals
  list head := PatternReader.listTurn r.node (r.list head) head
  node := PatternReader.aroundWith (r.annotations {}) (r.literals []) (r.list · []) r.node

/-! ## The end of a text -/

namespace Cursor

theorem exists_eq_end {c : Cursor} (hend : c.rest = []) : ∃ o, c = ⟨[], o⟩ :=
  ⟨c.offset, congrArg (fun rest => Cursor.mk rest c.offset) hend⟩

theorem rest_eq_nil {c : Cursor} (h : c.rest.length ≤ 0) : c.rest = [] :=
  List.length_eq_zero_iff.1 (Nat.le_zero.1 h)

end Cursor

/-! ## Readers that do the same -/

section Same

variable {r r' : StateT Cursor (Except ε) α} {f f' : α → StateT Cursor (Except ε) β} {c : Cursor}

theorem bind_same (h : r c = r' c) (hf : ∀ a c', r' c = .ok (a, c') → f a c' = f' a c') :
    (r >>= f) c = (r' >>= f') c := by
  show (r c >>= fun p => f p.1 p.2 : Except ε (β × Cursor)) = r' c >>= fun p => f' p.1 p.2
  rw [h]
  cases hr : r' c with
  | error e => rfl
  | ok p => exact hf p.1 p.2 hr

theorem bind_same_left (hf : ∀ a c', r c = .ok (a, c') → f a c' = f' a c') :
    (r >>= f) c = (r >>= f') c := bind_same rfl hf

theorem lift_same {r r' : Reader α} (h : r c = r' c) :
    (liftM r : PatternReader α) c = (liftM r' : PatternReader α) c := by
  rw [PatternReader.lift_apply, PatternReader.lift_apply, h]

theorem after_same {r r' : PatternReader α} (done : Unit → List Pattern) (h : r c = r' c) :
    PatternReader.after done r c = PatternReader.after done r' c := by
  unfold PatternReader.after
  rw [h]

end Same

namespace Reader

variable {c c' : Cursor}

/-- A character that was taken is not left. -/
theorem length_lt_of_eat {d : Char} (h : eat d c = .ok (true, c')) :
    c'.rest.length < c.rest.length := by
  obtain ⟨o, rfl, -⟩ := eat_ok h
  exact Nat.lt_succ_self _

theorem length_lt_of_expect {d : Char} {wanted : Wanted} {u : Unit}
    (h : expect d wanted c = .ok (u, c')) : c'.rest.length < c.rest.length := by
  obtain ⟨o, hahead, -, -⟩ := expect_ok h
  exact hahead.length_le

theorem annotationsTurn_same {again again' : Annotations → Reader Annotations}
    (h : ∀ found c', c'.rest.length < c.rest.length → again found c' = again' found c')
    (found : Annotations) : annotationsTurn again found c = annotationsTurn again' found c := by
  refine bind_same_left fun _ c₁ h₁ => bind_same_left fun start c₂ h₂ => ?_
  refine bind_same_left fun taken c₃ h₃ => ?_
  cases taken with
  | false => rfl
  | true =>
    refine bind_same_left fun run c₄ h₄ => ?_
    have hless : c₄.rest.length < c.rest.length := by
      have hskip := skipBlank_forward.length_le h₁
      have hoffset := offset_forward.length_le h₂
      have heat := length_lt_of_eat h₃
      have hrun := (takeWhile_forward _).length_le h₄
      omega
    split
    · refine bind_same_left fun _ c₅ h₅ => bind_same_left fun message c₆ h₆ => ?_
      refine bind_same_left fun _ c₇ h₇ => h _ _ ?_
      have hopen := length_lt_of_expect h₅
      have hquoted := quoted_forward.length_le h₆
      have hclose := length_lt_of_expect h₇
      omega
    · cases Flag.named? (String.ofList run) with
      | some flag => exact h _ _ hless
      | none => rfl

theorem literalsTurn_same {again again' : List String → Reader (List String)}
    (h : ∀ found c', c'.rest.length < c.rest.length → again found c' = again' found c')
    (found : List String) : literalsTurn again found c = literalsTurn again' found c := by
  refine bind_same_left fun _ c₁ h₁ => bind_same_left fun taken c₂ h₂ => ?_
  cases taken with
  | false => rfl
  | true =>
    refine bind_same_left fun _ c₃ h₃ => bind_same_left fun literal c₄ h₄ => h _ _ ?_
    have hskip := skipBlank_forward.length_le h₁
    have heat := length_lt_of_eat h₂
    have hskip' := skipBlank_forward.length_le h₃
    have hquoted := quoted_forward.length_le h₄
    omega

end Reader

namespace PatternReader

variable {c : Cursor} {node node' : PatternReader Pattern}

theorem listTurn_same {again again' : List Pattern → PatternReader Pattern}
    (hforward : Forward node')
    (hnode : ∀ c', c'.rest.length ≤ c.rest.length → node c' = node' c')
    (h : ∀ found c', c'.rest.length < c.rest.length → again found c' = again' found c')
    (head : Pattern) (found : List Pattern) :
    listTurn node again head found c = listTurn node' again' head found c := by
  refine bind_same_left fun _ c₁ h₁ => ?_
  have hskip := Reader.skipBlank_forward.lift.length_le h₁
  refine bind_same (after_same _ (hnode c₁ hskip)) fun branch c₂ h₂ => ?_
  refine bind_same_left fun _ c₃ h₃ => bind_same_left fun taken c₄ h₄ => ?_
  cases taken with
  | false => rfl
  | true =>
    refine h _ _ ?_
    have hbranch := (hforward.after _).length_le h₂
    have hskip' := Reader.skipBlank_forward.lift.length_le h₃
    have heat := Reader.length_lt_of_eat (lift_ok_iff.1 h₄)
    omega

theorem bodyWith_same {others others' : Reader (List String)}
    (hothers : ∀ c', c'.rest.length ≤ c.rest.length → others c' = others' c')
    (hnode : node c = node' c) (annotations : Annotations) (opened : Nat) :
    bodyWith others node annotations opened c = bodyWith others' node' annotations opened c := by
  refine bind_same_left fun next c₁ h₁ => ?_
  cases h₁
  generalize c.rest.head? = next
  split
  · refine bind_same_left fun first c₂ h₂ => ?_
    have hfirst := Reader.quoted_forward.lift.length_le h₂
    exact bind_same (lift_same (hothers c₂ hfirst)) fun _ _ _ => rfl
  · rfl
  · exact bind_same hnode fun _ _ _ => rfl

theorem branchesWith_same {list list' : Pattern → PatternReader Pattern} {head : Pattern}
    (hlist : ∀ c', c'.rest.length ≤ c.rest.length → list head c' = list' head c')
    (hnode : ∀ c', c'.rest.length ≤ c.rest.length → node c' = node' c') :
    branchesWith node list head c = branchesWith node' list' head c := by
  refine bind_same_left fun _ c₁ h₁ => bind_same_left fun taken c₂ h₂ => ?_
  cases taken with
  | false => rfl
  | true =>
    refine bind_same_left fun _ c₃ h₃ => bind_same_left fun listed c₄ h₄ => ?_
    have hless : c₄.rest.length ≤ c.rest.length := by
      have hskip := Reader.skipBlank_forward.lift.length_le h₁
      have hdot := (Reader.eat_forward _).lift.length_le h₂
      have hskip' := Reader.skipBlank_forward.lift.length_le h₃
      have hbrace := (Reader.eat_forward _).lift.length_le h₄
      omega
    cases listed with
    | true => exact hlist c₄ hless
    | false => exact bind_same (after_same _ (hnode c₄ hless)) fun _ _ _ => rfl

/-- A pattern has a parenthesis, behind which its parts are read. -/
theorem around_same {annotations : Reader Annotations} {others : Reader (List String)}
    {list : Pattern → PatternReader Pattern} {fuel : Nat} (hforward : Forward node')
    (hannotations : annotations c = Reader.annotations (fuel + 1) {} c)
    (hothers : ∀ c', c'.rest.length < c.rest.length → others c' = Reader.literals fuel [] c')
    (hlist : ∀ head c', c'.rest.length < c.rest.length →
      list head c' = branchList node' head fuel [] c')
    (hnode : ∀ c', c'.rest.length < c.rest.length → node c' = node' c') :
    aroundWith annotations others list node c = around node' fuel c := by
  rw [around_eq]
  refine bind_same (lift_same hannotations) fun found c₁ h₁ => bind_same_left fun opened c₂ h₂ => ?_
  refine bind_same_left fun _ c₃ h₃ => bind_same_left fun _ c₄ h₄ => ?_
  have hless : c₄.rest.length < c.rest.length := by
    have hfound := (Reader.annotations_forward _ _).lift.length_le h₁
    have hoffset := Reader.offset_forward.lift.length_le h₂
    have hparen := Reader.length_lt_of_expect (lift_ok_iff.1 h₃)
    have hskip := Reader.skipBlank_forward.lift.length_le h₄
    omega
  have hbody := bodyWith_same (c := c₄) (fun c' hc' => hothers c' (Nat.lt_of_le_of_lt hc' hless))
    (hnode c₄ hless) found opened
  refine bind_same hbody fun head c₅ h₅ => ?_
  have hle : c₅.rest.length < c.rest.length :=
    Nat.lt_of_le_of_lt ((body_forward hforward fuel found opened).length_le h₅) hless
  exact branchesWith_same (fun c' hc' => hlist head c' (Nat.lt_of_le_of_lt hc' hle))
    fun c' hc' => hnode c' (Nat.lt_of_le_of_lt hc' hle)

end PatternReader

/-! ## Loops with a bound -/

section Loop

variable {σ : Type} {turn : (σ → StateT Cursor (Except ε) α) → σ → StateT Cursor (Except ε) α}
  {loop : Nat → σ → StateT Cursor (Except ε) α}

/-- A loop with a bound takes turns. A turn goes on further on in the text only, and at the end of
the text it does not go on. -/
structure Unrolls (turn : (σ → StateT Cursor (Except ε) α) → σ → StateT Cursor (Except ε) α)
    (loop : Nat → σ → StateT Cursor (Except ε) α) : Prop where
  ends : ∀ again s c, c.rest = [] → turn again s c = loop 0 s c
  goes_on : ∀ again fuel s c,
    (∀ s' c', c'.rest.length < c.rest.length → again s' c' = loop fuel s' c') →
      turn again s c = loop (fuel + 1) s c

/-- The loop without a bound, which is the one with the characters that are left as its bound. -/
def unbounded (loop : Nat → σ → StateT Cursor (Except ε) α) (s : σ) :
    StateT Cursor (Except ε) α := fun c => loop c.rest.length s c

namespace Unrolls

/-- One bound is as good as another if there are no more characters than that. -/
theorem stable (h : Unrolls turn loop) {fuel fuel' : Nat} {s : σ} {c : Cursor}
    (hc : c.rest.length ≤ fuel) (hc' : c.rest.length ≤ fuel') : loop fuel s c = loop fuel' s c := by
  have hturn (k : Nat) (s : σ) (c : Cursor) : turn (loop k) s c = loop (k + 1) s c :=
    h.goes_on (loop k) k s c fun _ _ _ => rfl
  induction fuel generalizing fuel' s c with
  | zero =>
    have hend := Cursor.rest_eq_nil hc
    cases fuel' with
    | zero => rfl
    | succ k => rw [← hturn, h.ends _ _ _ hend]
  | succ fuel ih =>
    cases fuel' with
    | zero =>
      have hend := Cursor.rest_eq_nil hc'
      rw [← hturn, h.ends _ _ _ hend]
    | succ k =>
      rw [← hturn k]
      exact (h.goes_on _ _ _ _ fun s' c'' hless => (ih (by omega) (by omega)).symm).symm

theorem unbounded_eq (h : Unrolls turn loop) {fuel : Nat} {s : σ} {c : Cursor}
    (hc : c.rest.length ≤ fuel) : unbounded loop s c = loop fuel s c :=
  h.stable (Nat.le_refl _) hc

/-- The loop without a bound is one that a turn does not change. -/
theorem turn_unbounded (h : Unrolls turn loop) (s : σ) :
    turn (unbounded loop) s = unbounded loop s := by
  funext c
  cases hlength : c.rest.length with
  | zero =>
    rw [h.ends _ _ _ (List.length_eq_zero_iff.1 hlength)]
    exact h.stable (Nat.le_of_eq hlength) (Nat.le_refl _)
  | succ k =>
    rw [h.unbounded_eq (Nat.le_of_eq hlength)]
    exact h.goes_on _ _ _ _ fun s' c' hless => h.unbounded_eq (by omega)

/-- There is no other such loop. -/
theorem eq_unbounded (h : Unrolls turn loop) {f : σ → StateT Cursor (Except ε) α}
    (hf : ∀ s, turn f s = f s) : f = unbounded loop := by
  have heq (fuel : Nat) : ∀ s c, c.rest.length ≤ fuel → f s c = loop fuel s c := by
    induction fuel with
    | zero =>
      intro s c hc
      rw [← hf, h.ends _ _ _ (Cursor.rest_eq_nil hc)]
    | succ fuel ih =>
      intro s c hc
      rw [← hf]
      exact h.goes_on _ _ _ _ fun s' c' hless => ih s' c' (by omega)
  funext s c
  exact heq _ s c (Nat.le_refl _)

end Unrolls

end Loop

theorem annotations_unrolls : Unrolls Reader.annotationsTurn Reader.annotations where
  ends _ _ _ hend := by
    obtain ⟨o, rfl⟩ := Cursor.exists_eq_end hend
    rfl
  goes_on again fuel found c h := Reader.annotationsTurn_same h found

theorem literals_unrolls : Unrolls Reader.literalsTurn Reader.literals where
  ends _ _ _ hend := by
    obtain ⟨o, rfl⟩ := Cursor.exists_eq_end hend
    rfl
  goes_on again fuel found c h := Reader.literalsTurn_same h found

/-! ## Branches and patterns with a bound -/

namespace PatternReader

variable {node node' : PatternReader Pattern} {head : Pattern}

/-- At the end of a text no pattern starts. -/
def MissesEnd (node : PatternReader Pattern) : Prop := ∀ c, c.rest = [] → node c = missing c

theorem pattern_missesEnd (fuel : Nat) : MissesEnd (pattern fuel) := by
  intro c hend
  obtain ⟨o, rfl⟩ := Cursor.exists_eq_end hend
  cases fuel <;> rfl

theorem listTurn_end {again : List Pattern → PatternReader Pattern} {found : List Pattern}
    {c : Cursor} (hmisses : MissesEnd node) (hend : c.rest = []) :
    listTurn node again head found c = branchList node' head 0 found c := by
  have hsame : listTurn node again head found c = listTurn missing again head found c := by
    refine listTurn_same missing_forward (fun c' hc' => hmisses c' ?_) (fun _ _ _ => rfl) head found
    rw [hend] at hc'
    exact Cursor.rest_eq_nil hc'
  rw [hsame]
  obtain ⟨o, rfl⟩ := Cursor.exists_eq_end hend
  rfl

theorem branchList_unrolls (hforward : Forward node) (hmisses : MissesEnd node) (head : Pattern) :
    Unrolls (fun again => listTurn node again head) (branchList node head) where
  ends _ _ _ hend := listTurn_end hmisses hend
  goes_on _ _ found _ h := listTurn_same hforward (fun _ _ => rfl) h head found

/-- A loop that takes branches does what the one with a bound does, as far as its nodes are taken
alike. -/
theorem list_same {again : List Pattern → PatternReader Pattern} {length : Nat}
    (hforward : Forward node') (hmisses : MissesEnd node)
    (hnode : ∀ c, c.rest.length ≤ length → node c = node' c)
    (hagain : ∀ found, again found = listTurn node again head found)
    {fuel : Nat} {found : List Pattern} {c : Cursor} (hc : c.rest.length ≤ length)
    (hfuel : c.rest.length ≤ fuel) : again found c = branchList node' head fuel found c := by
  induction fuel generalizing found c with
  | zero =>
    rw [hagain]
    exact listTurn_end hmisses (Cursor.rest_eq_nil hfuel)
  | succ fuel ih =>
    rw [hagain]
    refine listTurn_same hforward (fun c' hc' => hnode c' (Nat.le_trans hc' hc)) ?_ head found
    exact fun found c' hless => ih (by omega) (by omega)

theorem branchList_same {length fuel fuel' : Nat} {found : List Pattern} {c : Cursor}
    (hforward : Forward node) (hmisses : MissesEnd node) (hforward' : Forward node')
    (hnode : ∀ c, c.rest.length ≤ length → node c = node' c) (hc : c.rest.length ≤ length)
    (hfuel : c.rest.length ≤ fuel) (hfuel' : c.rest.length ≤ fuel') :
    branchList node head fuel found c = branchList node' head fuel' found c := by
  have hunrolls := branchList_unrolls hforward hmisses head
  rw [← hunrolls.unbounded_eq hfuel]
  have hagain (found : List Pattern) := (hunrolls.turn_unbounded found).symm
  exact list_same hforward' hmisses hnode hagain hc hfuel'

/-- One bound of a pattern is as good as another if there are no more characters than that. -/
theorem pattern_stable {fuel fuel' : Nat} {c : Cursor} (hc : c.rest.length ≤ fuel)
    (hc' : c.rest.length ≤ fuel') : pattern fuel c = pattern fuel' c := by
  induction fuel generalizing fuel' c with
  | zero =>
    have hend := Cursor.rest_eq_nil hc
    rw [pattern_missesEnd _ c hend, pattern_missesEnd _ c hend]
  | succ k ih =>
    cases fuel' with
    | zero =>
      have hend := Cursor.rest_eq_nil hc'
      rw [pattern_missesEnd _ c hend, pattern_missesEnd _ c hend]
    | succ m =>
      have hnode (c' : Cursor) (hless : c'.rest.length ≤ min k m) :
          pattern k c' = pattern m c' := ih (by omega) (by omega)
      refine around_same (pattern_forward m) ?_ (fun c' hless => ?_) (fun head c' hless => ?_)
        fun c' hless => hnode c' (by omega)
      · exact annotations_unrolls.stable hc hc'
      · exact literals_unrolls.stable (by omega) (by omega)
      · exact branchList_same (pattern_forward k) (pattern_missesEnd k) (pattern_forward m) hnode
          (by omega) (by omega) (by omega)

/-- Takes a pattern, without a bound. -/
def unboundedPattern : PatternReader Pattern := fun c => pattern c.rest.length c

theorem unboundedPattern_eq {fuel : Nat} {c : Cursor} (hc : c.rest.length ≤ fuel) :
    unboundedPattern c = pattern fuel c :=
  pattern_stable (Nat.le_refl _) hc

theorem unboundedPattern_forward : Forward unboundedPattern where
  ahead h := (pattern_forward _).ahead h
  cut {passed rest front o p o'} h hne hfront := by
    have hlength : (passed ++ front).length ≤ (passed ++ rest).length := by
      rw [List.length_append, List.length_append]
      exact Nat.add_le_add_left hfront.length_le _
    rw [unboundedPattern_eq hlength]
    exact (pattern_forward _).cut h hne hfront

theorem unboundedPattern_missesEnd : MissesEnd unboundedPattern := fun c => pattern_missesEnd _ c

end PatternReader

/-! ## Readers without a bound -/

namespace Readers

open PatternReader

/-- Every reader, with the characters that are left as its bound. -/
def limit : Readers where
  annotations := unbounded Reader.annotations
  literals := unbounded Reader.literals
  list head := unbounded (branchList unboundedPattern head)
  node := unboundedPattern

theorem aroundWith_missesEnd {others : Reader (List String)}
    {list : Pattern → PatternReader Pattern} {node : PatternReader Pattern} :
    MissesEnd (aroundWith (limit.annotations {}) others list node) := by
  intro c hend
  obtain ⟨o, rfl⟩ := Cursor.exists_eq_end hend
  rfl

theorem limit_turn : limit.turn = limit := by
  have hlist (head : Pattern) :=
    branchList_unrolls unboundedPattern_forward unboundedPattern_missesEnd head
  have hnode : limit.turn.node = limit.node := by
    funext c
    cases hlength : c.rest.length with
    | zero =>
      have hend := List.length_eq_zero_iff.1 hlength
      exact (aroundWith_missesEnd c hend).trans (unboundedPattern_missesEnd c hend).symm
    | succ k =>
      have hbounded : limit.node c = around (pattern k) k c :=
        unboundedPattern_eq (Nat.le_of_eq hlength)
      rw [hbounded]
      refine around_same (pattern_forward k) ?_ (fun c' hless => ?_) (fun head c' hless => ?_)
        fun c' hless => unboundedPattern_eq (by omega)
      · exact annotations_unrolls.unbounded_eq (Nat.le_of_eq hlength)
      · exact literals_unrolls.unbounded_eq (by omega)
      · have hnode (c : Cursor) (hc : c.rest.length ≤ k) := unboundedPattern_eq hc
        have hagain (found : List Pattern) := ((hlist head).turn_unbounded found).symm
        exact list_same (pattern_forward k) unboundedPattern_missesEnd hnode hagain (by omega)
          (by omega)
  have hannotations : limit.turn.annotations = limit.annotations :=
    funext annotations_unrolls.turn_unbounded
  have hliterals : limit.turn.literals = limit.literals := funext literals_unrolls.turn_unbounded
  have hlists : limit.turn.list = limit.list :=
    funext fun head => funext (hlist head).turn_unbounded
  show Readers.mk _ _ _ _ = Readers.mk _ _ _ _
  congr

theorem eq_limit {r : Readers} (h : r.turn = r) : r = limit := by
  have hannotations : r.annotations = limit.annotations :=
    annotations_unrolls.eq_unbounded fun found => congrFun (congrArg annotations h) found
  have hliterals : r.literals = limit.literals :=
    literals_unrolls.eq_unbounded fun found => congrFun (congrArg literals h) found
  have hlist (head : Pattern) (found : List Pattern) :
      r.list head found = listTurn r.node (r.list head) head found :=
    (congrFun (congrFun (congrArg list h) head) found).symm
  have hturn : r.node =
      aroundWith (limit.annotations {}) (limit.literals []) (r.list · []) r.node := by
    rw [← hannotations, ← hliterals]
    exact (congrArg Readers.node h).symm
  have hend : MissesEnd r.node := by
    rw [hturn]
    exact aroundWith_missesEnd
  have hnode (fuel : Nat) : ∀ c, c.rest.length ≤ fuel → r.node c = pattern fuel c := by
    induction fuel with
    | zero => exact fun c hc => hend c (Cursor.rest_eq_nil hc)
    | succ k ih =>
      intro c hc
      rw [hturn]
      refine around_same (pattern_forward k) ?_ (fun c' hless => ?_) (fun head c' hless => ?_)
        fun c' hless => ih c' (by omega)
      · exact annotations_unrolls.unbounded_eq hc
      · exact literals_unrolls.unbounded_eq (by omega)
      · exact list_same (pattern_forward k) hend ih (hlist head) (by omega) (by omega)
  have hnodes : r.node = limit.node := funext fun c => hnode _ c (Nat.le_refl _)
  have hlists : r.list = limit.list := by
    funext head
    have hunrolls := branchList_unrolls unboundedPattern_forward unboundedPattern_missesEnd head
    refine hunrolls.eq_unbounded fun found => ?_
    rw [hlist head found]
    exact congrArg (fun node => listTurn node (r.list head) head found) hnodes.symm
  obtain ⟨_, _, _, _⟩ := r
  show Readers.mk _ _ _ _ = Readers.mk _ _ _ _
  congr

end Readers

/-! ## The way of the cursor -/

/-- How readers pass on a cursor when they succeed; all others are chains of these. In a quoted
string it passes from character to character. -/
inductive Readers.Moves (r : Readers) : Cursor → Cursor → Prop where
  | takeWhile {c c' : Cursor} {p : Char → Bool} {run : List Char}
      (h : Reader.takeWhile p c = .ok (run, c')) : Moves r c c'
  | eat {c c' : Cursor} {d : Char} {taken : Bool} (h : Reader.eat d c = .ok (taken, c')) :
      Moves r c c'
  | expect {c c' : Cursor} {d : Char} {wanted : Wanted}
      (h : Reader.expect d wanted c = .ok (⟨⟩, c')) : Moves r c c'
  | character {d : Char} {rest : List Char} {o : Nat} :
      Moves r ⟨d :: rest, o⟩ ⟨rest, o + d.utf8Size⟩
  | quoted {c c' : Cursor} {s : String} (h : Reader.quoted c = .ok (s, c')) : Moves r c c'
  | token {c c' : Cursor} {token : Option String} (h : Reader.token? c = .ok (token, c')) :
      Moves r c c'
  | count {c c' : Cursor} {n : UInt32} (h : Reader.count c = .ok (n, c')) : Moves r c c'
  | bounds {c c' : Cursor} {b : UInt32 × Option UInt32} (h : Reader.bounds c = .ok (b, c')) :
      Moves r c c'
  | annotations {c c' : Cursor} {found a : Annotations} (h : r.annotations found c = .ok (a, c')) :
      Moves r c c'
  | literals {c c' : Cursor} {found all : List String} (h : r.literals found c = .ok (all, c')) :
      Moves r c c'
  | list {c c' : Cursor} {head p : Pattern} {found : List Pattern}
      (h : r.list head found c = .ok (p, c')) : Moves r c c'
  | node {c c' : Cursor} {p : Pattern} (h : r.node c = .ok (p, c')) : Moves r c c'

namespace Readers

open PatternReader

/-- Every move of a cursor is one ahead. -/
theorem Moves.ahead {c c' : Cursor} (h : limit.Moves c c') : c.Ahead c' := by
  cases h with
  | takeWhile h => exact (Reader.takeWhile_forward _).ahead h
  | eat h => exact (Reader.eat_forward _).ahead h
  | expect h => exact (Reader.expect_forward _ _).ahead h
  | character => exact ⟨[_], rfl, rfl⟩
  | quoted h => exact Reader.quoted_forward.ahead h
  | token h => exact Reader.token?_forward.ahead h
  | count h => exact Reader.count_forward.ahead h
  | bounds h => exact Reader.bounds_forward.ahead h
  | annotations h => exact (Reader.annotations_forward _ _).ahead h
  | literals h => exact (Reader.literals_forward _ _).ahead h
  | list h => exact (branchList_forward unboundedPattern_forward _ _ _).ahead h
  | node h => exact unboundedPattern_forward.ahead h

/-- A cursor that moved from the beginning of a text stands in the text. -/
theorem stands_of_moves {r : Readers} (hr : r.turn = r) {text : List Char} {c : Cursor}
    (h : Relation.ReflTransGen r.Moves (.ofText text) c) : c.Stands text := by
  obtain rfl := eq_limit hr
  induction h with
  | refl => exact .refl _
  | tail _ hmove ih => exact ih.trans hmove.ahead

end Readers

/-! ## Texts -/

namespace PatternReader

/-- Takes a pattern with `node`, after which nothing but blanks may follow. -/
def wholeWith (node : PatternReader Pattern) : PatternReader Pattern := do
  let p ← node
  after (fun _ => [p]) do
    Reader.skipBlank
    let rest := (← get).rest
    unless rest.isEmpty do throw { error := .trailingInput (← Reader.offset) }
  return p

theorem whole_eq (length : Nat) : whole length = wholeWith (pattern length) := rfl

end PatternReader

/-- The pattern that readers find in a text. -/
def Readers.ofText (r : Readers) (text : List Char) : Except Misread Pattern :=
  match PatternReader.wholeWith r.node (.ofText text) with
  | .ok (p, _) => .ok p
  | .error misread => .error misread

/-- **There is one family of readers that a turn does not change.** -/
theorem Readers.existsUnique_turn : ∃! r : Readers, r.turn = r :=
  ⟨limit, limit_turn, fun _ => eq_limit⟩

/-- **The pattern of a text is what they find in it.** -/
theorem Readers.ofText_eq {r : Readers} (h : r.turn = r) (text : List Char) :
    r.ofText text = Pattern.ofText text := by
  obtain rfl := eq_limit h
  have hwhole : PatternReader.wholeWith limit.node (.ofText text) =
      PatternReader.whole text.length (.ofText text) := by
    rw [PatternReader.whole_eq]
    exact bind_same rfl fun _ _ _ => rfl
  unfold Readers.ofText
  rw [hwhole]
  rfl

end Lexigraph
