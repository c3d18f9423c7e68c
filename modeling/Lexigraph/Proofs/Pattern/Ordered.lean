/-
# Lexigraph.Proofs.Pattern.Ordered -- bounds that are read are in order

A pattern is ordered when every repetition in it has bounds in order. The reader checks the
bounds of a repetition before it goes on, so all that it reads is ordered: the pattern of a
text, and also the whole patterns before the place where a text goes wrong
(`ofText_ordered`, `fragments_ordered`).
-/

import Lexigraph.Pattern.Reader

namespace Lexigraph

namespace Pattern

mutual

/-- Every repetition in the pattern has bounds in order. -/
def Ordered (p : Pattern) : Prop :=
  match p with
  | .terminal _ _ _ branches => OrderedAll branches
  | .repetition _ child min max _ branches =>
    checkBounds min max = .ok () ∧ Ordered child ∧ OrderedAll branches
  | .choice _ _ branches => OrderedAll branches

/-- Every pattern in the list is ordered. -/
def OrderedAll (ps : List Pattern) : Prop :=
  match ps with
  | [] => True
  | p :: ps => Ordered p ∧ OrderedAll ps

end

theorem orderedAll_iff {ps : List Pattern} : OrderedAll ps ↔ ∀ p ∈ ps, p.Ordered := by
  induction ps with
  | nil => simp [OrderedAll]
  | cons p ps ih => rw [OrderedAll, ih, List.forall_mem_cons]

theorem Ordered.withBranches {p : Pattern} {ps : List Pattern} (h : p.Ordered)
    (hps : ∀ q ∈ ps, q.Ordered) : (p.withBranches ps).Ordered := by
  have hall := orderedAll_iff.2 hps
  cases p with
  | terminal annotations choices token branches => exact hall
  | repetition annotations child min max token branches => exact ⟨h.1, h.2.1, hall⟩
  | choice annotations token branches => exact hall

end Pattern

namespace PatternReader

open Pattern

variable {α β : Type}

/-- Whatever text a reader is given: what it takes is as `good` says, and if it fails, the
patterns read before are ordered. -/
def Yields (r : PatternReader α) (good : α → Prop) : Prop :=
  ∀ cursor, match r cursor with
    | .ok (a, _) => good a
    | .error misread => ∀ p ∈ misread.fragments, p.Ordered

theorem Yields.bind {r : PatternReader α} {f : α → PatternReader β} {good : α → Prop}
    {good' : β → Prop} (h : Yields r good) (h' : ∀ a, good a → Yields (f a) good') :
    Yields (r >>= f) good' := by
  intro cursor
  have hr := h cursor
  show match (r cursor >>= fun p => f p.1 p.2 : Except Misread (β × Cursor)) with
    | .ok (b, _) => good' b
    | .error misread => ∀ p ∈ misread.fragments, p.Ordered
  revert hr
  rcases r cursor with misread | ⟨a, cursor'⟩
  · exact fun hr => hr
  · exact fun hr => h' a hr cursor'

theorem Yields.pure {a : α} {good : α → Prop} (h : good a) :
    Yields (pure a : PatternReader α) good := fun _ => h

theorem Yields.get_bind {f : Cursor → PatternReader β} {good : β → Prop}
    (h : ∀ cursor, Yields (f cursor) good) : Yields (get >>= f) good :=
  fun cursor => h cursor cursor

theorem Yields.throw {error : ReadError} {good : α → Prop} :
    Yields (throw { error } : PatternReader α) good :=
  fun _ _ hp => absurd hp List.not_mem_nil

/-- A lexeme leaves no fragments. -/
theorem Yields.lift (r : Reader α) : Yields (liftM r : PatternReader α) fun _ => True := by
  intro cursor
  rw [lift_apply]
  cases r cursor with
  | error error => exact fun p hp => absurd hp List.not_mem_nil
  | ok result => exact trivial

theorem Yields.after {r : PatternReader α} {good : α → Prop} {done : Unit → List Pattern}
    (h : Yields r good) (hdone : ∀ p ∈ done (), p.Ordered) : Yields (after done r) good := by
  intro cursor
  have hr := h cursor
  unfold PatternReader.after
  revert hr
  rcases r cursor with misread | ⟨a, cursor'⟩
  · intro hr p hp
    rcases List.mem_append.1 hp with hp | hp
    · exact hdone p hp
    · exact hr p hp
  · exact fun hr => hr

/-- Bounds that pass the check are in order. -/
theorem check_yields (checked : Except GrammarError Unit) :
    Yields (check checked) fun _ => checked = .ok () := by
  cases checked with
  | error e => exact Yields.throw
  | ok u => exact Yields.pure rfl

/-! ## The parts of a pattern -/

theorem terminal_yields (fuel : Nat) (annotations : Annotations) (opened : Nat) :
    Yields (terminal fuel annotations opened) Ordered := by
  refine (Yields.lift _).bind fun first _ => (Yields.lift _).bind fun others _ => ?_
  refine (Yields.lift _).bind fun _ _ => (Yields.lift _).bind fun token _ => ?_
  cases token with
  | none => exact Yields.throw
  | some token => exact Yields.pure trivial

theorem choice_yields (annotations : Annotations) : Yields (choice annotations) Ordered :=
  (Yields.lift _).bind fun _ _ => (Yields.lift _).bind fun _ _ => Yields.pure trivial

variable {node : PatternReader Pattern}

theorem repetition_yields (hnode : Yields node Ordered) (annotations : Annotations) :
    Yields (repetition node annotations) Ordered := by
  refine hnode.bind fun child hchild => ?_
  have hbounds : Yields (do
      let bounds ← Reader.bounds
      Reader.expect ')' .closeParen
      check (checkBounds bounds.1 bounds.2)
      return bounds : PatternReader (UInt32 × Option UInt32))
      fun bounds => checkBounds bounds.1 bounds.2 = .ok () := by
    refine (Yields.lift _).bind fun bounds _ => (Yields.lift _).bind fun _ _ => ?_
    exact (check_yields _).bind fun _ hcheck => Yields.pure hcheck
  refine (hbounds.after (by simpa using hchild)).bind fun bounds hcheck => ?_
  have hhead : ∀ a token, (Pattern.repetition a child bounds.1 bounds.2 token []).Ordered :=
    fun _ _ => ⟨hcheck, hchild, trivial⟩
  refine ((Yields.lift _).after ?_).bind fun token _ => Yields.pure (hhead _ _)
  intro p hp
  rw [List.mem_singleton.1 hp]
  exact hhead _ _

theorem missing_yields : Yields missing Ordered :=
  fun _ _ hp => absurd hp List.not_mem_nil

theorem branchList_yields (hnode : Yields node Ordered) {head : Pattern} (hhead : head.Ordered)
    (fuel : Nat) {found : List Pattern} (hfound : ∀ p ∈ found, p.Ordered) :
    Yields (branchList node head fuel found) Ordered := by
  have hwhole : ∀ found' : List Pattern, (∀ p ∈ found', p.Ordered) →
      (head.withBranches found'.reverse).Ordered := fun found' hfound' =>
    hhead.withBranches fun p hp => hfound' p (List.mem_reverse.1 hp)
  have hone : ∀ found' : List Pattern, (∀ p ∈ found', p.Ordered) →
      ∀ p ∈ [head.withBranches found'.reverse], p.Ordered := fun found' hfound' p hp => by
    rw [List.mem_singleton.1 hp]
    exact hwhole found' hfound'
  induction fuel generalizing found with
  | zero =>
    show Yields (after (fun _ => [head.withBranches found.reverse]) missing) Ordered
    exact missing_yields.after (hone found hfound)
  | succ fuel ih =>
    unfold branchList
    refine (Yields.lift _).bind fun _ _ => (hnode.after (hone found hfound)).bind fun p hp => ?_
    have hfound' : ∀ q ∈ p :: found, q.Ordered := List.forall_mem_cons.2 ⟨hp, hfound⟩
    refine (Yields.lift _).bind fun _ _ => (Yields.lift _).bind fun comma _ => ?_
    cases comma with
    | true => exact ih hfound'
    | false =>
      refine ((Yields.lift _).after (hone _ hfound')).bind fun _ _ => ?_
      exact Yields.pure (hwhole _ hfound')

theorem branches_yields (hnode : Yields node Ordered) (fuel : Nat) {head : Pattern}
    (hhead : head.Ordered) : Yields (branches node fuel head) Ordered := by
  refine (Yields.lift _).bind fun _ _ => (Yields.lift _).bind fun dot _ => ?_
  cases dot with
  | false => exact Yields.pure hhead
  | true =>
    refine (Yields.lift _).bind fun _ _ => (Yields.lift _).bind fun brace _ => ?_
    cases brace with
    | true => exact branchList_yields hnode hhead fuel (by simp)
    | false =>
      refine (hnode.after (by simpa using hhead)).bind fun branch hbranch => Yields.pure ?_
      exact hhead.withBranches (by simpa using hbranch)

theorem body_yields (hnode : Yields node Ordered) (fuel : Nat) (annotations : Annotations)
    (opened : Nat) : Yields (body node fuel annotations opened) Ordered := by
  refine (Yields.lift _).bind fun c _ => ?_
  split
  · exact terminal_yields fuel annotations opened
  · exact choice_yields annotations
  · exact repetition_yields hnode annotations

theorem pattern_yields (fuel : Nat) : Yields (pattern fuel) Ordered := by
  induction fuel with
  | zero => exact missing_yields
  | succ fuel ih =>
    refine (Yields.lift _).bind fun annotations _ => (Yields.lift _).bind fun opened _ => ?_
    refine (Yields.lift _).bind fun _ _ => (Yields.lift _).bind fun _ _ => ?_
    refine (body_yields ih fuel annotations opened).bind fun head hhead => ?_
    exact branches_yields ih fuel hhead

theorem whole_yields (length : Nat) : Yields (whole length) Ordered := by
  refine (pattern_yields length).bind fun p hp => ?_
  have hend : Yields (do
      Reader.skipBlank
      let rest := (← get).rest
      unless rest.isEmpty do throw { error := .trailingInput (← Reader.offset) } :
      PatternReader Unit) fun _ => True := by
    refine (Yields.lift _).bind fun _ _ => Yields.get_bind fun cursor => ?_
    by_cases h : cursor.rest.isEmpty = true
    · simp only [h, if_true]
      exact Yields.pure trivial
    · simp only [h, Bool.false_eq_true, if_false]
      exact (Yields.lift _).bind fun _ _ => Yields.throw
  exact (hend.after (by simpa using hp)).bind fun _ _ => Yields.pure hp

end PatternReader

/-! ## Texts -/

namespace Pattern

/-- **What a text denotes is ordered.** -/
theorem ofText_ordered {text : List Char} {p : Pattern} (h : ofText text = .ok p) : p.Ordered := by
  have hyields := PatternReader.whole_yields text.length { rest := text }
  unfold ofText at h
  revert hyields h
  rcases PatternReader.whole text.length { rest := text } with misread | ⟨q, cursor⟩
  · exact fun h => by cases h
  · intro h hq
    cases h
    exact hq

/-- And so is what was read of a text that goes wrong. -/
theorem fragments_ordered {text : List Char} {misread : Misread}
    (h : ofText text = .error misread) : ∀ p ∈ misread.fragments, p.Ordered := by
  have hyields := PatternReader.whole_yields text.length { rest := text }
  unfold ofText at h
  revert hyields h
  rcases PatternReader.whole text.length { rest := text } with misread' | ⟨q, cursor⟩
  · intro h hq
    cases h
    exact hq
  · exact fun h => by cases h

end Pattern

end Lexigraph
