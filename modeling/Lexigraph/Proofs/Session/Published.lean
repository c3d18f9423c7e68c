/-
# Lexigraph.Proofs.Session.Published -- where the tokens of a session lie

A frame that is published moves the frame around it on, but not the place where the uncovered
text of that one begins. The next token of the frame around it then covers the published ones.
So the tokens of a session nest: of any two, the one found first ends before the other begins,
or lies in its text (`tokens_nest`). They are apart, and in the order of the text, as long as
each scan begins in a frame that is clear, which is to say that no token of it reaches into its
uncovered text (`Orderly.apart`).
-/

import Lexigraph.Proofs.Session.Reached

namespace Lexigraph

/-! ## Frames -/

namespace Frame

/-- A frame whose tokens are not empty, lie between boundaries and nest. None of them goes across
the beginning of the uncovered text. -/
structure Laid (source : Source) (f : Frame) : Prop where
  filled : ∀ t ∈ f.tokens.toList, t.span.start < t.span.stop ∧
    source.IsBoundary t.span.start ∧ source.IsBoundary t.span.stop
  placed : ∀ t ∈ f.tokens.toList,
    t.span.stop ≤ f.start ∨ f.start ≤ t.span.start ∧ t.span.stop ≤ f.current
  nested : f.tokens.toList.Pairwise fun t u => t.Before u ∨ t.Within u

/-- No token of the frame reaches into its uncovered text. -/
def Clear (f : Frame) : Prop := ∀ t ∈ f.tokens.toList, t.span.stop ≤ f.start

/-- A frame begins where another has got to or later, and so do its tokens. -/
def Follows (f outer : Frame) : Prop :=
  outer.current ≤ f.start ∧ ∀ t ∈ f.tokens.toList, outer.current ≤ t.span.start

variable {source : Source} {f parent : Frame}

theorem laid_startingAt (source : Source) (position : Nat) : (startingAt position).Laid source :=
  ⟨nofun, nofun, .nil⟩

theorem Laid.stop_le (h : f.Laid source) (hordered : f.start ≤ f.current) :
    ∀ t ∈ f.tokens.toList, t.span.stop ≤ f.current := by
  intro t ht
  rcases h.placed t ht with hle | ⟨-, hle⟩
  · exact Nat.le_trans hle hordered
  · exact hle

/-- A frame that goes on keeps its tokens in place. -/
theorem Laid.moved {position : Nat} (h : f.Laid source) (hle : f.current ≤ position) :
    { f with current := position }.Laid source where
  filled := h.filled
  placed := fun t ht => (h.placed t ht).imp_right fun hin => ⟨hin.1, Nat.le_trans hin.2 hle⟩
  nested := h.nested

/-- The tokens of a frame that is published come after those of the frame around it. -/
theorem before_of_follows (hparent : parent.Laid source) (hordered : parent.start ≤ parent.current)
    (hf : f.Follows parent) :
    ∀ t ∈ parent.tokens.toList, ∀ u ∈ f.tokens.toList, t.Before u :=
  fun t ht u hu => Nat.le_trans (hparent.stop_le hordered t ht) (hf.2 u hu)

theorem Laid.published (hparent : parent.Laid source) (h : f.Laid source)
    (hordered : parent.start ≤ parent.current) (hordered' : f.start ≤ f.current)
    (hf : f.Follows parent) :
    { parent with current := f.current, tokens := parent.tokens ++ f.tokens }.Laid source := by
  have hle : parent.current ≤ f.current := Nat.le_trans hf.1 hordered'
  refine ⟨fun t ht => ?_, fun t ht => ?_, ?_⟩
  · rcases List.mem_append.1 (Array.toList_append ▸ ht) with ht | ht
    · exact hparent.filled t ht
    · exact h.filled t ht
  · rcases List.mem_append.1 (Array.toList_append ▸ ht) with ht | ht
    · exact (hparent.moved hle).placed t ht
    · exact .inr ⟨Nat.le_trans hordered (hf.2 t ht), h.stop_le hordered' t ht⟩
  · rw [Array.toList_append, List.pairwise_append]
    exact ⟨hparent.nested, h.nested,
      fun t ht u hu => .inl (before_of_follows hparent hordered hf t ht u hu)⟩

/-- Tokens that tile the uncovered text up to where the frame has got to, or further, cover those
that lie in it. The first of them does: what comes after that begins where another of them
ended. -/
theorem Laid.before_or_within {stop : Nat} {new : List Token} (h : f.Laid source)
    (htiles : Tiles source f.start new stop) (hreach : ∀ u ∈ new, f.current ≤ u.span.stop) :
    ∀ t ∈ f.tokens.toList, ∀ u ∈ new, t.Before u ∨ t.Within u := by
  intro t ht u hu
  rcases h.placed t ht with hle | ⟨hstart, hstop⟩
  · exact .inl (Nat.le_trans hle (htiles.bounds.2 u hu).1)
  rcases htiles.start_eq u hu with hu' | ⟨v, hv, hu'⟩
  · exact .inr ⟨hu' ▸ hstart, Nat.le_trans hstop (hreach u hu)⟩
  · exact .inl (Nat.le_trans hstop (hu' ▸ hreach v hv))

end Frame

namespace Session

variable {g : Grammar} {s t : Session}

/-! ## Tokens nest -/

/-- A steady session whose frames are laid, each of them after those around it. -/
structure Ordered (g : Grammar) (s : Session) : Prop extends Steady g s where
  laid : ∀ f ∈ s.active :: s.outer, f.Laid s.scanner.source
  follows : (s.active :: s.outer).Pairwise Frame.Follows

/-- A frame in which work goes on stays laid. -/
theorem laid_of_covers (hs : Sound g s) (h : Covers s t)
    (hlaid : s.active.Laid s.scanner.source) : t.active.Laid t.scanner.source := by
  obtain ⟨new, hnew, htiles, hreach⟩ := h.tokens
  rw [h.source]
  refine ⟨?_, ?_, ?_⟩ <;> rw [hnew]
  · exact List.forall_mem_append.2 ⟨hlaid.filled, htiles.mem hs.active.start_ok⟩
  · refine List.forall_mem_append.2 ⟨fun u hu => ?_, fun u hu => .inl (htiles.bounds.2 u hu).2⟩
    rcases htiles.stop_eq with hstart | ⟨v, hv, hstart⟩
    · rw [hstart]
      exact (hlaid.moved h.current).placed u hu
    -- what was emitted reaches at least as far as the frame had got
    · have hle := Nat.le_trans (hlaid.stop_le hs.active.ordered u hu) (hreach v hv)
      exact .inl (hstart ▸ hle)
  · rw [List.pairwise_append]
    exact ⟨hlaid.nested, htiles.pairwise_before.imp .inl, hlaid.before_or_within htiles hreach⟩

theorem follows_of_covers {f : Frame} (h : Covers s t) (hf : s.active.Follows f) :
    t.active.Follows f := by
  obtain ⟨new, hnew, htiles, -⟩ := h.tokens
  refine ⟨Nat.le_trans hf.1 h.start, ?_⟩
  rw [hnew]
  exact List.forall_mem_append.2
    ⟨hf.2, fun u hu => Nat.le_trans hf.1 (htiles.bounds.2 u hu).1⟩

theorem start_ordered (hs : Steady g s) (hactive : s.active = .startingAt 0)
    (houter : s.outer = []) : Ordered g s where
  toSteady := hs
  laid := by
    rw [hactive, houter]
    exact List.forall_mem_singleton.2 (Frame.laid_startingAt _ _)
  follows := houter ▸ List.pairwise_singleton _ _

theorem Ordered.covers (hs : Ordered g s) (ht : Sound g t) (h : Covers s t) : Ordered g t where
  toSteady := hs.toSteady.onward ht h.toOnward
  laid := by
    obtain ⟨hactive, houter⟩ := List.forall_mem_cons.1 hs.laid
    refine List.forall_mem_cons.2 ⟨laid_of_covers hs.toSound h hactive, ?_⟩
    rw [h.outer, h.source]
    exact houter
  follows := by
    obtain ⟨hactive, houter⟩ := List.pairwise_cons.1 hs.follows
    rw [h.outer]
    exact .cons (fun f hf => follows_of_covers h (hactive f hf)) houter

theorem Ordered.pushed (hs : Ordered g s) : Ordered g s.pushed where
  toSteady := hs.toSteady.pushed
  laid := List.forall_mem_cons.2 ⟨Frame.laid_startingAt _ _, hs.laid⟩
  follows := by
    have houter := (List.pairwise_cons.1 hs.follows).1
    have hbegun : ∀ f ∈ s.outer, f.current ≤ s.position :=
      fun f hf => Nat.le_trans (houter f hf).1 hs.active.ordered
    refine .cons (List.forall_mem_cons.2 ⟨?_, fun f hf => ?_⟩) hs.follows
    · exact ⟨Nat.le_refl _, nofun⟩
    · exact ⟨hbegun f hf, nofun⟩

theorem Ordered.popped {parent : Frame} {outer : List Frame} (hs : Ordered g s)
    (h : s.outer = parent :: outer) (publish : Bool) : Ordered g (pop publish s).2 := by
  have hsteady := hs.toSteady.popped h publish
  obtain ⟨hactive, hlaid⟩ := List.forall_mem_cons.1 (h ▸ hs.laid)
  obtain ⟨hparent, houter⟩ := List.forall_mem_cons.1 hlaid
  obtain ⟨hfollows, hrest⟩ := List.pairwise_cons.1 (h ▸ hs.follows)
  obtain ⟨hparentFollows, hpairwise⟩ := List.pairwise_cons.1 hrest
  have hordered : parent.start ≤ parent.current :=
    (hs.outer parent (h ▸ List.mem_cons_self)).ordered
  have hbehind := hfollows parent List.mem_cons_self
  rw [pop_apply h] at hsteady ⊢
  refine ⟨hsteady, List.forall_mem_cons.2 ⟨?_, houter⟩, .cons (fun f hf => ?_) hpairwise⟩
  · cases publish with
    | true => exact hparent.published hactive hordered hs.active.ordered hbehind
    | false => exact hparent.moved (Nat.le_trans hbehind.1 hs.active.ordered)
  · refine ⟨(hparentFollows f hf).1, ?_⟩
    cases publish with
    | true =>
      show ∀ t ∈ (parent.tokens ++ s.active.tokens).toList, _
      rw [Array.toList_append]
      exact List.forall_mem_append.2
        ⟨(hparentFollows f hf).2, (hfollows f (List.mem_cons_of_mem _ hf)).2⟩
    | false => exact (hparentFollows f hf).2

theorem Made.ordered {op : Op} (h : Made g s op t) (hs : Ordered g s) : Ordered g t := by
  cases h with
  | scan ht h | run ht h => exact hs.covers ht h
  | push => exact hs.pushed
  | pop houter => exact hs.popped houter _
  | stay => exact hs

theorem Reached.ordered (hs : Reached g s) : Ordered g s := by
  induction hs with
  | start source settings => exact start_ordered (Reached.start source settings).steady rfl rfl
  | plain source settings => exact start_ordered (Reached.plain source settings).steady rfl rfl
  | perform _ op ih => exact (perform_made ih.toSound op).ordered ih

/-! ## Where tokens are apart -/

/-- Whatever scans is asked for in a clear frame. -/
def Op.Orderly (s : Session) : Op → Prop
  | .scan _ | .run _ => s.active.Clear
  | .push | .pop _ => True

/-- A session in which every scan and every run began in a clear frame. -/
inductive Orderly (g : Grammar) : Session → Prop where
  | start (source : String) (settings : Settings) : Orderly g (.start source settings)
  | plain (source : String) (settings : Settings) : Orderly g (.start source settings .off)
  | perform {s : Session} (h : Orderly g s) (op : Op) (hop : op.Orderly s) :
    Orderly g (perform g op s).2

theorem Orderly.reached (hs : Orderly g s) : Reached g s := by
  induction hs with
  | start source settings => exact .start source settings
  | plain source settings => exact .plain source settings
  | perform _ op _ ih => exact .perform ih op

/-- In every frame, each token starts where those before it have ended or later. -/
def Apart (s : Session) : Prop :=
  ∀ f ∈ s.active :: s.outer, f.tokens.toList.Pairwise Token.Before

theorem Apart.covers (hs : s.Apart) (hclear : s.active.Clear) (h : Covers s t) : t.Apart := by
  obtain ⟨new, hnew, htiles, -⟩ := h.tokens
  obtain ⟨hactive, houter⟩ := List.forall_mem_cons.1 hs
  refine List.forall_mem_cons.2 ⟨?_, h.outer ▸ houter⟩
  rw [hnew, List.pairwise_append]
  exact ⟨hactive, htiles.pairwise_before,
    fun t ht u hu => Nat.le_trans (hclear t ht) (htiles.bounds.2 u hu).1⟩

theorem Apart.popped {parent : Frame} {outer : List Frame} (hs : s.Apart) (hordered : Ordered g s)
    (h : s.outer = parent :: outer) (publish : Bool) : (pop publish s).2.Apart := by
  obtain ⟨hactive, hframes⟩ := List.forall_mem_cons.1 hs
  obtain ⟨hparent, houter⟩ := List.forall_mem_cons.1 (h ▸ hframes)
  rw [pop_apply h]
  refine List.forall_mem_cons.2 ⟨?_, houter⟩
  cases publish with
  | false => exact hparent
  | true =>
    have hmem : parent ∈ s.outer := h ▸ List.mem_cons_self
    have hlaid := hordered.laid parent (List.mem_cons_of_mem _ hmem)
    have hfollows := (List.pairwise_cons.1 hordered.follows).1 parent hmem
    show (parent.tokens ++ s.active.tokens).toList.Pairwise _
    rw [Array.toList_append, List.pairwise_append]
    exact ⟨hparent, hactive,
      Frame.before_of_follows hlaid (hordered.outer parent hmem).ordered hfollows⟩

theorem Made.apart {op : Op} (h : Made g s op t) (hop : op.Orderly s) (hordered : Ordered g s)
    (hs : s.Apart) : t.Apart := by
  cases h with
  | scan _ h | run _ h => exact hs.covers hop h
  | push => exact List.forall_mem_cons.2 ⟨.nil, hs⟩
  | pop houter => exact hs.popped hordered houter _
  | stay => exact hs

theorem Orderly.apart (hs : Orderly g s) : s.Apart := by
  induction hs with
  | start source settings => exact List.forall_mem_singleton.2 .nil
  | plain source settings => exact List.forall_mem_singleton.2 .nil
  | perform h op hop ih =>
    have hordered := h.reached.ordered
    exact (perform_made hordered.toSound op).apart hop hordered ih

/-! ## The tokens of a session -/

theorem rootFrame_mem (s : Session) : s.rootFrame ∈ s.active :: s.outer :=
  List.getLastD_mem_cons ..

/-- **The tokens of a session nest.** None is empty, and all lie between boundaries of the source.
Of any two, the one that was found first ends before the other begins, or lies in its text. If
every scan and every run began in a frame with no token in its uncovered text, each token starts
where those before it have ended or later. -/
theorem tokens_nest (hs : Reached g s) :
    (∀ t ∈ s.tokens.toList, t.span.start < t.span.stop ∧
      s.scanner.source.IsBoundary t.span.start ∧ s.scanner.source.IsBoundary t.span.stop) ∧
    (s.tokens.toList.Pairwise fun t u => t.Before u ∨ t.Within u) ∧
    (Orderly g s → s.tokens.toList.Pairwise Token.Before) := by
  have hlaid := hs.ordered.laid _ s.rootFrame_mem
  exact ⟨hlaid.filled, hlaid.nested, fun h => h.apart _ s.rootFrame_mem⟩

/-- The session after a scan in the root frame, and one in a frame that is then published. -/
def lettersSplit : Session :=
  (perform .letters (.pop true) (perform .letters (.scan ⟨0⟩) (perform .letters .push
    (perform .letters (.scan ⟨0⟩) (.start "aa")).2).2).2).2

theorem lettersSplit_orderly : Orderly .letters lettersSplit :=
  .perform (.perform (.perform (.perform (.start "aa" {}) (.scan ⟨0⟩) nofun) .push trivial)
    (.scan ⟨0⟩) nofun) (.pop true) trivial

theorem tokens_nest_letters :
    lettersSplit.tokens.size = 2 ∧ lettersSplit.tokens.toList.Pairwise Token.Before :=
  ⟨by decide +kernel, (tokens_nest lettersSplit_orderly.reached).2.2 lettersSplit_orderly⟩

/-- The session after one more scan in the root frame, into which a frame was published. -/
def lettersCovered : Session :=
  (perform .letters (.scan ⟨0⟩) (perform .letters (.pop true) lettersPushed).2).2

/-- The token of a scan covers those that were published just before. -/
theorem published_covered :
    Reached .letters lettersCovered ∧ (Op.pop true).Allowed lettersPushed ∧
      lettersCovered.tokens = #[⟨⟨0⟩, ⟨0, 1⟩⟩, ⟨⟨0⟩, ⟨0, 2⟩⟩] ∧
      ¬ lettersCovered.tokens.toList.Pairwise Token.Before := by
  have htokens : lettersCovered.tokens = #[⟨⟨0⟩, ⟨0, 1⟩⟩, ⟨⟨0⟩, ⟨0, 2⟩⟩] := by decide +kernel
  have hframes : lettersPushed.frameCount = 2 := by decide +kernel
  refine ⟨(lettersPushed_reached.perform (.pop true)).perform (.scan ⟨0⟩), ?_, htokens, ?_⟩
  · exact Nat.le_of_eq hframes.symm
  · rw [htokens]
    decide

end Session

end Lexigraph
