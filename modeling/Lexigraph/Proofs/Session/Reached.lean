/-
# Lexigraph.Proofs.Session.Reached -- what is true of every session

Whatever operations are asked of a fresh session, and whether or not they succeed, the session
stays steady: it is sound, no computation is nested, and each frame begins where the frame
around it has got to or later (`Reached.steady`). From that alone follow the promises of a
session to its caller. No operation that is allowed breaks an assertion or counts further than
offsets can tell (`perform_balanced`). No scan goes backwards or touches what is not its own,
and one whose state does not match leaves no trace but in the memo and the counters
(`scan_leaves_no_trace`).
-/

import Lexigraph.Proofs.Session.Run
import Lexigraph.Session.Op

namespace Lexigraph

/-- The letter `a`, and two or more of it. -/
def Grammar.letters : Grammar where
  tokens := { names := #["a", "letters"], distinct := by decide }
  rules := { rules := #[{ token := ⟨0⟩, choices := { first := "a" } }] }
  graph := { nodes := #[
    { kind := .terminal ⟨0⟩ },
    { kind := .repetition ⟨0⟩ 2 none, token := some ⟨1⟩ }] }

namespace Session

open Attempt (Ensures)

variable {g : Grammar} {s t : Session}

/-- A sound session between two operations. -/
structure Steady (g : Grammar) (s : Session) : Prop extends Sound g s where
  chain : (s.active :: s.outer).IsChain fun inner outer => outer.current ≤ inner.start
  level : s.guard.depth = 0
  limit : s.guard.limit = s.settings.maxDepth
  tallied : s.Tallied

theorem start_steady (source : String) (settings : Settings) (memo : Memo)
    (hmemo : memo.Coherent g.rules (.ofString source)) :
    Steady g (.start source settings memo) where
  toSound := start_sound source settings memo hmemo
  chain := .singleton _
  level := rfl
  limit := rfl
  tallied := nofun

/-- Frames stay in order when the active one begins later. -/
theorem isChain_of_start_le {f f' : Frame} {frames : List Frame} (hle : f.start ≤ f'.start)
    (h : (f :: frames).IsChain fun inner outer => outer.current ≤ inner.start) :
    (f' :: frames).IsChain fun inner outer => outer.current ≤ inner.start := by
  cases frames with
  | nil => exact .singleton _
  | cons parent frames =>
    rw [List.isChain_cons_cons] at h ⊢
    exact ⟨Nat.le_trans h.1 hle, h.2⟩

theorem Steady.onward (hs : Steady g s) (ht : Sound g t) (h : Onward s t) : Steady g t where
  toSound := ht
  chain := by
    rw [h.outer]
    exact isChain_of_start_le h.start hs.chain
  level := h.depth.trans hs.level
  limit := by rw [h.limit, hs.limit, h.settings]
  tallied := h.tallied hs.tallied

theorem Steady.pushed (hs : Steady g s) : Steady g s.pushed where
  toSound := hs.toSound.pushed
  chain := List.isChain_cons_cons.2 ⟨Nat.le_refl _, hs.chain⟩
  level := hs.level
  limit := hs.limit
  tallied := hs.tallied

/-- The position of a frame that ends is one for the frame around it. -/
theorem Steady.popped {parent : Frame} {outer : List Frame} (hs : Steady g s)
    (h : s.outer = parent :: outer) (publish : Bool) : Steady g (pop publish s).2 := by
  obtain ⟨hle, hchain⟩ := List.isChain_cons_cons.1 (h ▸ hs.chain)
  have hparent : parent.Fits s.scanner.source := hs.outer parent (h ▸ List.mem_cons_self)
  rw [pop_apply h]
  refine { hs with
    active := ⟨?_, hparent.start_ok, hs.active.current_ok⟩
    outer := ?_
    chain := ?_ }
  · exact Nat.le_trans hparent.ordered (Nat.le_trans hle hs.active.ordered)
  · exact fun f hf => hs.outer f (h ▸ List.mem_cons_of_mem _ hf)
  · exact isChain_of_start_le (f := parent) (Nat.le_refl _) hchain

/-- What is made of an answer makes no difference to the session. -/
theorem bind_pure_snd {α β : Type} (x : Scanning α) (f : α → β) (s : Session) :
    ((x >>= fun a => pure (f a)) s).2 = (x s).2 := by
  rw [Attempt.bind_apply]
  rcases x s with ⟨answer, t⟩
  cases answer <;> rfl

/-- What an operation makes of a sound session. Only the root frame stays when it is popped. -/
inductive Made (g : Grammar) (s : Session) : Op → Session → Prop where
  | scan {id : StateId} {t : Session} (ht : Sound g t) (h : Covers s t) : Made g s (.scan id) t
  | run {root : StateId} {t : Session} (ht : Sound g t) (h : Covers s t) : Made g s (.run root) t
  | push : Made g s .push s.pushed
  | pop {parent : Frame} {outer : List Frame} {publish : Bool} (h : s.outer = parent :: outer) :
    Made g s (.pop publish) (pop publish s).2
  | stay {publish : Bool} : Made g s (.pop publish) s

theorem perform_made (hs : Sound g s) (op : Op) : Made g s op (perform g op s).2 := by
  cases op with
  | scan id =>
    have h := scan_scanned id s hs
    show Made g s _ ((scan g id >>= fun found => pure (some found)) s).2
    rw [bind_pure_snd]
    exact .scan h.sound h.covers
  | run root =>
    have h := run_covers hs root
    show Made g s _ ((run g root >>= fun _ => pure none) s).2
    rw [bind_pure_snd]
    exact .run h.1 h.2
  | push => exact .push
  | pop publish =>
    show Made g s _ ((pop publish >>= fun _ => pure none) s).2
    rw [bind_pure_snd]
    cases houter : s.outer with
    | nil =>
      rw [pop_root houter]
      exact .stay
    | cons parent outer => exact .pop houter

theorem Made.steady {op : Op} (h : Made g s op t) (hs : Steady g s) : Steady g t := by
  cases h with
  | scan ht h | run ht h => exact hs.onward ht h.toOnward
  | push => exact hs.pushed
  | pop houter => exact hs.popped houter _
  | stay => exact hs

theorem perform_steady (hs : Steady g s) (op : Op) : Steady g (perform g op s).2 :=
  (perform_made hs.toSound op).steady hs

/-- **Every session is steady.** -/
theorem Reached.steady (hs : Reached g s) : Steady g s := by
  induction hs with
  | start source settings => exact start_steady source settings _ Memo.coherent_empty
  | plain source settings => exact start_steady source settings _ Memo.coherent_off
  | perform _ op ih => exact perform_steady ih op

/-! ## Nothing breaks -/

/-- A session whose parts agree with one another, and in which offsets and counts fit into 32
bits. -/
structure Balanced (s : Session) : Prop where
  synced : s.scanner.position = s.position
  frames : ∀ f ∈ s.active :: s.outer, f.start ≤ f.current ∧ f.current ≤ s.scanner.source.size ∧
    s.scanner.source.IsBoundary f.start ∧ s.scanner.source.IsBoundary f.current
  unmarked : s.scanner.marks = []
  level : s.guard.depth = 0
  size_lt : s.scanner.source.size < UInt32.size
  counts : ∀ e ∈ s.events.toList, ∀ n ∈ e.rounds?, n < UInt32.size

theorem Steady.balanced (hs : Steady g s) (hsize : s.scanner.source.size < UInt32.size) :
    s.Balanced where
  synced := hs.synced
  frames := by
    intro f hf
    have hfits : f.Fits s.scanner.source := by
      rcases List.mem_cons.1 hf with rfl | hf
      · exact hs.active
      · exact hs.outer f hf
    exact ⟨hfits.ordered, hfits.current_ok.le_size, hfits.start_ok, hfits.current_ok⟩
  unmarked := hs.unmarked
  level := hs.level
  size_lt := hsize
  counts := fun e he n hn => Nat.lt_of_le_of_lt (hs.tallied e he n hn) hsize

/-- The position of a scanner stays in its source, whatever literal it moves past. -/
theorem scan_position_le (scanner : Scanner) (literal : List Char) :
    (scanner.scan literal).2.position ≤ scanner.source.size := by
  have hle := (scanner.scan literal).2.position_ok.le_size
  have hsource : (scanner.scan literal).2.source = scanner.source := by
    unfold Scanner.scan
    split <;> rfl
  rwa [hsource] at hle

/-- What is made of an answer breaks no promise. -/
theorem faultless_bind {α β : Type} {x : Scanning α} {f : α → β} {post : Session → Prop}
    (h : Ensures x s fun answer t => (∀ e, answer ≠ .error (.fault e)) ∧ post t) :
    Ensures (x >>= fun a => pure (f a)) s fun answer t =>
      (∀ e, answer ≠ .error (.fault e)) ∧ post t := by
  refine h.bind (fun stop t h => ⟨fun e he => h.1 e ?_, h.2⟩) fun a t h => ⟨nofun, h.2⟩
  rw [Except.error.inj he]

/-- What an allowed operation does to the frames. It breaks no promise. -/
theorem perform_allowed (hs : Sound g s) {op : Op} (hop : op.Allowed s) :
    Ensures (perform g op) s fun answer t => (∀ e, answer ≠ .error (.fault e)) ∧
      t.scanner.source = s.scanner.source ∧ match op with
        | .scan _ | .run _ => t.frameCount = s.frameCount
        | .push => t.frameCount = s.frameCount + 1
        | .pop _ => t.frameCount + 1 = s.frameCount := by
  have hcount : ∀ {t}, Covers s t → t.frameCount = s.frameCount := fun h =>
    congrArg (·.length + 1) h.outer
  cases op with
  | scan id =>
    exact faultless_bind <| (scan_scanned id s hs).mono fun _ _ h =>
      ⟨h.faultless, h.covers.source, hcount h.covers⟩
  | run root =>
    have houter : s.outer = [] := List.length_eq_zero_iff.1 (Nat.succ.inj hop)
    exact faultless_bind <| (run_ensures hs houter).mono fun _ _ h =>
      ⟨h.1.faultless, h.1.covers.source, hcount h.1.covers⟩
  | push => exact ⟨nofun, rfl, rfl⟩
  | pop publish =>
    refine faultless_bind ?_
    cases houter : s.outer with
    | nil =>
      have hlt : 2 ≤ s.outer.length + 1 := hop
      rw [houter] at hlt
      exact absurd hlt (by decide)
    | cons parent outer =>
      unfold Ensures frameCount
      rw [pop_apply houter, houter]
      exact ⟨nofun, rfl, rfl⟩

/-- **Nothing breaks.** Between operations the scanner stands where the active frame does, all
frames lie between boundaries of the source, no mark is open and nothing is nested. An allowed
operation keeps that, whether or not it succeeds, and meets no broken promise on the way; a scan
or a run leaves as many frames as there were. Where offsets fit into 32 bits, so does the count
of rounds in any event, and so does any position that a scanner moves to. -/
theorem perform_balanced (hs : Reached g s) (hsize : s.scanner.source.size < UInt32.size) (op : Op)
    (hop : op.Allowed s) :
    s.Balanced ∧ Ensures (perform g op) s fun answer t =>
      (∀ e, answer ≠ .error (.fault e)) ∧ t.Balanced ∧
        (match op with
          | .scan _ | .run _ => t.frameCount = s.frameCount
          | .push => t.frameCount = s.frameCount + 1
          | .pop _ => t.frameCount + 1 = s.frameCount) ∧
        ∀ scanner : Scanner, scanner.source = s.scanner.source → ∀ literal,
          (scanner.scan literal).2.position < UInt32.size := by
  refine ⟨hs.steady.balanced hsize, ?_⟩
  obtain ⟨hfaultless, hsource, hcount⟩ := perform_allowed hs.steady.toSound hop
  refine ⟨hfaultless, (perform_steady hs.steady op).balanced ?_, hcount, ?_⟩
  · rwa [hsource]
  · intro scanner hscanner literal
    have hle := scan_position_le scanner literal
    rw [hscanner] at hle
    exact Nat.lt_of_le_of_lt hle hsize

/-- The session after a scan in a frame of its own. -/
def lettersPushed : Session :=
  (perform .letters (.scan ⟨0⟩) (perform .letters .push (.start "aa")).2).2

theorem lettersPushed_reached : Reached .letters lettersPushed :=
  ((Reached.start "aa" {}).perform .push).perform (.scan ⟨0⟩)

theorem perform_balanced_letters :
    lettersPushed.frameCount = 2 ∧ (perform .letters (.pop true) lettersPushed).2.Balanced := by
  have hsize : lettersPushed.scanner.source.size < UInt32.size := by decide +kernel
  have hframes : lettersPushed.frameCount = 2 := by decide +kernel
  refine ⟨hframes, ?_⟩
  exact (perform_balanced lettersPushed_reached hsize (.pop true) (Nat.le_of_eq hframes.symm)).2.2.1

/-! ## No trace -/

theorem scanner_eq {scanner scanner' : Scanner} (hsource : scanner'.source = scanner.source)
    (hposition : scanner'.position = scanner.position) (hmarks : scanner'.marks = scanner.marks) :
    scanner' = { scanner with comparisons := scanner'.comparisons } := by
  rcases scanner with ⟨source, position, marks, _, _, _⟩
  rcases scanner' with ⟨_, _, _, _, _, _⟩
  cases hsource
  cases hposition
  cases hmarks
  rfl

/-- Work that emitted and moved nothing. -/
theorem eq_of_unmoved (hs : Sound g s) (ht : Sound g t) (h : Onward s t) (hframe : SameFrame s t)
    (hposition : t.position = s.position) :
    t = { s with
      scanner := { s.scanner with comparisons := t.scanner.comparisons }
      memo := t.memo
      guard := { s.guard with deepest := t.guard.deepest }
      steps := t.steps
      furthest := t.furthest
      events := t.events } := by
  have hscanner := scanner_eq h.source (by rw [ht.synced, hs.synced, hposition])
    (ht.unmarked.trans hs.unmarked.symm)
  have hactive : t.active = s.active := by
    show Frame.mk t.active.start t.position t.active.tokens = s.active
    rw [hframe.start, hposition, hframe.tokens]
    rfl
  have hguard : t.guard = { s.guard with deepest := t.guard.deepest } := by
    show DepthGuard.mk t.guard.limit t.guard.depth t.guard.deepest = _
    rw [h.limit, h.depth]
  rw [← hscanner, ← hguard, ← hactive, ← h.settings, ← h.outer]

/-- **A scan that does not match leaves no trace, and no scan goes backwards.** Whatever it
answers, the position is not before the old one, the frames around the active one are the same,
and the tokens of the active frame are those that it had, perhaps with more after them. If the
state did not match, the active frame begins where it did and has the tokens that it had. If
moreover repetitions go back when they fall short, the session differs in its memo and in what it
counts alone. -/
theorem scan_leaves_no_trace (hs : Reached g s) (id : StateId) :
    Ensures (scan g id) s fun answer t =>
      s.scanner.position ≤ t.scanner.position ∧ s.position ≤ t.position ∧ t.outer = s.outer ∧
        s.active.tokens.toList <+: t.active.tokens.toList ∧
        (answer = .ok false →
          t.active.start = s.active.start ∧ t.active.tokens = s.active.tokens) ∧
        (answer = .ok false → s.settings.shortfall = .rewind → t = { s with
          scanner := { s.scanner with comparisons := t.scanner.comparisons }
          memo := t.memo
          guard := { s.guard with deepest := t.guard.deepest }
          steps := t.steps
          furthest := t.furthest
          events := t.events }) := by
  have hsteady := hs.steady
  refine (scan_scanned id s hsteady.toSound).mono fun answer t h => ?_
  obtain ⟨new, hnew, -⟩ := h.covers.tokens
  refine ⟨?_, h.covers.current, h.covers.outer, ⟨new, hnew.symm⟩, ?_, ?_⟩
  · rw [hsteady.synced, h.sound.synced]
    exact h.covers.current
  · exact fun hfalse => ⟨(h.sameFrame hfalse).start, (h.sameFrame hfalse).tokens⟩
  · intro hfalse hrewind
    exact eq_of_unmoved hsteady.toSound h.sound h.covers.toOnward (h.sameFrame hfalse)
      (h.unmoved hfalse hrewind)

theorem scan_leaves_no_trace_letters :
    (scan .letters ⟨1⟩ (.start "ab")).1 = .ok false ∧
      (scan .letters ⟨1⟩ (.start "ab")).2.active = .startingAt 0 := by
  have hfalse : (scan .letters ⟨1⟩ (.start "ab")).1 = .ok false := by decide +kernel
  obtain ⟨-, -, -, -, -, htrace⟩ := scan_leaves_no_trace (.start (g := .letters) "ab" {}) ⟨1⟩
  rw [htrace hfalse rfl]
  exact ⟨hfalse, rfl⟩

end Session

end Lexigraph
