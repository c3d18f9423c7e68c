/-
# Lexigraph.Proofs.Session.Sound -- what every scan keeps

A session is sound when its scanner stands where its active frame does, when the uncovered
text of every frame lies between boundaries of the source, when no mark is open, and when
its memo is coherent. Scanning a sound session leaves a sound one, whatever it answers.

What a scan does to a session is said by `Covers`: it leaves the frames around the active
one, the settings and the nesting alone, moves forward, counts no more rounds than there are
bytes, and adds tokens that tile the text from the old beginning of the uncovered text to the
new one. A scan breaks no promise, and
one that does not match leaves beginning and tokens of the frame as they were
(`scanNested_scanned`).
-/

import Lexigraph.Proofs.Session.Memo
import Lexigraph.Proofs.Token.Tiling

namespace Lexigraph

open Attempt (Ensures)

/-- A frame whose uncovered text lies in the source, between boundaries. -/
structure Frame.Fits (source : Source) (f : Frame) : Prop where
  ordered : f.start ≤ f.current
  start_ok : source.IsBoundary f.start
  current_ok : source.IsBoundary f.current

/-- How many rounds of a repetition an event tells of. -/
def Event.rounds? : Event → Option Nat
  | .beforeChild _ round | .afterChild _ round _ => some round
  | .afterClear _ rounds | .exit _ rounds _ => some rounds
  | .enter .. | .beforeClear _ | .beforePop _ | .afterPop _ | .emitted .. => none

namespace Session

/-- The record tells of no more rounds of a repetition than there are bytes. -/
def Tallied (s : Session) : Prop :=
  ∀ e ∈ s.events.toList, ∀ n ∈ e.rounds?, n ≤ s.scanner.source.size

/-- A session whose parts agree with one another. -/
structure Sound (g : Grammar) (s : Session) : Prop where
  synced : s.scanner.position = s.position
  active : s.active.Fits s.scanner.source
  outer : ∀ f ∈ s.outer, f.Fits s.scanner.source
  unmarked : s.scanner.marks = []
  memo : s.memo.Coherent g.rules s.scanner.source

/-- What work inside the active frame leaves alone, and what it only lets grow. -/
structure Onward (s s' : Session) : Prop where
  source : s'.scanner.source = s.scanner.source
  settings : s'.settings = s.settings
  outer : s'.outer = s.outer
  limit : s'.guard.limit = s.guard.limit
  depth : s'.guard.depth = s.guard.depth
  steps : s.steps ≤ s'.steps
  start : s.active.start ≤ s'.active.start
  current : s.position ≤ s'.position
  tallied : s.Tallied → s'.Tallied

/-- Work that goes on and emits: the tokens that it adds tile the text from the old beginning of
the uncovered text to the new one, and each reaches up to the old position at least. -/
structure Covers (s s' : Session) : Prop extends Onward s s' where
  tokens : ∃ new, s'.active.tokens.toList = s.active.tokens.toList ++ new ∧
    Tiles s.scanner.source s.active.start new s'.active.start ∧
    ∀ t ∈ new, s.position ≤ t.span.stop

/-- The active frame has the same tokens and uncovered text from the same place on. -/
structure SameFrame (s s' : Session) : Prop where
  start : s'.active.start = s.active.start
  tokens : s'.active.tokens = s.active.tokens

variable {g : Grammar} {s t u : Session} {α β : Type}

theorem atEnd_of_bytesLeft (h : s.scanner.bytesLeft = 0) : s.atEnd = true := by
  have hle : s.scanner.source.size ≤ s.scanner.position := Nat.sub_eq_zero_iff_le.1 h
  exact decide_eq_true hle

theorem Tallied.note {event : Event} (h : s.Tallied)
    (hevent : ∀ n ∈ event.rounds?, n ≤ s.scanner.source.size) :
    { s with events := s.events.push event }.Tallied := by
  intro e he
  rcases List.mem_append.1 (Array.toList_push ▸ he) with he | he
  · exact h e he
  · obtain rfl := List.mem_singleton.1 he
    exact hevent

theorem Onward.refl (s : Session) : Onward s s :=
  ⟨rfl, rfl, rfl, rfl, rfl, Nat.le_refl _, Nat.le_refl _, Nat.le_refl _, id⟩

theorem Onward.trans (h : Onward s t) (h' : Onward t u) : Onward s u where
  source := h'.source.trans h.source
  settings := h'.settings.trans h.settings
  outer := h'.outer.trans h.outer
  limit := h'.limit.trans h.limit
  depth := h'.depth.trans h.depth
  steps := Nat.le_trans h.steps h'.steps
  start := Nat.le_trans h.start h'.start
  current := Nat.le_trans h.current h'.current
  tallied := h'.tallied ∘ h.tallied

/-- Work that emits nothing. -/
theorem Covers.of_sameFrame (h : Onward s t) (hframe : SameFrame s t) : Covers s t where
  toOnward := h
  tokens := ⟨[], by rw [hframe.tokens, List.append_nil], hframe.start.symm, nofun⟩

theorem Covers.refl (s : Session) : Covers s s := .of_sameFrame (.refl s) ⟨rfl, rfl⟩

theorem Covers.trans (h : Covers s t) (h' : Covers t u) : Covers s u where
  toOnward := h.toOnward.trans h'.toOnward
  tokens := by
    obtain ⟨new, hnew, htiles, hreach⟩ := h.tokens
    obtain ⟨new', hnew', htiles', hreach'⟩ := h'.tokens
    rw [h.source] at htiles'
    refine ⟨new ++ new', by rw [hnew', hnew, List.append_assoc], htiles.append htiles', ?_⟩
    intro u hu
    rcases List.mem_append.1 hu with hu | hu
    · exact hreach u hu
    · exact Nat.le_trans h.current (hreach' u hu)

theorem SameFrame.trans (h : SameFrame s t) (h' : SameFrame t u) : SameFrame s u :=
  ⟨h'.start.trans h.start, h'.tokens.trans h.tokens⟩

/-- Whatever moves forward leaves fewer bytes. -/
theorem bytesLeft_lt_of_lt (hs : Sound g s) (ht : Sound g t)
    (hsource : t.scanner.source = s.scanner.source) (hlt : s.position < t.position) :
    t.scanner.bytesLeft < s.scanner.bytesLeft := by
  have hle : t.position ≤ t.scanner.source.size := ht.active.current_ok.le_size
  unfold Scanner.bytesLeft
  rw [hs.synced, ht.synced, ← hsource]
  omega

theorem bytesLeft_le_of_lt {n : Nat} (hs : Sound g s) (ht : Sound g t)
    (hsource : t.scanner.source = s.scanner.source) (hlt : s.position < t.position)
    (h : s.scanner.bytesLeft ≤ n + 1) : t.scanner.bytesLeft ≤ n :=
  Nat.le_of_lt_succ (Nat.lt_of_lt_of_le (bytesLeft_lt_of_lt hs ht hsource hlt) h)

/-- An attempt in a sound session: it leaves a sound one, covers text, and breaks no promise. -/
structure Works (g : Grammar) (s : Session) (answer : Except (Stop ScanError) α) (s' : Session) :
    Prop where
  sound : Sound g s'
  covers : Covers s s'
  faultless : ∀ f, answer ≠ .error (.fault f)

/-- A scan of a state. One that does not match emits nothing, and if repetitions go back it stays
where it was. -/
structure Scanned (g : Grammar) (s : Session) (answer : Except (Stop ScanError) Bool)
    (s' : Session) : Prop extends Works g s answer s' where
  sameFrame : answer = .ok false → SameFrame s s'
  unmoved : answer = .ok false → s.settings.shortfall = .rewind → s'.position = s.position

/-- Work that succeeds at once. -/
theorem Works.pure (hs : Sound g s) (a : α) : Works g s (.ok a) s := ⟨hs, .refl s, by simp⟩

theorem Works.trans {answer : Except (Stop ScanError) α} (h : Covers s t)
    (h' : Works g t answer u) : Works g s answer u :=
  ⟨h'.sound, h.trans h'.covers, h'.faultless⟩

/-- A stop stays the same stop for whatever was to come of it. -/
theorem Works.stop {e : Stop ScanError} (h : Works g s (.error e : Except _ α) t) :
    Works g s (.error e : Except _ β) t :=
  ⟨h.sound, h.covers, fun f hf => h.faultless f (by rw [Except.error.inj hf])⟩

theorem Works.scanned {e : Stop ScanError} (h : Works g s (.error e : Except _ α) t) :
    Scanned g s (.error e) t where
  toWorks := h.stop
  sameFrame := nofun
  unmoved := nofun

/-- An error of the scan, which comes up before anything is done. -/
theorem Works.fail (hs : Sound g s) (e : ScanError) :
    Works g s (.error (.error e) : Except _ α) s := ⟨hs, .refl s, by simp⟩

theorem Scanned.trans {answer : Except (Stop ScanError) Bool} (h : Scanned g s (.ok false) t)
    (h' : Scanned g t answer u) : Scanned g s answer u where
  toWorks := .trans h.covers h'.toWorks
  sameFrame := fun hf => (h.sameFrame rfl).trans (h'.sameFrame hf)
  unmoved := fun hf hrewind => by
    rw [h'.unmoved hf (by rwa [h.covers.settings]), h.unmoved rfl hrewind]

/-- A match, by work that did not have to stay where it was. -/
theorem Works.matched (h : Works g s (.ok ⟨⟩ : Except _ Unit) t) : Scanned g s (.ok true) t where
  sound := h.sound
  covers := h.covers
  faultless := by simp
  sameFrame := nofun
  unmoved := nofun

end Session

end Lexigraph
