/-
# Lexigraph.Proofs.Session.Alike -- two scans side by side

Two sessions are alike when they stand at the same place of one source with the same limits
and counters, and when their frames and events differ in the names of states and tokens at
most. A `Correspondence` says which states and which tokens stand for one another, and what
the two memos have to do with each other.

A correspondence fits two grammars when corresponding states are made alike out of
corresponding ones. Scans of corresponding states then answer the same and leave sessions
that are alike, also when they fail (`scanNested_sim`, `run_sim`). Which grammars, which
memos and which names makes no difference to this.
-/

import Mathlib.Data.List.Forall2
import Lexigraph.Proofs.Attempt
import Lexigraph.Proofs.Graph.Reach
import Lexigraph.Session.Scan

namespace Lexigraph

open Attempt (Sim SameAnswer)

/-- Which states and which tokens of two sessions stand for one another, and how the memos and
the counts of comparisons have to be related. -/
structure Correspondence where
  state : StateId → StateId → Prop
  token : TokenId → TokenId → Prop
  record : Memo → Nat → Memo → Nat → Prop

/-! ## Alike -/

/-- Tokens of corresponding categories with the same span. -/
structure Token.Alike (c : Correspondence) (t t' : Token) : Prop where
  id : c.token t.id t'.id
  span : t.span = t'.span

/-- Frames that differ in the categories of their tokens at most. -/
structure Frame.Alike (c : Correspondence) (f f' : Frame) : Prop where
  start : f.start = f'.start
  current : f.current = f'.current
  tokens : List.Forall₂ (Token.Alike c) f.tokens.toList f'.tokens.toList

/-- The same event of corresponding states. -/
inductive Event.Alike (c : Correspondence) : Event → Event → Prop
  | enter {i j : StateId} (h : c.state i j) (min : UInt32) (max : Option UInt32) :
      Alike c (.enter i min max) (.enter j min max)
  | beforeChild {i j : StateId} (h : c.state i j) (round : Nat) :
      Alike c (.beforeChild i round) (.beforeChild j round)
  | afterChild {i j : StateId} (h : c.state i j) (round produced : Nat) :
      Alike c (.afterChild i round produced) (.afterChild j round produced)
  | beforeClear {i j : StateId} (h : c.state i j) : Alike c (.beforeClear i) (.beforeClear j)
  | afterClear {i j : StateId} (h : c.state i j) (rounds : Nat) :
      Alike c (.afterClear i rounds) (.afterClear j rounds)
  | beforePop {i j : StateId} (h : c.state i j) : Alike c (.beforePop i) (.beforePop j)
  | afterPop {i j : StateId} (h : c.state i j) : Alike c (.afterPop i) (.afterPop j)
  | exit {i j : StateId} (h : c.state i j) (rounds : Nat) (satisfied : Bool) :
      Alike c (.exit i rounds satisfied) (.exit j rounds satisfied)
  | emitted {i j : StateId} (h : c.state i j) {t t' : Token} (ht : t.Alike c t') :
      Alike c (.emitted i t) (.emitted j t')

/-- Sessions on `source` that differ in names and in what they remember at most. -/
structure Session.Alike (c : Correspondence) (source : Source) (s t : Session) : Prop where
  source_left : s.scanner.source = source
  source_right : t.scanner.source = source
  position : s.scanner.position = t.scanner.position
  marks : s.scanner.marks = t.scanner.marks
  settings : s.settings = t.settings
  active : s.active.Alike c t.active
  outer : List.Forall₂ (Frame.Alike c) s.outer t.outer
  guard : s.guard = t.guard
  steps : s.steps = t.steps
  furthest : s.furthest = t.furthest
  events : List.Forall₂ (Event.Alike c) s.events.toList t.events.toList
  record : c.record s.memo s.scanner.comparisons t.memo t.scanner.comparisons

variable {c : Correspondence} {source : Source}

theorem Frame.Alike.size_eq {f f' : Frame} (h : f.Alike c f') :
    f.tokens.size = f'.tokens.size := by
  rw [← Array.length_toList, ← Array.length_toList]
  exact h.tokens.length_eq

/-! ## The same but for the names of states -/

/-- The same event of a state with another number. -/
def Event.rename (f : StateId → StateId) : Event → Event
  | .enter state min max => .enter (f state) min max
  | .beforeChild state round => .beforeChild (f state) round
  | .afterChild state round produced => .afterChild (f state) round produced
  | .beforeClear state => .beforeClear (f state)
  | .afterClear state rounds => .afterClear (f state) rounds
  | .beforePop state => .beforePop (f state)
  | .afterPop state => .afterPop (f state)
  | .exit state rounds satisfied => .exit (f state) rounds satisfied
  | .emitted state token => .emitted (f state) token

theorem Event.rename_id (e : Event) : e.rename id = e := by
  cases e <;> rfl

theorem eq_of_forall₂ {α : Type} {rel : α → α → Prop} (hrel : ∀ a b, rel a b → a = b)
    {l l' : List α} (h : List.Forall₂ rel l l') : l = l' := by
  rw [← List.forall₂_eq_eq_eq]
  exact h.imp hrel

/-- Alike tokens are the same if categories are not renamed. -/
theorem Token.Alike.eq {t t' : Token} (h : t.Alike c t') (htoken : c.token = Eq) : t = t' := by
  rcases t with ⟨id, span⟩
  rcases t' with ⟨id', span'⟩
  have hid : c.token id id' := h.id
  rw [htoken] at hid
  rw [hid, show span = span' from h.span]

theorem Frame.Alike.eq {f f' : Frame} (h : f.Alike c f') (htoken : c.token = Eq) : f = f' := by
  rcases f with ⟨start, current, tokens⟩
  rcases f' with ⟨start', current', tokens'⟩
  obtain ⟨rfl, rfl, htokens⟩ := h
  have heq := Array.toList_inj.1 (eq_of_forall₂ (fun _ _ ht => ht.eq htoken) htokens)
  simp only at heq
  rw [heq]

/-- Alike events are the same but for their states if categories are not renamed. -/
theorem Event.Alike.rename_eq {f : StateId → StateId} {e e' : Event} (h : e.Alike c e')
    (htoken : c.token = Eq) (hstate : ∀ i j, c.state i j → f i = j) : e.rename f = e' := by
  cases h with
  | emitted h ht =>
    rw [← ht.eq htoken, ← hstate _ _ h]
    rfl
  | enter h | beforeChild h | afterChild h | beforeClear h | afterClear h | beforePop h
  | afterPop h | exit h =>
    rw [← hstate _ _ h]
    rfl

namespace Session

theorem Alike.atEnd {s t : Session} (h : s.Alike c source t) : s.atEnd = t.atEnd := by
  unfold Session.atEnd Scanner.atEnd
  rw [h.source_left, h.source_right, h.position]

theorem Alike.current {s t : Session} (h : s.Alike c source t) : s.position = t.position :=
  h.active.current

/-- Alike sessions have the same events but for the states, if categories are not renamed. -/
theorem Alike.events_eq {f : StateId → StateId} {s t : Session} (h : s.Alike c source t)
    (htoken : c.token = Eq) (hstate : ∀ i j, c.state i j → f i = j) :
    t.events = s.events.map (Event.rename f) := by
  have hevents : List.Forall₂ (fun e e' => e.rename f = e') s.events.toList t.events.toList :=
    h.events.imp fun e e' he => he.rename_eq htoken hstate
  rw [← Array.toList_inj, Array.toList_map]
  exact (eq_of_forall₂ (fun _ _ he => he) (List.forall₂_map_left_iff.2 hevents)).symm

theorem Alike.bytesLeft {s t : Session} (h : s.Alike c source t) :
    s.scanner.bytesLeft = t.scanner.bytesLeft := by
  unfold Scanner.bytesLeft
  rw [h.source_left, h.source_right, h.position]

/-- Fresh sessions on one source are alike, if their memos are related as they have to be. -/
theorem start_alike (source : String) (settings : Settings) {memo memo' : Memo}
    (hrecord : c.record memo 0 memo' 0) :
    Alike c (.ofString source) (.start source settings memo) (.start source settings memo') where
  source_left := rfl
  source_right := rfl
  position := rfl
  marks := rfl
  settings := rfl
  active := ⟨rfl, rfl, .nil⟩
  outer := .nil
  guard := rfl
  steps := rfl
  furthest := rfl
  events := .nil
  record := hrecord

/-! ## The steps of a scan -/

theorem note_sim {e e' : Event} (h : e.Alike c e') :
    Sim (Alike c source) Eq (note e) (note e') := by
  refine Sim.modify fun s t hst => { hst with events := ?_ }
  rw [Array.toList_push, Array.toList_push]
  exact List.rel_append hst.events (.cons h .nil)

theorem push_sim : Sim (Alike c source) Eq push push := by
  refine Sim.modify fun s t hst =>
    { hst with active := ⟨hst.current, hst.current, .nil⟩, outer := .cons hst.active hst.outer }

theorem pop_sim (publish : Bool) : Sim (Alike c source) Eq (pop publish) (pop publish) := by
  refine Sim.get_bind fun s t hst => ?_
  have houter := hst.outer
  revert houter
  rcases s.outer with _ | ⟨parent, outer⟩ <;> rcases t.outer with _ | ⟨parent', outer'⟩ <;>
    intro houter
  · exact Sim.throw _
  · nomatch houter
  · nomatch houter
  · obtain ⟨hparent, houter⟩ := List.forall₂_cons.1 houter
    refine Sim.modify fun s t hst => { hst with active := ?_, outer := houter }
    refine ⟨hparent.start, hst.active.current, ?_⟩
    cases publish with
    | false => exact hparent.tokens
    | true =>
      simp only [if_true, Array.toList_append]
      exact List.rel_append hparent.tokens hst.active.tokens

theorem orDrop_sim {α : Type} {body body' : Scanning α} (h : Sim (Alike c source) Eq body body') :
    Sim (Alike c source) Eq (orDrop body) (orDrop body') := by
  intro s t hst
  obtain ⟨hanswer, hst'⟩ := h s t hst
  unfold orDrop
  revert hanswer hst'
  rcases body s with ⟨answer, s'⟩
  rcases body' t with ⟨answer', t'⟩
  intro hanswer hst'
  cases hanswer with
  | ok h => exact ⟨.ok h, hst'⟩
  | error e => exact Sim.bind (pop_sim false) (fun _ _ _ => Sim.throw e) s' t' hst'

theorem emit_sim {i j : StateId} {a b : TokenId} (hstate : c.state i j) (htoken : c.token a b) :
    Sim (Alike c source) Eq (emit i a) (emit j b) := by
  refine Sim.modify fun s t hst => ?_
  have hstart := hst.active.start
  have hcurrent := hst.active.current
  -- either both have text pending or neither has, since the frames begin and end alike
  by_cases h : s.active.start < s.active.current
  · have h' : t.active.start < t.active.current := by rwa [← hstart, ← hcurrent]
    have hnew : Token.Alike c ⟨a, s.active.pending⟩ ⟨b, t.active.pending⟩ :=
      ⟨htoken, by rw [Frame.pending, Frame.pending, hstart, hcurrent]⟩
    rw [if_pos h, if_pos h']
    refine { hst with active := ⟨hcurrent, hcurrent, ?_⟩, events := ?_ }
    · rw [Array.toList_push, Array.toList_push]
      exact List.rel_append hst.active.tokens (.cons hnew .nil)
    · rw [Array.toList_push, Array.toList_push]
      exact List.rel_append hst.events (.cons (.emitted hstate hnew) .nil)
  · have h' : ¬ t.active.start < t.active.current := by rwa [← hstart, ← hcurrent]
    rw [if_neg h, if_neg h']
    exact hst

/-- A move that the scanner makes moves the frame too, and a fault changes nothing. -/
theorem moveTo_apply (position : Nat) (s : Session) :
    moveTo position s = match s.scanner.moveTo position with
      | .ok scanner => (.ok ⟨⟩, { s with scanner, active := { s.active with current := position } })
      | .error f => (.error (.fault f), s) := by
  show (Action.ofChecked (s.scanner.moveTo position) >>= _ : Scanning PUnit) s = _
  cases s.scanner.moveTo position <;> rfl

theorem moveTo_sim (position : Nat) :
    Sim (Alike c source) Eq (moveTo position) (moveTo position) := by
  intro s t hst
  have hsize : t.scanner.source.size = s.scanner.source.size := by
    rw [hst.source_left, hst.source_right]
  have hboundary : t.scanner.source.IsBoundary position ↔ s.scanner.source.IsBoundary position := by
    rw [hst.source_left, hst.source_right]
  rw [moveTo_apply, moveTo_apply]
  unfold Scanner.moveTo
  rw [hsize]
  by_cases hout : s.scanner.source.size < position
  · rw [if_pos hout, if_pos hout]
    exact ⟨.error _, hst⟩
  · rw [if_neg hout, if_neg hout]
    by_cases hin : s.scanner.source.IsBoundary position
    · rw [dif_pos hin, dif_pos (hboundary.2 hin)]
      exact ⟨.ok rfl, { hst with
        position := rfl
        active := { hst.active with current := rfl } }⟩
    · rw [dif_neg hin, dif_neg (fun h => hin (hboundary.1 h))]
      exact ⟨.error _, hst⟩

theorem clearTokens_sim : Sim (Alike c source) Eq clearTokens clearTokens :=
  Sim.modify fun _ _ hst => { hst with active := { hst.active with tokens := .nil } }

theorem noteFailure_sim (position : Nat) :
    Sim (Alike c source) Eq (noteFailure position) (noteFailure position) :=
  Sim.modify fun _ _ hst => { hst with furthest := by rw [hst.furthest] }

/-! ## Going on and the kinds of states -/

section Visit

variable {names : StateId → StateId → Prop} {scan scan' : StateId → Scanning Bool}

/-- Scans of states that `names` relates answer alike. -/
def ScansAlike (c : Correspondence) (source : Source) (names : StateId → StateId → Prop)
    (scan scan' : StateId → Scanning Bool) : Prop :=
  ∀ i j, names i j → Sim (Alike c source) Eq (scan i) (scan' j)

theorem firstOf_sim (hscan : ScansAlike c source names scan scan') {ids ids' : List StateId}
    (h : List.Forall₂ names ids ids') :
    Sim (Alike c source) Eq (firstOf scan ids) (firstOf scan' ids') := by
  induction h with
  | nil => exact Sim.pure rfl
  | cons hid _ ih =>
    refine Sim.bind (hscan _ _ hid) ?_
    rintro found _ rfl
    cases found with
    | true => exact Sim.pure rfl
    | false => exact ih

theorem goOn_sim (hscan : ScansAlike c source names scan scan') {n m : Node}
    (h : List.Forall₂ names n.branches m.branches) :
    Sim (Alike c source) Eq (goOn scan n) (goOn scan' m) := by
  refine Sim.get_bind fun s t hst => ?_
  rw [hst.atEnd]
  by_cases hend : t.atEnd = true
  · rw [if_pos hend, if_pos hend]
    exact Sim.pure rfl
  · rw [if_neg hend, if_neg hend]
    exact Sim.bind (firstOf_sim hscan h) fun _ _ _ => Sim.pure rfl

theorem emitOwn_sim {i j : StateId} {a b : Option TokenId} (hstate : c.state i j)
    (htoken : Option.Rel c.token a b) :
    Sim (Alike c source) Eq (emitOwn i a) (emitOwn j b) := by
  cases htoken with
  | none => exact Sim.pure rfl
  | some h => exact emit_sim hstate h

variable {i j k l : StateId}

theorem oneRound_sim (hscan : ScansAlike c source names scan scan') (hstate : c.state i j)
    (hchild : names k l) (max : Option UInt32) (done : Nat) :
    Sim (Alike c source) Eq (oneRound scan i k max done) (oneRound scan' j l max done) := by
  refine Sim.get_bind fun s t hst => ?_
  rw [hst.atEnd]
  by_cases hover : (max.any (·.toNat ≤ done) || t.atEnd) = true
  · rw [if_pos hover, if_pos hover]
    exact Sim.pure rfl
  · rw [if_neg hover, if_neg hover]
    refine Sim.get_bind fun s t hst => ?_
    rw [hst.current]
    -- the position before the round is looked at again after it, so both sides must agree on it
    refine Sim.bind (note_sim (.beforeChild hstate done)) fun _ _ _ => ?_
    refine Sim.bind (orDrop_sim (hscan _ _ hchild)) fun _ _ _ => ?_
    refine Sim.get_bind fun s' t' hst' => ?_
    rw [hst'.active.size_eq]
    refine Sim.bind (note_sim (.afterChild hstate done _)) fun _ _ _ => ?_
    refine Sim.get_bind fun s'' t'' hst'' => ?_
    rw [hst''.current]
    by_cases hlast : (decide (t'.active.tokens.size = 0) ||
        decide (t''.position ≤ t.position)) = true
    · rw [if_pos hlast, if_pos hlast]
      exact Sim.pure rfl
    · rw [if_neg hlast, if_neg hlast]
      refine Sim.bind (note_sim (.beforeClear hstate)) fun _ _ _ => ?_
      refine Sim.bind clearTokens_sim fun _ _ _ => ?_
      exact Sim.bind (note_sim (.afterClear hstate (done + 1))) fun _ _ _ => Sim.pure rfl

theorem rounds_sim (hscan : ScansAlike c source names scan scan') (hstate : c.state i j)
    (hchild : names k l) (max : Option UInt32) (fuel done : Nat) :
    Sim (Alike c source) Eq (rounds scan i k max fuel done) (rounds scan' j l max fuel done) := by
  induction fuel generalizing done with
  | zero => exact Sim.pure rfl
  | succ fuel ih =>
    refine Sim.bind (oneRound_sim hscan hstate hchild max done) ?_
    rintro counts _ rfl
    cases counts with
    | false => exact Sim.pure rfl
    | true => exact ih (done + 1)

theorem runRounds_sim (hscan : ScansAlike c source names scan scan') (hstate : c.state i j)
    (hchild : names k l) (max : Option UInt32) :
    Sim (Alike c source) Eq (runRounds scan i k max) (runRounds scan' j l max) := by
  refine Sim.bind push_sim fun _ _ _ => ?_
  refine Sim.get_bind fun s t hst => ?_
  rw [hst.bytesLeft]
  refine Sim.bind (rounds_sim hscan hstate hchild max _ 0) ?_
  rintro counted _ rfl
  refine Sim.bind (note_sim (.beforePop hstate)) fun _ _ _ => ?_
  refine Sim.bind (pop_sim false) fun _ _ _ => ?_
  refine Sim.bind (note_sim (.afterPop hstate)) fun _ _ _ => ?_
  exact Sim.pure rfl

theorem fallBack_sim (entry : Nat) :
    Sim (Alike c source) Eq (fallBack entry) (fallBack entry) := by
  refine Sim.get_bind fun s t hst => ?_
  rw [hst.settings]
  by_cases h : t.settings.shortfall = .rewind
  · rw [if_pos h]
    exact moveTo_sim entry
  · rw [if_neg h]
    exact Sim.pure rfl

theorem conclude_sim (hscan : ScansAlike c source names scan scan') (hstate : c.state i j) {n m : Node}
    (htoken : Option.Rel c.token n.token m.token)
    (hbranches : List.Forall₂ names n.branches m.branches) (entry : Nat) (satisfied : Bool) :
    Sim (Alike c source) Eq (conclude scan i n entry satisfied)
      (conclude scan' j m entry satisfied) := by
  cases satisfied with
  | true =>
    exact Sim.bind (emitOwn_sim hstate htoken) fun _ _ _ => goOn_sim hscan hbranches
  | false => exact fallBack_sim entry

theorem scanRepetition_sim (hscan : ScansAlike c source names scan scan') (hstate : c.state i j)
    (hchild : names k l) {n m : Node} (htoken : Option.Rel c.token n.token m.token)
    (hbranches : List.Forall₂ names n.branches m.branches) (min : UInt32)
    (max : Option UInt32) :
    Sim (Alike c source) Eq (scanRepetition scan i n k min max)
      (scanRepetition scan' j m l min max) := by
  refine Sim.bind (note_sim (.enter hstate min max)) fun _ _ _ => ?_
  refine Sim.get_bind fun s t hst => ?_
  rw [hst.current]
  refine Sim.bind (runRounds_sim hscan hstate hchild max) ?_
  rintro counted _ rfl
  refine Sim.bind (note_sim (.exit hstate counted _)) fun _ _ _ => ?_
  refine Sim.bind (conclude_sim hscan hstate htoken hbranches _ _) fun _ _ _ => ?_
  exact Sim.pure rfl

theorem scanChoice_sim (hscan : ScansAlike c source names scan scan') (hstate : c.state i j)
    {n m : Node} (htoken : Option.Rel c.token n.token m.token)
    (hbranches : List.Forall₂ names n.branches m.branches) :
    Sim (Alike c source) Eq (scanChoice scan i n) (scanChoice scan' j m) := by
  refine Sim.bind (firstOf_sim hscan hbranches) ?_
  rintro found _ rfl
  cases found with
  | false => exact Sim.pure rfl
  | true => exact Sim.bind (emitOwn_sim hstate htoken) fun _ _ _ => Sim.pure rfl

end Visit

/-! ## Grammars that correspond -/

/-- Rules whose matches stand for corresponding tokens and whose evaluations, under their own
numbers, come out alike. A token of the state itself goes before that of the rule. -/
structure RuleAlike (c : Correspondence) (source : Source) (id id' : RuleId)
    (own own' : Option TokenId) (rule rule' : Rule) : Prop where
  token : c.token (own.getD rule.token) (own'.getD rule'.token)
  evaluate : Sim (Alike c source) Eq (evaluate rule id) (evaluate rule' id')

/-- States made alike out of states that `names` relates. -/
inductive NodeAlike (c : Correspondence) (source : Source) (names : StateId → StateId → Prop)
    (g h : Grammar) : Node → Node → Prop
  | terminal {id id' : RuleId} {own own' : Option TokenId} {a a' : Annotations}
      {ids ids' : List StateId}
      (rule : SameAnswer (RuleAlike c source id id' own own') (g.rules.get id) (h.rules.get id'))
      (branches : List.Forall₂ names ids ids') :
      NodeAlike c source names g h ⟨.terminal id, own, a, ids⟩ ⟨.terminal id', own', a', ids'⟩
  | repetition {child child' : StateId} {min : UInt32} {max : Option UInt32}
      {own own' : Option TokenId} {a a' : Annotations} {ids ids' : List StateId}
      (hchild : names child child') (token : Option.Rel c.token own own')
      (branches : List.Forall₂ names ids ids') :
      NodeAlike c source names g h ⟨.repetition child min max, own, a, ids⟩
        ⟨.repetition child' min max, own', a', ids'⟩
  | choice {own own' : Option TokenId} {a a' : Annotations} {ids ids' : List StateId}
      (token : Option.Rel c.token own own') (branches : List.Forall₂ names ids ids') :
      NodeAlike c source names g h ⟨.choice, own, a, ids⟩ ⟨.choice, own', a', ids'⟩

/-- Corresponding states are made alike, or neither is there. -/
def Fits (c : Correspondence) (source : Source) (g h : Grammar) : Prop :=
  ∀ i j, c.state i j →
    SameAnswer (NodeAlike c source c.state g h) (g.graph.node i) (h.graph.node j)

section Scans

variable {names : StateId → StateId → Prop} {g h : Grammar} {i j : StateId}

theorem checkSynced_sim : Sim (Alike c source) Eq checkSynced checkSynced := by
  refine Sim.get_bind fun s t hst => ?_
  rw [hst.position, hst.current]
  by_cases hsync : t.scanner.position = t.position
  · rw [if_pos hsync]
    exact Sim.pure rfl
  · rw [if_neg hsync]
    exact Sim.throw _

theorem ofResult_sim {α β : Type} {rel : α → β → Prop} {x : Except GrammarError α}
    {y : Except GrammarError β} (hxy : SameAnswer rel x y) :
    Sim (Alike c source) rel (Action.ofResult (x.mapError .grammar) : Scanning α)
      (Action.ofResult (y.mapError .grammar) : Scanning β) := by
  cases hxy with
  | ok h => exact Sim.pure h
  | error e => exact Sim.throw _

section Kinds

variable {scan scan' : StateId → Scanning Bool}

theorem scanTerminal_sim (hscan : ScansAlike c source names scan scan') (hstate : c.state i j)
    {n m : Node} {id id' : RuleId}
    (hrule : SameAnswer (RuleAlike c source id id' n.token m.token) (g.rules.get id)
      (h.rules.get id'))
    (hbranches : List.Forall₂ names n.branches m.branches) :
    Sim (Alike c source) Eq (scanTerminal g scan i n id) (scanTerminal h scan' j m id') := by
  refine Sim.bind (ofResult_sim hrule) fun rule rule' hrule => ?_
  refine Sim.bind checkSynced_sim fun _ _ _ => ?_
  refine Sim.bind hrule.evaluate ?_
  rintro result _ rfl
  cases result with
  | success span =>
    have hmove : Sim (Alike c source) Eq
        (modify fun s => { s with active := { s.active with current := span.stop } } :
          Scanning PUnit)
        (modify fun s => { s with active := { s.active with current := span.stop } }) :=
      Sim.modify fun s t hst => { hst with active := { hst.active with current := rfl } }
    refine Sim.bind hmove fun _ _ _ => ?_
    refine Sim.bind (emit_sim hstate hrule.token) fun _ _ _ => ?_
    refine Sim.bind (goOn_sim hscan hbranches) fun _ _ _ => ?_
    exact Sim.pure rfl
  | failure position =>
    refine Sim.bind (noteFailure_sim position) fun _ _ _ => ?_
    exact Sim.pure rfl

theorem visit_sim (hscan : ScansAlike c source names scan scan') (hstate : c.state i j)
    (hnode : SameAnswer (NodeAlike c source names g h) (g.graph.node i) (h.graph.node j)) :
    Sim (Alike c source) Eq (visit g scan i) (visit h scan' j) := by
  refine Sim.bind (ofResult_sim hnode) fun n m hnode => ?_
  cases hnode with
  | terminal rule branches => exact scanTerminal_sim hscan hstate rule branches
  | repetition hchild token branches =>
    exact scanRepetition_sim hscan hstate hchild token branches _ _
  | choice token branches => exact scanChoice_sim hscan hstate token branches

end Kinds

/-! ## Scans and runs -/

theorem step_sim : Sim (Alike c source) Eq step step := by
  have hcount : Sim (Alike c source) Eq
      (modify fun s => { s with steps := s.steps + 1 } : Scanning PUnit)
      (modify fun s => { s with steps := s.steps + 1 } : Scanning PUnit) :=
    Sim.modify fun s t hst => { hst with steps := by rw [hst.steps] }
  refine Sim.bind hcount fun _ _ _ => ?_
  refine Sim.get_bind fun s t hst => ?_
  rw [hst.settings, hst.steps]
  cases t.settings.maxSteps with
  | none => exact Sim.pure rfl
  | some limit =>
    by_cases hlimit : limit < t.steps
    · simp only [hlimit, if_true]
      exact Sim.throw _
    · simp only [hlimit, if_false]
      exact Sim.pure rfl

theorem nested_sim {α : Type} {refused : DepthExceeded → ScanError} {body body' : Scanning α}
    (hbody : Sim (Alike c source) Eq body body') :
    Sim (Alike c source) Eq (nested refused body) (nested refused body') := by
  intro s t hst
  unfold nested
  have hguard : Guarded.guard s = Guarded.guard t := hst.guard
  rw [hguard]
  cases (Guarded.guard t).enter with
  | error e => exact ⟨.error _, hst⟩
  | ok inner =>
    have hinner : Alike c source (Guarded.withGuard s inner) (Guarded.withGuard t inner) :=
      { hst with guard := rfl }
    -- the body runs one level deeper, and the guards agree on how to come back up
    obtain ⟨hanswer, hst'⟩ := hbody _ _ hinner
    simp only
    revert hanswer hst'
    rcases body (Guarded.withGuard s inner) with ⟨answer, s'⟩
    rcases body' (Guarded.withGuard t inner) with ⟨answer', t'⟩
    intro hanswer hst'
    have hguard' : Guarded.guard s' = Guarded.guard t' := hst'.guard
    simp only [hguard']
    cases (Guarded.guard t').exit with
    | error f => exact ⟨.error _, hst'⟩
    | ok outer => exact ⟨hanswer, { hst' with guard := rfl }⟩

theorem scanNested_sim (fits : Fits c source g h) (fuel : Nat) :
    ScansAlike c source c.state (scanNested g fuel) (scanNested h fuel) := by
  induction fuel with
  | zero => exact fun _ _ _ => Sim.throw _
  | succ fuel ih =>
    intro i j hstate
    exact Sim.bind step_sim fun _ _ _ => nested_sim (visit_sim ih hstate (fits i j hstate))

/-- Below a state, what states name can be told by how far down they are. -/
theorem NodeAlike.within {n : Nat} {node node' : Node}
    (hnode : NodeAlike c source c.state g h node node')
    (hwithin : ∀ k ∈ node.successors, g.graph.Within n k) :
    NodeAlike c source (fun k l => c.state k l ∧ g.graph.Within n k) g h node node' := by
  have hall : ∀ {ids ids' : List StateId}, List.Forall₂ c.state ids ids' →
      (∀ k ∈ ids, g.graph.Within n k) →
      List.Forall₂ (fun k l => c.state k l ∧ g.graph.Within n k) ids ids' := by
    intro ids ids' hids hbelow
    induction hids with
    | nil => exact .nil
    | cons hid _ ih =>
      rw [List.forall_mem_cons] at hbelow
      exact .cons ⟨hid, hbelow.1⟩ (ih hbelow.2)
  cases hnode with
  | terminal rule branches => exact .terminal rule (hall branches hwithin)
  | repetition hchild token branches =>
    rw [show Node.successors _ = _ :: _ from rfl, List.forall_mem_cons] at hwithin
    exact .repetition ⟨hchild, hwithin.1⟩ token (hall branches hwithin.2)
  | choice token branches => exact .choice token (hall branches hwithin)

/-- Where chains of names are short, scans are alike whatever the bounds for their nesting, if
these are not shorter. -/
theorem scanNested_sim_of_within (fits : Fits c source g h) {n fuel fuel' : Nat} (hfuel : n ≤ fuel)
    (hfuel' : n ≤ fuel') :
    ScansAlike c source (fun i j => c.state i j ∧ g.graph.Within n i) (scanNested g fuel)
      (scanNested h fuel') := by
  induction n generalizing fuel fuel' with
  | zero => exact fun _ _ hij => hij.2.elim
  | succ n ih =>
    rintro i j ⟨hstate, hwithin⟩
    obtain ⟨fuel, rfl⟩ := Nat.exists_eq_add_of_le' (Nat.zero_lt_of_lt hfuel)
    obtain ⟨fuel', rfl⟩ := Nat.exists_eq_add_of_le' (Nat.zero_lt_of_lt hfuel')
    -- both bounds go down by one, and so does how far chains of names lead
    have hbelow := ih (Nat.le_of_succ_le_succ hfuel) (Nat.le_of_succ_le_succ hfuel')
    refine Sim.bind step_sim fun _ _ _ => nested_sim (visit_sim hbelow hstate ?_)
    refine (fits i j hstate).mono fun node _ hnode hnodes => ?_
    exact hnodes.within (hwithin node (Graph.node_eq_ok_iff.1 hnode))

theorem checkMoved_sim (before : Nat) :
    Sim (Alike c source) Eq (checkMoved before) (checkMoved before) := by
  refine Sim.get_bind fun s t hst => ?_
  rw [hst.current, hst.furthest]
  by_cases hmoved : t.position ≤ before
  · rw [if_pos hmoved]
    exact Sim.throw _
  · rw [if_neg hmoved]
    exact Sim.pure rfl

theorem passes_sim (hscan : Sim (Alike c source) Eq (scan g i) (scan h j)) (fuel : Nat) :
    Sim (Alike c source) Eq (passes g i fuel) (passes h j fuel) := by
  induction fuel with
  | zero => exact Sim.pure rfl
  | succ fuel ih =>
    refine Sim.get_bind fun s t hst => ?_
    rw [hst.atEnd]
    by_cases hend : t.atEnd = true
    · rw [if_pos hend, if_pos hend]
      exact Sim.pure rfl
    · rw [if_neg hend, if_neg hend]
      refine Sim.get_bind fun s t hst => ?_
      rw [hst.current]
      refine Sim.bind hscan fun _ _ _ => ?_
      exact Sim.bind (checkMoved_sim _) fun _ _ _ => ih

theorem checkBalanced_sim : Sim (Alike c source) Eq checkBalanced checkBalanced := by
  have hmarks : Sim (Alike c source) Eq
      (do unless (← get).scanner.marks.isEmpty do Action.abort .unbalancedMarks : Scanning Unit)
      (do unless (← get).scanner.marks.isEmpty do Action.abort .unbalancedMarks) := by
    refine Sim.get_bind fun s t hst => ?_
    rw [hst.marks]
    by_cases hnone : t.scanner.marks.isEmpty = true
    · rw [if_pos hnone]
      exact Sim.pure rfl
    · rw [if_neg hnone]
      exact Sim.throw _
  refine Sim.get_bind fun s t hst => ?_
  have houter : s.outer.isEmpty = t.outer.isEmpty := by
    rw [Bool.eq_iff_iff, List.isEmpty_iff_length_eq_zero, List.isEmpty_iff_length_eq_zero,
      hst.outer.length_eq]
  rw [houter]
  by_cases hroot : t.outer.isEmpty = true
  · rw [if_pos hroot]
    exact hmarks
  · rw [if_neg hroot]
    exact Sim.bind (Sim.throw _ : Sim (Alike c source) Eq _ _) fun _ _ _ => hmarks

theorem run_sim (hscan : Sim (Alike c source) Eq (scan g i) (scan h j)) :
    Sim (Alike c source) Eq (run g i) (run h j) := by
  refine Sim.get_bind fun s t hst => ?_
  rw [hst.bytesLeft]
  exact Sim.bind (passes_sim hscan _) fun _ _ _ => checkBalanced_sim

end Scans

end Session

end Lexigraph
