/-
# Lexigraph.Proofs.Session.Watched -- scans whose loops are watched

A scan has two loops and a recursion: the rounds of a repetition, the passes of a run, and
the nesting of scans. A watched scan gives each of them the same bound, any number, and says
`endless` when the bound is used up anywhere. So a watched scan that is not endless has come
to an end by itself.

Rounds and passes take a byte each, and in a sound session there are no more bytes than the
source has. A bound above the size of the source lasts for all loops, then, and the watched
scan is the scan (`scanWatched_eq`, `runWatched_eq`). What is left is the nesting, which a
limit bounds in any grammar (`halts_of_limit`).
-/

import Lexigraph.Proofs.Session.Limits

namespace Lexigraph.Session

open Attempt (Ensures)

/-! ## Watched loops -/

section Loops

variable (scan : StateId → Scanning Bool)

/-- The rounds of a repetition after the first `done`, of which there may be `bound`. -/
def roundsWatched (id child : StateId) (max : Option UInt32) (bound done : Nat) : Scanning Nat := do
  match bound with
  | 0 => throw .endless
  | bound + 1 =>
    if ← oneRound scan id child max done then roundsWatched id child max bound (done + 1)
    else return done

/-- Runs the rounds of a repetition in a frame of their own. -/
def inOwnFrame (id : StateId) (rounds : Scanning Nat) : Scanning Nat := do
  push
  let counted ← rounds
  note (.beforePop id)
  pop false
  note (.afterPop id)
  return counted

/-- A repetition, whichever way its rounds are run. -/
def repetitionBy (id : StateId) (node : Node) (rounds : Scanning Nat) (min : UInt32)
    (max : Option UInt32) : Scanning Bool := do
  note (.enter id min max)
  let entry := (← get).position
  let counted ← inOwnFrame id rounds
  let satisfied := decide (min.toNat ≤ counted)
  note (.exit id counted satisfied)
  conclude scan id node entry satisfied
  return satisfied

end Loops

section Scans

variable (g : Grammar) (bound : Nat)

/-- Scans a state, with `scan` for the states that it names. -/
def visitWatched (scan : StateId → Scanning Bool) (id : StateId) : Scanning Bool := do
  let node ← Action.ofResult ((g.graph.node id).mapError .grammar)
  match node.kind with
  | .terminal rule => scanTerminal g scan id node rule
  | .repetition child min max =>
    repetitionBy scan id node (roundsWatched scan id child max bound 0) min max
  | .choice => scanChoice scan id node

/-- Scans a state, nested at most so deep and with loops of at most `bound` turns. -/
def scanNestedWatched (nesting : Nat) (id : StateId) : Scanning Bool := do
  match nesting with
  | 0 => throw .endless
  | nesting + 1 =>
    step
    nested (fun e => .depthLimit e.limit) (visitWatched g bound (scanNestedWatched nesting) id)

/-- Scans a state, watched. -/
def scanWatched (id : StateId) : Scanning Bool := scanNestedWatched g bound bound id

/-- The passes of a run, of which there may be that many. -/
def passesWatched (root : StateId) (turns : Nat) : Scanning Unit := do
  match turns with
  | 0 => throw .endless
  | turns + 1 =>
    unless (← get).atEnd do
      let before := (← get).position
      let _ ← scanWatched g bound root
      checkMoved before
      passesWatched root turns

/-- Scans a state again and again until nothing is left, watched. -/
def runWatched (root : StateId) : Scanning Unit := do
  passesWatched g bound root bound
  checkBalanced

end Scans

variable {g : Grammar} {bound : Nat} {s t : Session}

/-! ## The same parts -/

section Visit

variable {scan scan' : StateId → Scanning Bool}

/-- A sound session on a source of fewer bytes than the bound. -/
structure Small (g : Grammar) (bound : Nat) (s : Session) : Prop extends Sound g s where
  size_lt : s.scanner.source.size < bound

theorem Small.onward (hs : Small g bound s) (ht : Sound g t) (h : Onward s t) :
    Small g bound t where
  toSound := ht
  size_lt := h.source ▸ hs.size_lt

theorem Small.bytesLeft_lt (hs : Small g bound s) : s.scanner.bytesLeft < bound :=
  Nat.lt_of_le_of_lt (Nat.sub_le ..) hs.size_lt

/-- The scans are sound, and the watched ones are the same. -/
structure Lasts (g : Grammar) (bound : Nat) (scan scan' : StateId → Scanning Bool) : Prop where
  scans : Scans g scan
  same : ∀ id s, Small g bound s → scan' id s = scan id s

/-- The session after a scan of a state. -/
theorem Lasts.small (h : Lasts g bound scan scan') {id : StateId} {found : Bool}
    (hs : Small g bound s) (hscan : scan id s = (.ok found, t)) : Small g bound t := by
  have ht := (h.scans id s hs.toSound).of_eq hscan
  exact hs.onward ht.sound ht.covers.toOnward

theorem firstOf_lasts (h : Lasts g bound scan scan') (ids : List StateId) (hs : Small g bound s) :
    firstOf scan' ids s = firstOf scan ids s := by
  induction ids generalizing s with
  | nil => rfl
  | cons id ids ih =>
    refine Attempt.bind_eq_bind (h.same id s hs) fun found t ht => ?_
    cases found with
    | true => rfl
    | false => exact ih (h.small hs ht)

theorem goOn_lasts (h : Lasts g bound scan scan') (node : Node) (hs : Small g bound s) :
    goOn scan' node s = goOn scan node s := by
  unfold goOn
  rw [Attempt.get_bind_apply, Attempt.get_bind_apply]
  by_cases hend : s.atEnd = true
  · rw [if_pos hend, if_pos hend]
  · rw [if_neg hend, if_neg hend]
    exact Attempt.bind_eq_bind (firstOf_lasts h node.branches hs) fun _ _ _ => rfl

theorem scanTerminal_lasts (h : Lasts g bound scan scan') (id : StateId) (node : Node)
    (ruleId : RuleId) (hs : Small g bound s) :
    scanTerminal g scan' id node ruleId s = scanTerminal g scan id node ruleId s := by
  refine Attempt.bind_eq_bind rfl fun rule s' hrule => ?_
  obtain ⟨rfl, hget⟩ := (ofResult_ensures (g.rules.get ruleId) s).of_eq hrule
  refine Attempt.bind_eq_bind rfl fun _ s'' hsynced => ?_
  obtain ⟨-, rfl⟩ := (checkSynced_ensures hs.toSound).of_eq hsynced
  refine Attempt.bind_eq_bind rfl fun result t heval => ?_
  obtain ⟨-, -, hsound, hcovers⟩ :=
    (evaluate_ensures hs.toSound (RuleTable.get_eq_ok_iff.1 hget)).of_eq heval
  cases result with
  | failure position => rfl
  | success span =>
    refine Attempt.bind_eq_bind rfl fun _ u hmove => ?_
    obtain rfl : t.advance span.stop = u := congrArg Prod.snd hmove
    refine Attempt.bind_eq_bind rfl fun _ v hemit => ?_
    obtain ⟨hworks, -⟩ := (emit_ensures hsound id _).of_eq hemit
    have hv := (hs.onward hsound hcovers.toOnward).onward hworks.sound hworks.covers.toOnward
    exact Attempt.bind_eq_bind (goOn_lasts h node hv) fun _ _ _ => rfl

theorem orDrop_lasts (h : Lasts g bound scan scan') (id : StateId) (hs : Small g bound s) :
    orDrop (scan' id) s = orDrop (scan id) s := by
  unfold orDrop
  rw [h.same id s hs]

theorem oneRound_lasts (h : Lasts g bound scan scan') (id child : StateId) (max : Option UInt32)
    (done : Nat) (hs : Small g bound s) :
    oneRound scan' id child max done s = oneRound scan id child max done s := by
  unfold oneRound
  rw [Attempt.get_bind_apply, Attempt.get_bind_apply]
  by_cases hover : (max.any (·.toNat ≤ done) || s.atEnd) = true
  · rw [if_pos hover, if_pos hover]
  · rw [if_neg hover, if_neg hover, Attempt.get_bind_apply, Attempt.get_bind_apply]
    refine Attempt.bind_eq_bind rfl fun _ t hnote => ?_
    obtain rfl : { s with events := s.events.push (.beforeChild id done) } = t :=
      congrArg Prod.snd hnote
    exact Attempt.bind_eq_bind (orDrop_lasts h child { hs with }) fun _ _ _ => rfl

/-- **The rounds of a repetition last until it is over**, if there may be more of them than bytes. -/
theorem roundsWatched_lasts (h : Lasts g bound scan scan') (id child : StateId)
    (max : Option UInt32) {turns fuel : Nat} (done : Nat) (hs : Small g bound s)
    (hin : s.outer ≠ []) (hroom : done + s.scanner.bytesLeft ≤ s.scanner.source.size)
    (hturns : s.scanner.bytesLeft < turns) (hfuel : s.scanner.bytesLeft ≤ fuel) :
    roundsWatched scan' id child max turns done s = rounds scan id child max fuel done s := by
  induction turns generalizing fuel done s with
  | zero => exact absurd hturns (Nat.not_lt_zero _)
  | succ turns ih =>
    rw [roundsWatched]
    by_cases hend : s.atEnd = true
    · have hover : (max.any (·.toNat ≤ done) || s.atEnd) = true := by rw [hend, Bool.or_true]
      rw [Attempt.bind_apply, oneRound_over hover, rounds_over fuel hover]
      rfl
    have hleft : 0 < s.scanner.bytesLeft := Nat.pos_of_ne_zero fun h => hend (atEnd_of_bytesLeft h)
    obtain ⟨fuel, rfl⟩ : ∃ n, fuel = n + 1 := Nat.exists_eq_succ_of_ne_zero (by omega)
    rw [rounds]
    refine Attempt.bind_eq_bind (oneRound_lasts h id child max done hs) fun counts t ht => ?_
    cases counts with
    | false => rfl
    | true =>
      have hround := oneRound_ensures h.scans id child max done hs.toSound hin fun _ => by omega
      obtain ⟨⟨hsound, honward⟩, hmoved⟩ := hround.of_eq ht
      have hless := bytesLeft_lt_of_lt hs.toSound hsound honward.source (hmoved rfl)
      rw [← honward.source] at hroom
      exact ih (done + 1) (hs.onward hsound honward) (honward.outer ▸ hin) (by omega) (by omega)
        (by omega)

theorem conclude_lasts (h : Lasts g bound scan scan') (id : StateId) (node : Node) (entry : Nat)
    (satisfied : Bool) (hs : Small g bound s) :
    conclude scan' id node entry satisfied s = conclude scan id node entry satisfied s := by
  cases satisfied with
  | false => rfl
  | true =>
    refine Attempt.bind_eq_bind rfl fun _ t ht => ?_
    have hworks := (emitOwn_ensures hs.toSound id node.token).of_eq ht
    exact goOn_lasts h node (hs.onward hworks.sound hworks.covers.toOnward)

/-- The session with one more event on record. -/
theorem Small.noted (hs : Small g bound s) {event : Event} (h : note event s = (.ok ⟨⟩, t)) :
    Small g bound t := by
  obtain rfl : { s with events := s.events.push event } = t := congrArg Prod.snd h
  exact { hs with }

theorem runRounds_lasts (h : Lasts g bound scan scan') (id child : StateId) (max : Option UInt32)
    (hs : Small g bound s) :
    inOwnFrame id (roundsWatched scan' id child max bound 0) s = runRounds scan id child max s := by
  refine Attempt.bind_eq_bind rfl fun _ t hpush => ?_
  obtain rfl : s.pushed = t := congrArg Prod.snd hpush
  have hpushed : Small g bound s.pushed := ⟨hs.toSound.pushed, hs.size_lt⟩
  refine Attempt.bind_eq_bind ?_ fun _ _ _ => rfl
  have hroom : 0 + s.pushed.scanner.bytesLeft ≤ s.pushed.scanner.source.size := by
    rw [Nat.zero_add]
    exact Nat.sub_le ..
  exact roundsWatched_lasts h id child max 0 hpushed (List.cons_ne_nil _ _) hroom
    hpushed.bytesLeft_lt (Nat.le_refl _)

theorem repetition_lasts (h : Lasts g bound scan scan') (id : StateId) (node : Node)
    (child : StateId) (min : UInt32) (max : Option UInt32) (hs : Small g bound s) :
    repetitionBy scan' id node (roundsWatched scan' id child max bound 0) min max s =
      scanRepetition scan id node child min max s := by
  refine Attempt.bind_eq_bind rfl fun _ t hnote => ?_
  have ht := hs.noted hnote
  rw [Attempt.get_bind_apply, Attempt.get_bind_apply]
  refine Attempt.bind_eq_bind (runRounds_lasts h id child max ht) fun counted u hrounds => ?_
  obtain ⟨hworks, -⟩ := (runRounds_ensures h.scans id child max ht.toSound).of_eq hrounds
  have hu := ht.onward hworks.sound hworks.covers.toOnward
  refine Attempt.bind_eq_bind rfl fun _ v hnote => ?_
  exact Attempt.bind_eq_bind (conclude_lasts h id node _ _ (hu.noted hnote)) fun _ _ _ => rfl

theorem scanChoice_lasts (h : Lasts g bound scan scan') (id : StateId) (node : Node)
    (hs : Small g bound s) : scanChoice scan' id node s = scanChoice scan id node s :=
  Attempt.bind_eq_bind (firstOf_lasts h node.branches hs) fun _ _ _ => rfl

theorem visit_lasts (h : Lasts g bound scan scan') (id : StateId) (hs : Small g bound s) :
    visitWatched g bound scan' id s = visit g scan id s := by
  refine Attempt.bind_eq_bind rfl fun node t hnode => ?_
  obtain ⟨rfl, -⟩ := (ofResult_ensures (g.graph.node id) s).of_eq hnode
  cases node.kind with
  | terminal ruleId => exact scanTerminal_lasts h id node ruleId hs
  | repetition child min max => exact repetition_lasts h id node child min max hs
  | choice => exact scanChoice_lasts h id node hs

end Visit

/-- **A bound above the size of the source lasts for all loops of a scan.** -/
theorem scanNestedWatched_lasts (g : Grammar) (bound nesting : Nat) :
    Lasts g bound (scanNested g nesting) (scanNestedWatched g bound nesting) where
  scans := scanNested_scanned nesting
  same := by
    induction nesting with
    | zero => exact fun _ _ _ => rfl
    | succ nesting ih =>
      intro id s hs
      refine Attempt.bind_eq_bind rfl fun _ t hstep => ?_
      obtain ⟨hworks, -⟩ := (step_ensures hs.toSound).of_eq hstep
      have ht := hs.onward hworks.sound hworks.covers.toOnward
      exact nested_eq_nested (visit_lasts ⟨scanNested_scanned nesting, ih⟩ id { ht with })

/-! ## Watched scans and runs -/

/-- The bound lasts for the nesting and for the loops of whatever is scanned in the session. -/
structure Ample (g : Grammar) (bound : Nat) (s : Session) : Prop where
  nesting : nestingBound g s.settings s.scanner.source.size ≤ bound
  loops : s.scanner.source.size < bound

theorem Ample.onward (h : Ample g bound s) (honward : Onward s t) : Ample g bound t where
  nesting := honward.settings ▸ honward.source ▸ h.nesting
  loops := honward.source ▸ h.loops

/-- **A scan that is not endless is the same when it is watched**, if the bound is ample. -/
theorem scanWatched_eq (hs : Steady g s) (hbound : Ample g bound s) {id : StateId}
    (hends : (scan g id s).1 ≠ .error .endless) : scanWatched g bound id s = scan g id s := by
  rw [scan_eq_scanNested] at hends ⊢
  rw [← scanNested_of_le hs hbound.nesting hends]
  exact (scanNestedWatched_lasts g bound bound).same id s ⟨hs.toSound, hbound.loops⟩

/-- Passes whose scans are not endless are the same when they are watched. -/
theorem passesWatched_eq {root : StateId} {settings : Settings}
    (hends : Ends (Governed settings) (scan g root)) {turns fuel : Nat} (hs : Steady g s)
    (hsettings : s.settings = settings) (hbound : Ample g bound s)
    (hturns : s.scanner.bytesLeft < turns) (hfuel : s.scanner.bytesLeft ≤ fuel) :
    passesWatched g bound root turns s = passes g root fuel s := by
  induction turns generalizing fuel s with
  | zero => exact absurd hturns (Nat.not_lt_zero _)
  | succ turns ih =>
    unfold passesWatched
    rw [Attempt.get_bind_apply]
    by_cases hend : s.atEnd = true
    · rw [if_pos hend, passes_atEnd fuel hend]
      rfl
    cases fuel with
    | zero => exact absurd (atEnd_of_bytesLeft (Nat.le_zero.1 hfuel)) hend
    | succ fuel =>
      unfold passes
      rw [Attempt.get_bind_apply, if_neg hend, if_neg hend, Attempt.get_bind_apply,
        Attempt.get_bind_apply]
      have hscan : (scan g root s).1 ≠ .error .endless := fun he =>
        (hends s ⟨hsettings, hsettings ▸ hs.limit⟩).1 _ he rfl
      refine Attempt.bind_eq_bind (scanWatched_eq hs hbound hscan) fun matched t hpass => ?_
      have ht := (scan_scanned root s hs.toSound).of_eq hpass
      refine Attempt.bind_eq_bind rfl fun _ u hcheck => ?_
      obtain ⟨-, rfl, hmoved⟩ := (checkMoved_ensures ht.sound _).of_eq hcheck
      have hleft := bytesLeft_lt_of_lt hs.toSound ht.sound ht.covers.source (hmoved rfl)
      exact ih (hs.onward ht.sound ht.covers.toOnward) (ht.covers.settings.trans hsettings)
        (hbound.onward ht.covers.toOnward) (by omega) (by omega)

/-- **A run whose scans are not endless is the same when it is watched**, if the bound is ample. -/
theorem runWatched_eq {root : StateId} (hs : Steady g s)
    (hends : Ends (Governed s.settings) (scan g root)) (hbound : Ample g bound s) :
    runWatched g bound root s = run g root s := by
  have hleft : s.scanner.bytesLeft < bound := Nat.lt_of_le_of_lt (Nat.sub_le ..) hbound.loops
  refine Attempt.bind_eq_bind ?_ fun _ _ _ => rfl
  exact passesWatched_eq hends hs rfl hbound hleft (Nat.le_refl _)

/-! ## Termination -/

/-- Watched with some bound or a greater one, an attempt comes to an end by itself, and comes to
the same whatever the bound. -/
def Halts {α : Type} (watched : Nat → Scanning α) (x : Scanning α) (s : Session) : Prop :=
  ∃ least, ∀ bound, least ≤ bound → (watched bound s).1 ≠ .error .endless ∧ watched bound s = x s

/-- The least bound that is ample for a session. -/
def leastAmple (g : Grammar) (s : Session) : Nat :=
  max (nestingBound g s.settings s.scanner.source.size) (s.scanner.source.size + 1)

theorem ample_of_le (hle : leastAmple g s ≤ bound) : Ample g bound s where
  nesting := Nat.le_trans (Nat.le_max_left _ _) hle
  loops := Nat.le_trans (Nat.le_max_right _ _) hle

/-- What is not endless comes to an end if an ample bound makes no difference to it. -/
theorem halts_of_ample {α : Type} {watched : Nat → Scanning α} {x : Scanning α}
    (hends : (x s).1 ≠ .error .endless)
    (heq : ∀ bound, Ample g bound s → watched bound s = x s) : Halts watched x s := by
  refine ⟨leastAmple g s, fun bound hle => ?_⟩
  rw [heq bound (ample_of_le hle)]
  exact ⟨hends, rfl⟩

theorem scan_halts (hs : Steady g s) {id : StateId} (hends : Ends (Governed s.settings) (scan g id)) :
    Halts (scanWatched g · id) (scan g id) s := by
  have hscan : (scan g id s).1 ≠ .error .endless := fun he =>
    (hends s ⟨rfl, hs.limit⟩).1 _ he rfl
  exact halts_of_ample hscan fun _ hbound => scanWatched_eq hs hbound hscan

theorem run_halts (hs : Steady g s) {root : StateId}
    (hends : Ends (Governed s.settings) (scan g root)) :
    Halts (runWatched g · root) (run g root) s := by
  have hrun : (run g root s).1 ≠ .error .endless := fun he =>
    (run_ends hends s ⟨rfl, hs.limit⟩).1 _ he rfl
  exact halts_of_ample hrun fun _ hbound => runWatched_eq hs hends hbound

/-- **A limit is enough to stop any grammar.** Where the depth or the steps are limited, all scans
and all runs come to an end, whatever names what in the grammar and whatever was asked of the
session before. -/
theorem halts_of_limit (hs : Reached g s)
    (hlimit : s.settings.maxDepth.isSome ∨ s.settings.maxSteps.isSome) (id : StateId) :
    Halts (scanWatched g · id) (scan g id) s ∧ Halts (runWatched g · id) (run g id) s := by
  have hends : Ends (Governed s.settings) (scan g id) := scan_ends (.inl hlimit)
  exact ⟨scan_halts hs.steady hends, run_halts hs.steady hends⟩

/-- A state that is its own only branch. -/
def circle : Grammar where
  tokens := .empty
  graph := { nodes := #[{ kind := .choice, branches := [⟨0⟩] }] }

/-- A session in which scans may nest three deep. -/
def circleThrice : Session := .start "a" { maxDepth := some 3 }

theorem halts_of_limit_circle :
    Halts (runWatched circle · ⟨0⟩) (run circle ⟨0⟩) circleThrice ∧
      (run circle ⟨0⟩ circleThrice).1 = .error (.error (.depthLimit 3)) :=
  ⟨(halts_of_limit (.start "a" { maxDepth := some 3 }) (.inl rfl) ⟨0⟩).2, by decide +kernel⟩

end Lexigraph.Session
