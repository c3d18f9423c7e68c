/-
# Lexigraph.Proofs.Session.Settled -- when no text is left uncovered

Terminals and choices leave no text pending that was not pending before, and a repetition
with a token covers all its rounds. So where repetitions go back when they fall short and
each of them has a token, a scan that starts with nothing pending ends with nothing
pending, whether or not the state matches (`scan_rests`).
-/

import Lexigraph.Proofs.Graph.Reach
import Lexigraph.Proofs.Session.Scanned

namespace Lexigraph

namespace Graph

/-- Every repetition that a state reaches has a token. -/
def Tokened (g : Graph) (root : StateId) : Prop :=
  ∀ id node, g.Reaches root id → g.node? id = some node → node.child?.isSome → node.token.isSome

theorem Tokened.names {g : Graph} {i j : StateId} (h : g.Tokened i) (hij : g.Names i j) :
    g.Tokened j :=
  fun id node hj => h id node (.head hij hj)

end Graph

namespace Session

open Attempt (Ensures)

variable {g : Grammar} {s t : Session} {α : Type}

/-! ## At rest -/

/-- A sound session that goes back from repetitions which fall short, with nothing pending. -/
structure AtRest (g : Grammar) (s : Session) : Prop where
  sound : Sound g s
  rewind : s.settings.shortfall = .rewind
  settled : s.active.start = s.position

/-- An attempt that ends at rest if it comes to an answer. -/
def Rests (g : Grammar) (answer : Except (Stop ScanError) α) (s : Session) : Prop :=
  ∀ a, answer = .ok a → AtRest g s

theorem Rests.stop (e : Stop ScanError) : Rests g (.error e : Except _ α) s := nofun

theorem Rests.ok (hs : AtRest g s) (a : α) : Rests g (.ok a) s := fun _ _ => hs

/-- A state that does not match leaves the session at rest as it was. -/
theorem AtRest.of_unmatched (hs : AtRest g s) (h : Scanned g s (.ok false) t) : AtRest g t where
  sound := h.sound
  rewind := h.covers.settings ▸ hs.rewind
  settled := by
    rw [(h.sameFrame rfl).start, h.unmoved rfl hs.rewind]
    exact hs.settled

/-- A scan comes to rest if its matches do. -/
theorem rests_of_matched {x : Scanning Bool} (hs : AtRest g s) (h : Ensures x s (Scanned g s))
    (hmatched : Ensures x s fun answer s' => answer = .ok true → AtRest g s') :
    Ensures x s (Rests g) := by
  unfold Ensures at h hmatched ⊢
  intro found hfound
  cases found with
  | true => exact hmatched hfound
  | false =>
    rw [hfound] at h
    exact hs.of_unmatched h

/-- To emit is to come to rest. -/
theorem emit_rests (hs : Sound g s) (hrewind : s.settings.shortfall = .rewind) (id : StateId)
    (token : TokenId) : Ensures (emit id token) s (Rests g) := by
  refine (emit_ensures hs id token).mono fun answer s' h _ _ => ?_
  exact ⟨h.1.sound, h.1.covers.settings ▸ hrewind, h.2⟩

theorem emitOwn_rests (hs : AtRest g s) (id : StateId) (token : Option TokenId) :
    Ensures (emitOwn id token) s (Rests g) := by
  cases token with
  | none => exact Ensures.pure (.ok hs _)
  | some token => exact emit_rests hs.sound hs.rewind id token

section Visit

variable {scan : StateId → Scanning Bool}

/-- The scans of the states that satisfy `states` come to rest. -/
def ScansRest (g : Grammar) (states : StateId → Prop) (scan : StateId → Scanning Bool) : Prop :=
  ∀ id s, states id → AtRest g s → Ensures (scan id) s (Rests g)

variable {states : StateId → Prop}

theorem firstOf_rests (hrest : ScansRest g states scan) (ids : List StateId)
    (hids : ∀ id ∈ ids, states id) (hs : AtRest g s) :
    Ensures (firstOf scan ids) s (Rests g) := by
  induction ids generalizing s with
  | nil => exact Ensures.pure (.ok hs _)
  | cons id ids ih =>
    have hid : states id := hids id List.mem_cons_self
    refine (hrest id s hid hs).bind (fun e _ _ => .stop e) fun found s' h => ?_
    have hs' : AtRest g s' := h found rfl
    cases found with
    | true => exact Ensures.pure (.ok hs' _)
    | false => exact ih (fun j hj => hids j (List.mem_cons_of_mem _ hj)) hs'

theorem goOn_rests (hrest : ScansRest g states scan) (node : Node)
    (hids : ∀ id ∈ node.branches, states id) (hs : AtRest g s) :
    Ensures (goOn scan node) s (Rests g) := by
  refine Ensures.get_bind ?_
  by_cases hend : s.atEnd = true
  · rw [if_pos hend]
    exact Ensures.pure (.ok hs _)
  · rw [if_neg hend]
    refine (firstOf_rests hrest node.branches hids hs).bind (fun e _ _ => .stop e) ?_
    exact fun found s' h => Ensures.pure (.ok (h found rfl) _)

theorem scanTerminal_rests (hrest : ScansRest g states scan) (id : StateId)
    (node : Node) (ruleId : RuleId) (hids : ∀ id ∈ node.branches, states id) (hs : AtRest g s) :
    Ensures (scanTerminal g scan id node ruleId) s fun answer s' =>
      answer = .ok true → AtRest g s' := by
  refine (ofResult_ensures (g.rules.get ruleId) s).bind (fun e _ _ => nofun) ?_
  rintro rule s ⟨rfl, hrule⟩
  refine (checkSynced_ensures hs.sound).bind (fun e _ _ => nofun) ?_
  rintro _ s ⟨-, rfl⟩
  refine (evaluate_ensures hs.sound (RuleTable.get_eq_ok_iff.1 hrule)).bind (fun e _ _ => nofun) ?_
  rintro result s' ⟨-, -, hsound, hcovers⟩
  cases result with
  | success span =>
    have hrewind : (s'.advance (MatchResult.success span).stop).settings.shortfall = .rewind := by
      rw [hcovers.settings]
      exact hs.rewind
    refine Ensures.modify_bind ?_
    refine (emit_rests hsound hrewind id _).bind (fun e _ _ => nofun) fun _ t ht => ?_
    refine (goOn_rests hrest node hids (ht _ rfl)).bind (fun e _ _ => nofun) fun _ u hu => ?_
    exact Ensures.pure fun _ => hu _ rfl
  | failure position => exact Ensures.modify_bind (Ensures.pure nofun)

/-- What the rounds left uncovered is covered by the repetition's own token. -/
theorem conclude_rests (hrest : ScansRest g states scan) (id : StateId) (node : Node)
    (entry : Nat) (htoken : node.token.isSome) (hids : ∀ id ∈ node.branches, states id)
    (hs : Sound g s) (hrewind : s.settings.shortfall = .rewind) :
    Ensures (conclude scan id node entry true) s (Rests g) := by
  obtain ⟨token, htoken⟩ := Option.isSome_iff_exists.1 htoken
  have hown : Ensures (emitOwn id node.token) s (Rests g) := by
    rw [htoken]
    exact emit_rests hs hrewind id token
  exact hown.bind (fun e _ _ => .stop e) fun _ u hu => goOn_rests hrest node hids (hu _ rfl)

theorem scanRepetition_rests (hscan : Scans g scan) (hrest : ScansRest g states scan)
    (id : StateId) (node : Node) (child : StateId) (min : UInt32) (max : Option UInt32)
    (htoken : node.token.isSome) (hids : ∀ id ∈ node.branches, states id) (hs : AtRest g s) :
    Ensures (scanRepetition scan id node child min max) s fun answer s' =>
      answer = .ok true → AtRest g s' := by
  refine Ensures.modify_bind (Ensures.get_bind ?_)
  refine (runRounds_ensures hscan id child max (hs.sound.note _)).bind (fun e _ _ => nofun) ?_
  rintro counted t ⟨hworks, -⟩
  refine Ensures.modify_bind ?_
  by_cases hsatisfied : min.toNat ≤ counted
  · rw [decide_eq_true hsatisfied]
    have hrewind : t.settings.shortfall = .rewind := by
      rw [hworks.covers.settings]
      exact hs.rewind
    refine (conclude_rests hrest id node s.position htoken hids (hworks.sound.note _) hrewind).bind
      (fun e _ _ => nofun) fun _ u hu => ?_
    exact Ensures.pure fun _ => hu _ rfl
  · rw [decide_eq_false hsatisfied]
    -- a repetition that fell short does not match, wherever it falls back to
    have hany : ∀ x : Scanning Unit, Ensures x
        { t with events := t.events.push (.exit id counted false) } fun _ _ => True :=
      fun _ => trivial
    exact (hany _).bind (fun e _ _ => nofun) fun _ u _ => Ensures.pure nofun

theorem scanChoice_rests (hrest : ScansRest g states scan) (id : StateId) (node : Node)
    (hids : ∀ id ∈ node.branches, states id) (hs : AtRest g s) :
    Ensures (scanChoice scan id node) s fun answer s' => answer = .ok true → AtRest g s' := by
  refine (firstOf_rests hrest node.branches hids hs).bind (fun e _ _ => nofun) fun found t ht => ?_
  cases found with
  | false => exact Ensures.pure nofun
  | true =>
    refine (emitOwn_rests (ht _ rfl) id node.token).bind (fun e _ _ => nofun) fun _ u hu => ?_
    exact Ensures.pure fun _ => hu _ rfl

theorem visit_rests (hscan : Scans g scan) (hrest : ScansRest g g.graph.Tokened scan)
    (id : StateId) (hid : g.graph.Tokened id) (hs : AtRest g s) :
    Ensures (visit g scan id) s (Rests g) := by
  refine rests_of_matched hs (visit_ensures hscan id hs.sound) ?_
  -- what does not match leaves the session at rest; a match is told by its kind
  refine (ofResult_ensures (g.graph.node id) s).bind (fun e _ _ => nofun) ?_
  rintro node s ⟨rfl, hnode⟩
  have hnode' := Graph.node_eq_ok_iff.1 hnode
  have hids : ∀ j ∈ node.branches, g.graph.Tokened j := fun j hj =>
    hid.names ⟨node, hnode', Node.branch_mem_successors hj⟩
  rcases hkind : node.kind with ruleId | ⟨child, min, max⟩ | _
  · exact scanTerminal_rests hrest id node ruleId hids hs
  · have htoken : node.token.isSome := by
      apply hid id node .refl hnode'
      unfold Node.child?
      rw [hkind]
      rfl
    exact scanRepetition_rests hscan hrest id node child min max htoken hids hs
  · exact scanChoice_rests hrest id node hids hs

end Visit

theorem nested_rests {refused : DepthExceeded → ScanError} {body : Scanning Bool}
    (hbody : ∀ s, Sound g s → Ensures body s (Scanned g s))
    (hrest : ∀ s, AtRest g s → Ensures body s (Rests g)) (hs : AtRest g s) :
    Ensures (nested refused body) s (Rests g) := by
  unfold Ensures
  cases henter : s.guard.enter with
  | error e =>
    rw [nested_refused henter]
    exact .stop _
  | ok inner =>
    obtain ⟨hroom, -⟩ := DepthGuard.enter_eq_ok_iff.1 henter
    have hdeeper : AtRest g s.deeper := { hs with sound := { hs.sound with } }
    have hinner := hbody s.deeper hdeeper.sound
    rw [nested_apply hroom hinner.covers.depth]
    intro a ha
    have hrests := hrest s.deeper hdeeper a ha
    exact { hrests with sound := { hrests.sound with } }

theorem scanNested_rests (fuel : Nat) : ScansRest g g.graph.Tokened (scanNested g fuel) := by
  induction fuel with
  | zero => exact fun _ s _ _ => .stop _
  | succ fuel ih =>
    intro id s hid hs
    refine (step_ensures hs.sound).bind (fun e _ _ => .stop e) ?_
    rintro _ t ⟨h, hactive⟩
    have ht : AtRest g t := by
      refine ⟨h.sound, h.covers.settings ▸ hs.rewind, ?_⟩
      unfold Session.position
      rw [hactive]
      exact hs.settled
    exact nested_rests (fun s hs => visit_ensures (scanNested_scanned fuel) id hs)
      (fun s hs => visit_rests (scanNested_scanned fuel) ih id hid hs) ht

/-- **Where every repetition has a token, scans leave nothing pending.** -/
theorem scan_rests : ScansRest g g.graph.Tokened (scan g) := fun id _ hid hs =>
  Ensures.get_bind (scanNested_rests _ id _ hid hs)

end Session

end Lexigraph
