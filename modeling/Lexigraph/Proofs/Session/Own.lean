/-
# Lexigraph.Proofs.Session.Own -- what a state matches itself, and the token for it

A scan of a state is three things one after another: the state's own match, its token, and going
on (`visit_eq`). A terminal's own match is what its rule matches, a repetition's are its rounds,
and a choice's is the alternative that it takes.

A token covers the pending text of the active frame, and that need not be what the state matched
itself. Where an own match moves nothing, no token is emitted for it if nothing was pending when
it began. Text that was pending then is what a token covers, and one token at most covers it
(`unmoved_emits_pending`).
-/

import Lexigraph.Proofs.Session.Reached
import Lexigraph.Proofs.Session.Record

namespace Lexigraph

/-- The frame after a token was emitted over its pending text. -/
def Frame.covered (f : Frame) (token : TokenId) : Frame :=
  { f with start := f.current, tokens := f.tokens.push ⟨token, f.pending⟩ }

theorem Frame.eq_of_toList {f f' : Frame} (hstart : f.start = f'.start)
    (hcurrent : f.current = f'.current) (htokens : f.tokens.toList = f'.tokens.toList) :
    f = f' := by
  rcases f with ⟨start, current, tokens⟩
  rcases f' with ⟨start', current', tokens'⟩
  obtain rfl : start = start' := hstart
  obtain rfl : current = current' := hcurrent
  obtain rfl : tokens = tokens' := Array.toList_inj.1 htokens
  rfl

/-- Tokens that all reach up to the end of the stretch that they tile are one token at most. -/
theorem Tiles.eq_nil_or_singleton {source : Source} {a b : Nat} {ts : List Token}
    (h : Tiles source a ts b) (hreach : ∀ t ∈ ts, b ≤ t.span.stop) :
    (ts = [] ∧ a = b) ∨ (a < b ∧ ∃ id, ts = [⟨id, a, b⟩]) := by
  rcases ts with _ | ⟨t, _ | ⟨next, ts⟩⟩
  · exact .inl ⟨rfl, h⟩
  · obtain ⟨hstart, hlt, -, hstop⟩ := h
    obtain rfl : t.span.stop = b := hstop
    refine .inr ⟨hlt, t.id, ?_⟩
    rw [← hstart]
  · -- the second token would begin where the first one ends, at the end of the stretch
    obtain ⟨-, -, -, hnext⟩ := h
    have hfirst := hreach t List.mem_cons_self
    have hle := hnext.2.2.2.bounds.1
    have hlt := hnext.2.1
    omega

namespace Session

open Attempt (Ensures bind_apply bind_eq_bind)

/-! ## Own matches -/

section Own

variable (g : Grammar) (scan : StateId → Scanning Bool)

/-- A terminal evaluates its rule, and on a match the frame follows the scanner. -/
def matchTerminal (ruleId : RuleId) : Scanning Bool := do
  let rule ← Action.ofResult ((g.rules.get ruleId).mapError .grammar)
  checkSynced
  match ← evaluate rule ruleId with
  | .success span =>
    modify fun s => { s with active := { s.active with current := span.stop } }
    return true
  | .failure position =>
    noteFailure position
    return false

/-- A repetition runs its rounds. If there are too few, it goes back or stays. -/
def matchRepetition (id child : StateId) (min : UInt32) (max : Option UInt32) : Scanning Bool := do
  note (.enter id min max)
  let entry := (← get).position
  let counted ← runRounds scan id child max
  let satisfied := decide (min.toNat ≤ counted)
  note (.exit id counted satisfied)
  unless satisfied do fallBack entry
  return satisfied

/-- The own match of a state; a choice takes the first of its branches that matches. -/
def matchOwn (id : StateId) : Scanning Bool := do
  let node ← Action.ofResult ((g.graph.node id).mapError .grammar)
  match node.kind with
  | .terminal ruleId => matchTerminal g ruleId
  | .repetition child min max => matchRepetition scan id child min max
  | .choice => firstOf scan node.branches

/-- What comes after the token of a state: its branches, unless it is a choice between them. -/
def goOnFrom (id : StateId) : Scanning Unit :=
  match g.graph.node? id with
  | none => return
  | some node =>
    match node.kind with
    | .choice => return
    | .terminal _ | .repetition .. => goOn scan node

/-- Of some states, those before `id` are scanned and do not match. The scan of `id` begins in the
session that this leads to. -/
inductive Chosen : List StateId → Session → StateId → Session → Prop where
  | first {id : StateId} {ids : List StateId} {s : Session} : Chosen (id :: ids) s id s
  | next {j id : StateId} {ids : List StateId} {s t v : Session} (hscan : scan j s = (.ok false, t))
      (rest : Chosen ids t id v) : Chosen (j :: ids) s id v

/-- A state that is scanned in `s` matches by itself from `v` to `u`. Before that, a choice tries
alternatives that do not match. -/
inductive Own (id : StateId) (s : Session) : Session → Session → Prop where
  | terminal {node : Node} {ruleId : RuleId} {u : Session} (hnode : g.graph.node? id = some node)
      (hkind : node.kind = .terminal ruleId) (hmatch : matchTerminal g ruleId s = (.ok true, u)) :
      Own id s s u
  | repetition {node : Node} {child : StateId} {min : UInt32} {max : Option UInt32} {u : Session}
      (hnode : g.graph.node? id = some node) (hkind : node.kind = .repetition child min max)
      (hmatch : matchRepetition scan id child min max s = (.ok true, u)) : Own id s s u
  | choice {node : Node} {j : StateId} {v u : Session} (hnode : g.graph.node? id = some node)
      (hkind : node.kind = .choice) (hchosen : Chosen scan node.branches s j v)
      (hmatch : scan j v = (.ok true, u)) : Own id s v u

end Own

variable {g : Grammar} {scan : StateId → Scanning Bool} {s t u v : Session} {id : StateId}

theorem firstOf_eq_ok_true {ids : List StateId} (h : firstOf scan ids s = (.ok true, u)) :
    ∃ id v, Chosen scan ids s id v ∧ scan id v = (.ok true, u) := by
  induction ids generalizing s with
  | nil => cases h
  | cons id ids ih =>
    unfold firstOf at h
    rw [bind_apply] at h
    rcases hscan : scan id s with ⟨answer, t⟩
    rw [hscan] at h
    rcases answer with stop | _ | _
    · cases h
    · obtain ⟨j, v, hchosen, hmatch⟩ := ih h
      exact ⟨j, v, .next hscan hchosen, hmatch⟩
    · cases h
      exact ⟨id, s, .first, hscan⟩

/-- An own match is that of a terminal, of a repetition or of a choice. -/
theorem own_of_matchOwn (h : matchOwn g scan id s = (.ok true, u)) : ∃ v, Own g scan id s v u := by
  unfold matchOwn at h
  cases hnode : g.graph.node id with
  | error e =>
    rw [hnode] at h
    cases h
  | ok node =>
    rw [hnode] at h
    have hfound := Graph.node_eq_ok_iff.1 hnode
    change (match node.kind with
      | .terminal ruleId => matchTerminal g ruleId
      | .repetition child min max => matchRepetition scan id child min max
      | .choice => firstOf scan node.branches) s = _ at h
    cases hkind : node.kind with
    | terminal ruleId =>
      rw [hkind] at h
      exact ⟨s, .terminal hfound hkind h⟩
    | repetition child min max =>
      rw [hkind] at h
      exact ⟨s, .repetition hfound hkind h⟩
    | choice =>
      rw [hkind] at h
      obtain ⟨j, v, hchosen, hmatch⟩ := firstOf_eq_ok_true h
      exact ⟨v, .choice hfound hkind hchosen hmatch⟩

/-! ## The parts of a scan -/

/-- What a state does once it has matched by itself. -/
def followUp (g : Grammar) (scan : StateId → Scanning Bool) (id : StateId) (matched : Bool) :
    Scanning Bool := do
  if matched then
    emitOwn id (g.labelOf? id)
    goOnFrom g scan id
  return matched

theorem ofResult_eq_ok {α : Type} {r : Except GrammarError α} {a : α}
    (h : (Action.ofResult (r.mapError .grammar) : Scanning α) s = (.ok a, t)) : r = .ok a := by
  cases r with
  | error e => cases h
  | ok a' => rw [Except.ok.inj (Prod.mk.inj h).1]

theorem goOnFrom_eq {node : Node} (hnode : g.graph.node? id = some node)
    (hkind : node.kind ≠ .choice) : goOnFrom g scan id = goOn scan node := by
  unfold goOnFrom
  rw [hnode]
  rcases node with ⟨kind, token, own, branches⟩
  cases kind with
  | terminal ruleId => rfl
  | repetition child min max => rfl
  | choice => exact absurd rfl hkind

theorem goOnFrom_choice {node : Node} (hnode : g.graph.node? id = some node)
    (hkind : node.kind = .choice) : goOnFrom g scan id = return := by
  unfold goOnFrom
  simp only [hnode, hkind]

theorem scanTerminal_eq {node : Node} {ruleId : RuleId} (hnode : g.graph.node? id = some node)
    (hkind : node.kind = .terminal ruleId) (s : Session) :
    scanTerminal g scan id node ruleId s = (matchTerminal g ruleId >>= followUp g scan id) s := by
  unfold scanTerminal matchTerminal
  simp only [bind_assoc]
  refine bind_eq_bind rfl fun rule s' hrule => ?_
  have hlabel := Grammar.labelOf?_terminal hnode hkind
    (RuleTable.get_eq_ok_iff.1 (ofResult_eq_ok hrule))
  refine bind_eq_bind rfl fun _ t _ => bind_eq_bind rfl fun result t' _ => ?_
  cases result with
  | failure position => simp [followUp]
  | success span =>
    simp only [bind_assoc, pure_bind, followUp, hlabel, goOnFrom_eq hnode (by simp [hkind])]
    rfl

theorem scanRepetition_eq {node : Node} {child : StateId} {min : UInt32} {max : Option UInt32}
    (hnode : g.graph.node? id = some node) (hkind : node.kind = .repetition child min max)
    (s : Session) :
    scanRepetition scan id node child min max s =
      (matchRepetition scan id child min max >>= followUp g scan id) s := by
  have hlabel := Grammar.labelOf?_own hnode (by simp [hkind])
  unfold scanRepetition matchRepetition
  simp only [bind_assoc]
  refine bind_eq_bind rfl fun _ s' _ => bind_eq_bind rfl fun entry t _ => ?_
  refine bind_eq_bind rfl fun counted t' _ => bind_eq_bind rfl fun _ u _ => ?_
  unfold conclude
  cases decide (min.toNat ≤ counted) with
  | false => simp [followUp]
  | true => simp [followUp, hlabel, goOnFrom_eq hnode (by simp [hkind] : node.kind ≠ .choice)]

theorem scanChoice_eq {node : Node} (hnode : g.graph.node? id = some node)
    (hkind : node.kind = .choice) (s : Session) :
    scanChoice scan id node s = (firstOf scan node.branches >>= followUp g scan id) s := by
  have hlabel := Grammar.labelOf?_own hnode (by simp [hkind])
  unfold scanChoice
  refine bind_eq_bind rfl fun found t _ => ?_
  cases found with
  | false => simp [followUp]
  | true => simp [followUp, hlabel, goOnFrom_choice hnode hkind]

/-- **A scan is an own match, and on a match a token and going on.** -/
theorem visit_eq (g : Grammar) (scan : StateId → Scanning Bool) (id : StateId) :
    visit g scan id = (do
      let matched ← matchOwn g scan id
      if matched then
        emitOwn id (g.labelOf? id)
        goOnFrom g scan id
      return matched) := by
  funext s
  show visit g scan id s = (matchOwn g scan id >>= followUp g scan id) s
  unfold visit matchOwn
  rw [bind_assoc]
  refine bind_eq_bind rfl fun node s' hnode => ?_
  have hfound := Graph.node_eq_ok_iff.1 (ofResult_eq_ok hnode)
  cases hkind : node.kind with
  | terminal ruleId => exact scanTerminal_eq hfound hkind s'
  | repetition child min max => exact scanRepetition_eq hfound hkind s'
  | choice => exact scanChoice_eq hfound hkind s'

/-! ## What an own match does to the frame -/

/-- An own match from `v` to `u` is work in the frame, and `v` has the frame that `s` has, at most
further on. -/
structure Worked (g : Grammar) (s v u : Session) : Prop where
  before : Sound g v
  after : Sound g u
  covers : Covers v u
  sameFrame : SameFrame s v

theorem Chosen.sound {ids : List StateId} (hscan : Scans g scan) (h : Chosen scan ids s id v)
    (hs : Sound g s) : Sound g v ∧ SameFrame s v := by
  induction h with
  | first => exact ⟨hs, ⟨rfl, rfl⟩⟩
  | next hunmatched _ ih =>
    have ht := (hscan _ _ hs).of_eq hunmatched
    obtain ⟨hv, hframe⟩ := ih ht.sound
    exact ⟨hv, (ht.sameFrame rfl).trans hframe⟩

theorem matchTerminal_covers {ruleId : RuleId} (hs : Sound g s)
    (h : matchTerminal g ruleId s = (.ok true, u)) : Sound g u ∧ Covers s u := by
  have hpost : Ensures (matchTerminal g ruleId) s fun answer u =>
      answer = .ok true → Sound g u ∧ Covers s u := by
    refine (ofResult_ensures (g.rules.get ruleId) s).bind (fun _ _ _ => nofun) ?_
    rintro rule s ⟨rfl, hrule⟩
    refine (checkSynced_ensures hs).bind (fun _ _ _ => nofun) ?_
    rintro _ s ⟨-, rfl⟩
    refine (evaluate_ensures hs (RuleTable.get_eq_ok_iff.1 hrule)).bind (fun _ _ _ => nofun) ?_
    rintro result t ⟨-, -, hadvance⟩
    cases result with
    | failure position => exact Ensures.modify_bind (Ensures.pure nofun)
    | success span => exact Ensures.modify_bind (Ensures.pure fun _ => hadvance)
  exact hpost.of_eq h rfl

theorem matchRepetition_covers (hscan : Scans g scan) {child : StateId} {min : UInt32}
    {max : Option UInt32} (hs : Sound g s)
    (h : matchRepetition scan id child min max s = (.ok true, u)) : Sound g u ∧ Covers s u := by
  have hpost : Ensures (matchRepetition scan id child min max) s fun answer u =>
      answer = .ok true → Sound g u ∧ Covers s u := by
    refine Ensures.modify_bind (Ensures.get_bind ?_)
    have hnote : Covers s { s with events := s.events.push (.enter id min max) } :=
      (Covers.refl s).note _ nofun
    refine (runRounds_ensures hscan id child max (hs.note _)).bind (fun _ _ _ => nofun) ?_
    rintro counted t ⟨hworks, -, hcounted⟩
    have hst := hnote.trans hworks.covers
    refine Ensures.modify_bind ?_
    cases decide (min.toNat ≤ counted) with
    | false =>
      have hback : ∀ t, Ensures (fallBack s.position) t fun _ _ => True := fun _ => trivial
      exact (hback _).bind (fun _ _ _ => nofun) fun _ _ _ => Ensures.pure nofun
    | true =>
      refine Ensures.pure fun _ => ⟨hworks.sound.note _, hst.note _ fun n hn => ?_⟩
      rw [← Option.some.inj hn, hst.source]
      exact hcounted counted rfl
  exact hpost.of_eq h rfl

theorem Own.worked (hscan : Scans g scan) (h : Own g scan id s v u) (hs : Sound g s) :
    Worked g s v u := by
  cases h with
  | terminal _ _ hmatch =>
    obtain ⟨hu, hcovers⟩ := matchTerminal_covers hs hmatch
    exact ⟨hs, hu, hcovers, ⟨rfl, rfl⟩⟩
  | repetition _ _ hmatch =>
    obtain ⟨hu, hcovers⟩ := matchRepetition_covers hscan hs hmatch
    exact ⟨hs, hu, hcovers, ⟨rfl, rfl⟩⟩
  | choice _ _ hchosen hmatch =>
    obtain ⟨hv, hframe⟩ := hchosen.sound hscan hs
    have hu := (hscan _ _ hv).of_eq hmatch
    exact ⟨hv, hu.sound, hu.covers, hframe⟩

/-! ## Own matches that move nothing -/

/-- Work that moves nothing leaves the frame as it is, or emits one token over all that was
pending. -/
theorem active_of_unmoved (hu : Sound g u) (h : Covers v u) (hstill : u.position = v.position) :
    u.active = v.active ∨
      v.active.start < v.position ∧ ∃ token, u.active = v.active.covered token := by
  obtain ⟨new, hnew, htiles, hreach⟩ := h.tokens
  have hstart : u.active.start ≤ v.position := hstill ▸ hu.active.ordered
  rcases htiles.eq_nil_or_singleton fun t ht => Nat.le_trans hstart (hreach t ht) with
    ⟨rfl, hsame⟩ | ⟨hlt, token, rfl⟩
  · rw [List.append_nil] at hnew
    exact .inl (Frame.eq_of_toList hsame.symm hstill hnew)
  · -- the token reaches up to the position, and so does the covered text
    have hend : u.active.start = v.position :=
      Nat.le_antisymm hstart (hreach _ (List.mem_singleton.2 rfl))
    rw [hend] at hlt hnew
    refine .inr ⟨hlt, token, Frame.eq_of_toList hend hstill ?_⟩
    rw [hnew]
    exact (Array.toList_push ..).symm

/-- A token is emitted over the pending text if there is any, and else nothing is done. -/
theorem emitOwn_cases (id : StateId) (label : Option TokenId) (s : Session) :
    emitOwn id label s = (.ok ⟨⟩, s) ∨ s.active.start < s.position ∧
      ∃ t token, emitOwn id label s = (.ok ⟨⟩, t) ∧ t.active = s.active.covered token := by
  cases label with
  | none => exact .inl rfl
  | some token =>
    by_cases h : s.active.start < s.active.current
    · exact .inr ⟨h, _, token, emit_pending h, rfl⟩
    · exact .inl (emit_nothing h)

/-- **Nothing is emitted for a match that moves nothing, but over text that was pending.** A scan
is an own match, the token of the state, and going on. Where the own match of a state moves nothing
and nothing was pending in the active frame when it began, no token is emitted for the state, and
going on begins with the frame as it was. Where text was pending, one token at most is emitted up
to that of the state itself, and it covers the pending text.

Every session that operations lead to is sound, and so is every session in which a scan scans
another state. -/
theorem unmoved_emits_pending (g : Grammar) (fuel : Nat) (id : StateId) :
    (scanNested g (fuel + 1) id = (do
      step
      nested (fun e => .depthLimit e.limit) (do
        let matched ← matchOwn g (scanNested g fuel) id
        if matched then
          emitOwn id (g.labelOf? id)
          goOnFrom g (scanNested g fuel) id
        return matched))) ∧
    (∀ s u, matchOwn g (scanNested g fuel) id s = (.ok true, u) →
      ∃ v, Own g (scanNested g fuel) id s v u) ∧
    ∀ s v u, Sound g s → Own g (scanNested g fuel) id s v u → u.position = v.position →
      SameFrame s v ∧ ∃ t, emitOwn id (g.labelOf? id) u = (.ok ⟨⟩, t) ∧
        (v.active.start = v.position → t = u ∧ t.active = v.active) ∧
        (v.active.start < v.position →
          t.active = v.active ∨ ∃ token, t.active = v.active.covered token) := by
  refine ⟨?_, fun s u h => own_of_matchOwn h, fun s v u hs hown hstill => ?_⟩
  · rw [← visit_eq]
    rfl
  have hworked := hown.worked (scanNested_scanned fuel) hs
  refine ⟨hworked.sameFrame, ?_⟩
  rcases active_of_unmoved hworked.after hworked.covers hstill with
    hframe | ⟨hpending, token, hframe⟩
  · -- the frame is as it was, so the token of the state is what can be emitted
    rcases emitOwn_cases id (g.labelOf? id) u with hnone | ⟨hlt, t, token, hemit, ht⟩
    · exact ⟨u, hnone, fun _ => ⟨rfl, hframe⟩, fun _ => .inl hframe⟩
    · rw [hframe] at hlt ht
      rw [hstill] at hlt
      exact ⟨t, hemit, fun hsame => absurd hsame (Nat.ne_of_lt hlt), fun _ => .inr ⟨token, ht⟩⟩
  · -- what was pending is covered already
    have hnothing : ¬ u.active.start < u.position := by
      rw [hframe, hstill]
      exact Nat.lt_irrefl _
    rcases emitOwn_cases id (g.labelOf? id) u with hnone | ⟨hlt, -⟩
    · exact ⟨u, hnone, fun hsame => absurd hsame (Nat.ne_of_lt hpending),
        fun _ => .inr ⟨token, hframe⟩⟩
    · exact absurd hlt hnothing

end Session

/-- The letter `a`, one or more of it without a token of their own, and the empty text. -/
def Grammar.silentLetters : Grammar where
  tokens := { names := #["a", "b"], distinct := by decide }
  rules := { rules := #[
    { token := ⟨0⟩, choices := { first := "a" } },
    { token := ⟨1⟩, choices := { first := "" } }] }
  graph := { nodes := #[
    { kind := .terminal ⟨0⟩ },
    { kind := .repetition ⟨0⟩ 1 none },
    { kind := .terminal ⟨1⟩ }] }

namespace Session

/-- After the letters, the text of which is left pending. -/
def lettersPending : Session := (perform .silentLetters (.scan ⟨1⟩) (.start "ab")).2

theorem lettersPending_reached : Reached .silentLetters lettersPending :=
  .perform (.start "ab" {}) (.scan ⟨1⟩)

theorem own_empty {s : Session} (h : (matchTerminal .silentLetters ⟨1⟩ s).1 = .ok true) :
    Own .silentLetters (scanNested .silentLetters 0) ⟨2⟩ s s
      (matchTerminal .silentLetters ⟨1⟩ s).2 :=
  .terminal rfl rfl (Prod.ext h rfl)

theorem unmoved_emits_pending_silentLetters :
    (∃ u, Own .silentLetters (scanNested .silentLetters 0) ⟨2⟩ (.start "ab") (.start "ab") u ∧
      emitOwn ⟨2⟩ (Grammar.silentLetters.labelOf? ⟨2⟩) u = (.ok ⟨⟩, u)) ∧
    ∃ u t, Own .silentLetters (scanNested .silentLetters 0) ⟨2⟩ lettersPending lettersPending u ∧
      emitOwn ⟨2⟩ (Grammar.silentLetters.labelOf? ⟨2⟩) u = (.ok ⟨⟩, t) ∧
      (t.active = lettersPending.active ∨
        ∃ token, t.active = lettersPending.active.covered token) := by
  obtain ⟨-, -, hunmoved⟩ := unmoved_emits_pending .silentLetters 0 ⟨2⟩
  constructor
  · have hown := own_empty (s := .start "ab") (by decide +kernel)
    have hsound : Sound .silentLetters (.start "ab") := start_sound _ _ _ Memo.coherent_empty
    obtain ⟨-, t, hemit, hnothing, -⟩ := hunmoved _ _ _ hsound hown (by decide +kernel)
    obtain ⟨rfl, -⟩ := hnothing rfl
    exact ⟨_, hown, hemit⟩
  · have hown := own_empty (s := lettersPending) (by decide +kernel)
    have hsound := lettersPending_reached.steady.toSound
    obtain ⟨-, t, hemit, -, hpending⟩ := hunmoved _ _ _ hsound hown (by decide +kernel)
    exact ⟨_, t, hown, hemit, hpending (by decide +kernel)⟩

/-- The empty text is matched where the letter `a` is pending, and a token is emitted over it. -/
theorem empty_match_emits :
    Reached .silentLetters lettersPending ∧
    lettersPending.active = { start := 0, current := 1 } ∧
    (∃ u, Own .silentLetters (scanNested .silentLetters 0) ⟨2⟩ lettersPending lettersPending u ∧
      u.position = lettersPending.position) ∧
    (scan .silentLetters ⟨2⟩ lettersPending).1 = .ok true ∧
    (scan .silentLetters ⟨2⟩ lettersPending).2.events.toList =
      lettersPending.events.toList ++ [.emitted ⟨2⟩ ⟨⟨1⟩, 0, 1⟩] := by
  refine ⟨lettersPending_reached, by decide +kernel, ⟨_, own_empty (by decide +kernel), by decide +kernel⟩, by decide +kernel, by decide +kernel⟩

end Session

end Lexigraph
