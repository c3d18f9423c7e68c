/-
# Lexigraph.Proofs.Session.Record -- what a scan puts on record

Whatever session it begins in, a scan adds events to the record that are true of the grammar
(`Grammar.Tells`) and that played back give the tokens of the active frame, from those that the
frame had before. Frames come and go in between, and the frames below stay as they are. A scan
that comes to an end leaves a nested record. One that stops leaves the lists of those repetitions
on the stack that it did not get out of. It fails for want of a state or a rule only if the
grammar lacks one (`scan_logs`).

There is one lemma for each part of a scan. All but the rounds of a repetition leave the frame
that they began in; the rounds are told apart (`RoundsLogged`), since a stop drops their frame.
-/

import Lexigraph.Proofs.Session.Replay
import Lexigraph.Proofs.Session.Run
import Lexigraph.Proofs.Session.Tame

namespace Lexigraph

namespace Grammar

variable (g : Grammar)

/-- The token that a match of a state stands for, if there is one. -/
def labelOf? (id : StateId) : Option TokenId := do
  let node ← g.graph.node? id
  match node.kind with
  | .terminal ruleId => return node.token.getD (← g.rules.get? ruleId).token
  | .repetition .. | .choice => node.token

/-- What an event says of its state is so: a repetition has such bounds, and a token is the one of
the state that it was emitted for. -/
def Tells : Event → Prop
  | .enter id min max => ∃ node child, g.graph.node? id = some node ∧
      node.kind = .repetition child min max
  | .emitted id token => g.labelOf? id = some token.id
  | _ => True

/-- A state leads to a state that is not there, or to one whose rule is not there. -/
inductive Lacks (root : StateId) : GrammarError → Prop
  | state {id : StateId} (reached : g.graph.Reaches root id) (missing : g.graph.node? id = none) :
      Lacks root (.unknownState id)
  | rule {id : StateId} {node : Node} {ruleId : RuleId} (reached : g.graph.Reaches root id)
      (found : g.graph.node? id = some node) (kind : node.kind = .terminal ruleId)
      (missing : g.rules.get? ruleId = none) : Lacks root (.unknownRule ruleId)

variable {g}

theorem Lacks.of_names {i j : StateId} (h : g.graph.Names i j) {e : GrammarError}
    (hlacks : g.Lacks j e) : g.Lacks i e := by
  cases hlacks with
  | state reached missing => exact .state (reached.head h) missing
  | rule reached found kind missing => exact .rule (reached.head h) found kind missing

theorem labelOf?_terminal {id : StateId} {node : Node} {ruleId : RuleId} {rule : Rule}
    (hnode : g.graph.node? id = some node) (hkind : node.kind = .terminal ruleId)
    (hrule : g.rules.get? ruleId = some rule) :
    g.labelOf? id = some (node.token.getD rule.token) := by
  simp [labelOf?, hnode, hkind, hrule]

theorem labelOf?_own {id : StateId} {node : Node} (hnode : g.graph.node? id = some node)
    (hkind : ∀ ruleId, node.kind ≠ .terminal ruleId) : g.labelOf? id = node.token := by
  rcases node with ⟨kind, token, own, branches⟩
  cases kind with
  | terminal ruleId => exact absurd rfl (hkind ruleId)
  | repetition child min max => simp [labelOf?, hnode]
  | choice => simp [labelOf?, hnode]

end Grammar

namespace Session

open Attempt (Ensures)

variable {g : Grammar} {allowed : GrammarError → Prop} {s t u : Session} {event : Event}
  {events more : List Event} {α β : Type}

/-! ## Records -/

/-- From `s` to `t` the events were added to the record, and what they say is so. -/
structure Notes (g : Grammar) (s t : Session) (events : List Event) : Prop where
  appended : t.events.toList = s.events.toList ++ events
  told : ∀ event ∈ events, g.Tells event

theorem Notes.of_eq (h : t.events = s.events) : Notes g s t [] where
  appended := by rw [h, List.append_nil]
  told := by simp

/-- The session with an event added to its record. -/
def noted (s : Session) (event : Event) : Session := { s with events := s.events.push event }

theorem Notes.push (h : t.events = s.events.push event) (htold : g.Tells event) :
    Notes g s t [event] where
  appended := by rw [h, Array.toList_push]
  told := List.forall_mem_singleton.2 htold

theorem Notes.trans (h : Notes g s t events) (h' : Notes g t u more) :
    Notes g s u (events ++ more) where
  appended := by rw [h'.appended, h.appended, List.append_assoc]
  told := List.forall_mem_append.2 ⟨h.told, h'.told⟩

/-- From `s` to `t` events were added that, played back, leave the tokens of the active frame under
the lists `above`. The frames around it are the same. -/
structure Recorded (g : Grammar) (s t : Session) (events : List Event)
    (above : List (List Token)) : Prop extends Notes g s t events where
  outer : t.outer = s.outer
  replayed : replayTokens events [s.active.tokens.toList] =
    some (above ++ [t.active.tokens.toList])

/-- An outcome with what it put on record. One that is a value leaves a nested record and no lists
of its own. -/
structure Logged (g : Grammar) (allowed : GrammarError → Prop) (s : Session)
    (answer : Except (Stop ScanError) α) (t : Session) : Prop where
  lacking : ∀ e, answer = .error (.error (.grammar e)) → allowed e
  recorded : ∃ events above, Recorded g s t events above ∧
    ∀ a, answer = .ok a → above = [] ∧ Nested events

/-- From all sessions on, a computation keeps its record, and it fails with the errors of the
grammar that are allowed. -/
def Logs (g : Grammar) (allowed : GrammarError → Prop) (x : Scanning α) : Prop :=
  ∀ s, Ensures x s (Logged g allowed s)

/-- Where neither frames nor tokens nor events changed there is nothing on record. -/
theorem Recorded.quiet (houter : t.outer = s.outer) (hevents : t.events = s.events)
    (htokens : t.active.tokens = s.active.tokens) : Recorded g s t [] [] where
  toNotes := .of_eq hevents
  outer := houter
  replayed := by
    rw [htokens]
    rfl

theorem Recorded.trans {above : List (List Token)} (h : Recorded g s t events [])
    (h' : Recorded g t u more above) : Recorded g s u (events ++ more) above where
  toNotes := h.toNotes.trans h'.toNotes
  outer := h'.outer.trans h.outer
  replayed := replay_append_of_eq h.replayed h'.replayed

theorem Logged.quiet {answer : Except (Stop ScanError) α}
    (hlacking : ∀ e, answer = .error (.error (.grammar e)) → allowed e)
    (houter : t.outer = s.outer) (hevents : t.events = s.events)
    (htokens : t.active.tokens = s.active.tokens) : Logged g allowed s answer t :=
  ⟨hlacking, [], [], .quiet houter hevents htokens, fun _ _ => ⟨rfl, .nil⟩⟩

/-- A stop may take the place of another outcome. -/
theorem Logged.stop {answer : Except (Stop ScanError) α} (h : Logged g allowed s answer t)
    {stop : Stop ScanError} (hlacking : ∀ e, stop = .error (.grammar e) → allowed e) :
    Logged g allowed s (.error stop : Except (Stop ScanError) β) t := by
  obtain ⟨events, above, hrecorded, -⟩ := h.recorded
  exact ⟨fun e he => hlacking e (Except.error.inj he), events, above, hrecorded, nofun⟩

/-- What comes after a nested record is put down after it. -/
theorem Logged.after {answer : Except (Stop ScanError) α}
    (h : Recorded g s t events []) (hnested : Nested events) (h' : Logged g allowed t answer u) :
    Logged g allowed s answer u := by
  obtain ⟨more, above, hrecorded, hok⟩ := h'.recorded
  refine ⟨h'.lacking, events ++ more, above, h.trans hrecorded, fun a ha => ?_⟩
  obtain ⟨habove, hmore⟩ := hok a ha
  exact ⟨habove, hnested.append hmore⟩

/-- An outcome that is a value leaves nothing open. -/
theorem Logged.of_ok {a : α} (h : Logged g allowed s (.ok a) t) :
    ∃ events, Recorded g s t events [] ∧ Nested events := by
  obtain ⟨events, above, hrecorded, hok⟩ := h.recorded
  obtain ⟨rfl, hnested⟩ := hok a rfl
  exact ⟨events, hrecorded, hnested⟩

namespace Logs

theorem bind {x : Scanning α} {f : α → Scanning β} (hx : Logs g allowed x)
    (hf : ∀ a, Logs g allowed (f a)) : Logs g allowed (x >>= f) := by
  intro s
  refine (hx s).bind (fun stop t h => ?_) fun a t h => ?_
  · exact h.stop fun e he => h.lacking e (congrArg Except.error he)
  · obtain ⟨events, hrecorded, hnested⟩ := h.of_ok
    exact (hf a t).mono fun answer u h' => h'.after hrecorded hnested

theorem pure (a : α) : Logs g allowed (pure a : Scanning α) :=
  fun _ => .quiet nofun rfl rfl rfl

theorem throw {stop : Stop ScanError} (h : ∀ e, stop = .error (.grammar e) → allowed e) :
    Logs g allowed (throw stop : Scanning α) :=
  fun _ => .quiet (fun e he => h e (Except.error.inj he)) rfl rfl rfl

/-- What comes after the session was read may go on with any session. -/
theorem get_bind {f : Session → Scanning β} (h : ∀ s, Logs g allowed (f s)) :
    Logs g allowed (get >>= f) := fun s => h s s

/-- A change that leaves frames, tokens and events alone. -/
theorem modify {change : Session → Session} (houter : ∀ s, (change s).outer = s.outer)
    (hevents : ∀ s, (change s).events = s.events)
    (htokens : ∀ s, (change s).active.tokens = s.active.tokens) :
    Logs g allowed (modify change : Scanning PUnit) :=
  fun s => .quiet nofun (houter s) (hevents s) (htokens s)

theorem mono {allowed' : GrammarError → Prop} {x : Scanning α} (h : Logs g allowed x)
    (hle : ∀ e, allowed e → allowed' e) : Logs g allowed' x :=
  fun s => ⟨fun e he => hle e ((h s).lacking e he), (h s).recorded⟩

end Logs

/-! ## The steps of a scan -/

theorem noteFailure_logs (position : Nat) : Logs g allowed (noteFailure position) :=
  .modify (fun _ => rfl) (fun _ => rfl) fun _ => rfl

theorem emit_logs {id : StateId} {token : TokenId} (hlabel : g.labelOf? id = some token) :
    Logs g allowed (emit id token) := by
  intro s
  unfold Ensures
  by_cases h : s.active.start < s.active.current
  · rw [emit_pending h]
    refine ⟨nofun, [.emitted id ⟨token, s.active.pending⟩], [], ⟨.push rfl hlabel, rfl, ?_⟩, ?_⟩
    · rw [Array.toList_push]
      rfl
    · exact fun _ _ => ⟨rfl, .emitted id _ .nil⟩
  · rw [emit_nothing h]
    exact .quiet nofun rfl rfl rfl

theorem emitOwn_logs {id : StateId} {token : Option TokenId} (hlabel : g.labelOf? id = token) :
    Logs g allowed (emitOwn id token) := by
  cases token with
  | none => exact .pure _
  | some token => exact emit_logs hlabel

theorem moveTo_logs (position : Nat) : Logs g allowed (moveTo position) := by
  intro s
  unfold Ensures
  rw [moveTo_apply]
  cases s.scanner.moveTo position with
  | error f => exact .quiet nofun rfl rfl rfl
  | ok scanner => exact .quiet nofun rfl rfl rfl

/-- Rules look nothing up in the grammar. -/
theorem rule_evaluate_ne_grammar {rule : Rule} {id : RuleId} {scanner : Scanner} {memo : Memo}
    {e : GrammarError} : (rule.evaluate id scanner memo).1 ≠ .error (.error (.grammar e)) := by
  unfold Rule.evaluate
  split
  · nofun
  · split
    · split <;> nofun
    · split
      · nofun
      · split <;> nofun

theorem evaluate_logs (rule : Rule) (id : RuleId) : Logs g allowed (evaluate rule id) := by
  intro s
  have hne := @rule_evaluate_ne_grammar rule id s.scanner s.memo
  unfold Ensures evaluate
  revert hne
  rcases rule.evaluate id s.scanner s.memo with ⟨stop | ⟨result, scanner⟩, memo⟩
  · intro hne
    refine .quiet (fun e he => absurd ?_ (@hne e)) rfl rfl rfl
    rw [← Except.error.inj he]
  · exact fun _ => .quiet nofun rfl rfl rfl

theorem checkSynced_logs : Logs g allowed checkSynced := by
  refine .get_bind fun s => ?_
  split
  · exact .pure _
  · exact .throw nofun

/-- A look-up changes nothing, and what comes after it may rely on what was found. -/
theorem ofResult_bind_logs {result : Except GrammarError α} {f : α → Scanning β}
    (stop : ∀ e, result = .error e → allowed e) (go : ∀ a, result = .ok a → Logs g allowed (f a)) :
    Logs g allowed (Action.ofResult (result.mapError .grammar) >>= f) := by
  cases result with
  | error e =>
    intro s
    refine .quiet (fun e' he => ?_) rfl rfl rfl
    cases he
    exact stop e rfl
  | ok a => exact go a rfl

/-! ## Going on and the kinds of states -/

section Visit

variable {scan : StateId → Scanning Bool} {id : StateId} {node : Node}

theorem firstOf_logs {ids : List StateId} (h : ∀ id ∈ ids, Logs g allowed (scan id)) :
    Logs g allowed (firstOf scan ids) := by
  induction ids with
  | nil => exact .pure _
  | cons id ids ih =>
    rw [List.forall_mem_cons] at h
    refine h.1.bind fun found => ?_
    cases found with
    | true => exact .pure _
    | false => exact ih h.2

theorem goOn_logs (h : ∀ j ∈ node.branches, Logs g allowed (scan j)) :
    Logs g allowed (goOn scan node) := by
  refine .get_bind fun s => ?_
  split
  · exact .pure _
  · exact (firstOf_logs h).bind fun _ => .pure _

theorem scanTerminal_logs (hnode : g.graph.node? id = some node) {ruleId : RuleId}
    (hkind : node.kind = .terminal ruleId)
    (hlacks : g.rules.get? ruleId = none → allowed (.unknownRule ruleId))
    (hbranches : ∀ j ∈ node.branches, Logs g allowed (scan j)) :
    Logs g allowed (scanTerminal g scan id node ruleId) := by
  refine ofResult_bind_logs (fun e he => ?_) fun rule hrule => ?_
  · obtain ⟨hmissing, rfl⟩ := RuleTable.get_eq_error_iff.1 he
    exact hlacks hmissing
  have hlabel := Grammar.labelOf?_terminal hnode hkind (RuleTable.get_eq_ok_iff.1 hrule)
  refine checkSynced_logs.bind fun _ => (evaluate_logs rule ruleId).bind fun result => ?_
  cases result with
  | success span =>
    refine Logs.bind (.modify (fun _ => rfl) (fun _ => rfl) fun _ => rfl) fun _ => ?_
    exact (emit_logs hlabel).bind fun _ => (goOn_logs hbranches).bind fun _ => .pure _
  | failure position => exact (noteFailure_logs position).bind fun _ => .pure _

/-! ### Repetitions -/

/-- What work in the frame of a repetition puts on record, around which are the frames `parent` and
`rest`. After an ordinary end the frame is still there. A stop has dropped it, and the lists that
are left on the stack are whatever they are. -/
def InRounds (g : Grammar) (allowed : GrammarError → Prop) (parent : Frame) (rest : List Frame)
    (ended : α → List Event → List (List Token) → Session → Prop) (s : Session)
    (answer : Except (Stop ScanError) α) (t : Session) : Prop :=
  ∃ events stack, Notes g s t events ∧ replayTokens events [[]] = some stack ∧
    match answer with
    | .ok a => t.outer = parent :: rest ∧ ended a events stack t
    | .error stop => t.outer = rest ∧ t.active.tokens = parent.tokens ∧
        ∀ e, stop = .error (.grammar e) → allowed e

/-- The rounds after the first `done` are on record, and leave one list. -/
structure Counted (id : StateId) (max : Option UInt32) (done counted : Nat) (events : List Event)
    (stack : List (List Token)) : Prop where
  rounds : Rounds id done events counted
  single : stack.length = 1
  bounded : ∀ m ∈ max, done ≤ m.toNat → counted ≤ m.toNat

variable {parent : Frame} {rest : List Frame}

/-- The scan of a round. -/
theorem orDrop_logged {child : StateId} (hchild : Logs g allowed (scan child))
    (htokens : s.active.tokens = #[]) (houter : s.outer = parent :: rest) :
    Ensures (orDrop (scan child)) s (InRounds g allowed parent rest
      (fun _ events stack t => Nested events ∧ stack = [t.active.tokens.toList]) s) := by
  have hlogged := hchild s
  unfold Ensures at hlogged ⊢
  rcases hanswer : scan child s with ⟨stop | found, t⟩
  · rw [hanswer] at hlogged
    obtain ⟨events, above, hrecorded, -⟩ := hlogged.recorded
    have hreplayed := hrecorded.replayed
    have hparent := hrecorded.outer.trans houter
    rw [htokens] at hreplayed
    rw [orDrop_of_error hanswer (hparent ▸ List.cons_ne_nil _ _), pop_apply hparent]
    refine ⟨events, _, ⟨hrecorded.appended, hrecorded.told⟩, hreplayed, rfl, rfl, fun e he => ?_⟩
    exact hlogged.lacking e (congrArg Except.error he)
  · rw [hanswer] at hlogged
    obtain ⟨events, hrecorded, hnested⟩ := hlogged.of_ok
    have hreplayed := hrecorded.replayed
    rw [htokens] at hreplayed
    rw [orDrop_of_ok hanswer]
    exact ⟨events, _, hrecorded.toNotes, hreplayed, hrecorded.outer.trans houter, hnested, rfl⟩

/-- What one round and those after it put on record comes after one another. -/
theorem InRounds.after {ended ended' : α → List Event → List (List Token) → Session → Prop}
    {answer : Except (Stop ScanError) α} (hnotes : Notes g s t events)
    (hreplayed : replayTokens events [[]] = some [[]])
    (h : InRounds g allowed parent rest ended t answer u)
    (hended : ∀ a more stack, ended a more stack u → ended' a (events ++ more) stack u) :
    InRounds g allowed parent rest ended' s answer u := by
  obtain ⟨more, stack, hmore, hplayed, hanswer⟩ := h
  refine ⟨events ++ more, stack, hnotes.trans hmore, replay_append_of_eq hreplayed hplayed, ?_⟩
  cases answer with
  | error stop => exact hanswer
  | ok a => exact ⟨hanswer.1, hended a more stack hanswer.2⟩

/-- A repetition that has more rounds than it counted has not reached its maximum. -/
theorem lt_of_not_over {max : Option UInt32} {done : Nat}
    (h : ¬ (max.any (·.toNat ≤ done) || s.atEnd) = true) : ∀ m ∈ max, done < m.toNat := by
  intro m hm
  by_contra hle
  apply h
  rw [Option.mem_def.1 hm]
  simp [Nat.le_of_not_lt hle]

/-- What the round after the first `done` puts on record. If it does not count it is the last one;
if it does, it leaves an empty list, and others may follow. -/
def Turned (id : StateId) (max : Option UInt32) (done : Nat) (counts : Bool) (events : List Event)
    (stack : List (List Token)) (t : Session) : Prop :=
  match counts with
  | false => Rounds id done events done ∧ stack.length = 1
  | true => stack = [[]] ∧ t.active.tokens = #[] ∧ (∀ m ∈ max, done < m.toNat) ∧
      ∀ more counted, Rounds id (done + 1) more counted → Rounds id done (events ++ more) counted

theorem oneRound_logged {child : StateId} (hchild : Logs g allowed (scan child)) (id : StateId)
    (max : Option UInt32) (done : Nat) (htokens : s.active.tokens = #[])
    (houter : s.outer = parent :: rest) :
    Ensures (oneRound scan id child max done) s
      (InRounds g allowed parent rest (Turned id max done) s) := by
  refine Ensures.get_bind ?_
  by_cases hlast : (max.any (·.toNat ≤ done) || s.atEnd) = true
  · rw [if_pos hlast]
    exact Ensures.pure ⟨[], [[]], .of_eq rfl, rfl, houter, .over id done, rfl⟩
  rw [if_neg hlast]
  refine Ensures.get_bind (Ensures.modify_bind ?_)
  have hbefore : Notes g s (s.noted (.beforeChild id done)) [.beforeChild id done] :=
    .push rfl trivial
  refine (orDrop_logged (s := s.noted (.beforeChild id done)) hchild htokens houter).bind ?_ ?_
  · rintro stop t ⟨events, stack, hnotes, hreplayed, hstop⟩
    exact ⟨_, stack, hbefore.trans hnotes, hreplayed, hstop⟩
  rintro found t ⟨events, _, hnotes, hreplayed, hparent, hnested, rfl⟩
  have htold := hbefore.trans hnotes
  refine Ensures.get_bind (Ensures.modify_bind (Ensures.get_bind ?_))
  split
  · have hafter : Notes g t (t.noted (.afterChild id done t.active.tokens.size)) _ :=
      .push rfl trivial
    refine Ensures.pure ⟨_, [t.active.tokens.toList], htold.trans hafter,
      replay_append_of_eq hreplayed rfl, hparent, ?_, rfl⟩
    rw [← Array.length_toList]
    exact .last hnested hreplayed
  · refine Ensures.modify_bind (Ensures.modify_bind (Ensures.modify_bind (Ensures.pure ?_)))
    have hcleared : Notes g t (t.cleared id done) [.afterChild id done t.active.tokens.size,
        .beforeClear id, .afterClear id (done + 1)] := by
      refine ⟨?_, by simp [Grammar.Tells]⟩
      simp only [cleared, Array.toList_push, List.append_assoc]
      rfl
    refine ⟨_, [[]], htold.trans hcleared, replay_append_of_eq hreplayed rfl, hparent, rfl, rfl,
      lt_of_not_over hlast, fun more counted hmore => ?_⟩
    have hcounts := Rounds.counts hnested hreplayed hmore
    simpa using hcounts

theorem rounds_logged {child : StateId} (hchild : Logs g allowed (scan child)) (id : StateId)
    (max : Option UInt32) (fuel done : Nat) (htokens : s.active.tokens = #[])
    (houter : s.outer = parent :: rest) :
    Ensures (rounds scan id child max fuel done) s (InRounds g allowed parent rest
      (fun counted events stack _ => Counted id max done counted events stack) s) := by
  induction fuel generalizing s done with
  | zero =>
    exact Ensures.pure ⟨[], [[]], .of_eq rfl, rfl, houter, .over id done, rfl, fun _ _ h => h⟩
  | succ fuel ih =>
    refine (oneRound_logged hchild id max done htokens houter).bind (fun _ _ h => h) ?_
    rintro counts t ⟨events, stack, hnotes, hreplayed, hparent, hturned⟩
    cases counts with
    | false =>
      obtain ⟨hrounds, hsingle⟩ := hturned
      exact Ensures.pure ⟨events, stack, hnotes, hreplayed, hparent, hrounds, hsingle,
        fun _ _ h => h⟩
    | true =>
      obtain ⟨rfl, hcleared, hlt, hmore⟩ := hturned
      refine Ensures.mono (ih (done + 1) hcleared hparent) fun answer u hrest => ?_
      refine hrest.after hnotes hreplayed fun counted more stack h => ?_
      exact ⟨hmore more counted h.rounds, h.single, fun m hm _ => h.bounded m hm (hlt m hm)⟩

/-- All rounds together leave the frame that they were begun from as it was. -/
theorem runRounds_logged {child : StateId} (hchild : Logs g allowed (scan child)) (id : StateId)
    (max : Option UInt32) (s : Session) :
    Ensures (runRounds scan id child max) s fun answer t =>
      t.outer = s.outer ∧ t.active.tokens = s.active.tokens ∧
      ∃ events stack, replayTokens events [[]] = some stack ∧ match answer with
        | .ok counted => Notes g s t (events ++ [.beforePop id, .afterPop id]) ∧
            Counted id max 0 counted events stack
        | .error stop => Notes g s t events ∧ ∀ e, stop = .error (.grammar e) → allowed e := by
  refine Ensures.modify_bind (Ensures.get_bind ?_)
  have hrounds := rounds_logged (s := s.pushed) hchild id max s.pushed.scanner.bytesLeft 0 rfl rfl
  refine hrounds.bind ?_ ?_
  · rintro stop t ⟨events, stack, hnotes, hreplayed, houter, htokens, hlacking⟩
    exact ⟨houter, htokens, events, stack, hreplayed, ⟨hnotes.appended, hnotes.told⟩, hlacking⟩
  rintro counted t ⟨events, stack, hnotes, hreplayed, houter, hcounted⟩
  have hrounds : Notes g s t events := ⟨hnotes.appended, hnotes.told⟩
  have hpop := pop_apply (s := t.noted (.beforePop id)) houter false
  refine Ensures.modify_bind ?_
  unfold Ensures
  rw [Attempt.bind_apply, show pop false { t with events := t.events.push (.beforePop id) } = _
    from hpop]
  refine ⟨rfl, rfl, events, stack, hreplayed, hrounds.trans ⟨?_, by simp [Grammar.Tells]⟩, hcounted⟩
  show ((t.events.push _).push _).toList = _
  simp only [Array.toList_push, List.append_assoc]
  rfl

theorem fallBack_logs (entry : Nat) : Logs g allowed (fallBack entry) := by
  refine .get_bind fun s => ?_
  split
  · exact moveTo_logs entry
  · exact .pure _

theorem conclude_logs (hlabel : g.labelOf? id = node.token) (entry : Nat) (satisfied : Bool)
    (hbranches : ∀ j ∈ node.branches, Logs g allowed (scan j)) :
    Logs g allowed (conclude scan id node entry satisfied) := by
  cases satisfied with
  | true => exact (emitOwn_logs hlabel).bind fun _ => goOn_logs hbranches
  | false => exact fallBack_logs entry

/-- A repetition puts its rounds on record between its beginning and its end. -/
theorem scanRepetition_logs (hnode : g.graph.node? id = some node) {child : StateId} {min : UInt32}
    {max : Option UInt32} (hkind : node.kind = .repetition child min max)
    (hchild : Logs g allowed (scan child))
    (hbranches : ∀ j ∈ node.branches, Logs g allowed (scan j)) :
    Logs g allowed (scanRepetition scan id node child min max) := by
  intro s
  have henter : Notes g s (s.noted (.enter id min max)) [.enter id min max] :=
    .push rfl ⟨node, child, hnode, hkind⟩
  refine Ensures.modify_bind (Ensures.get_bind ?_)
  refine (runRounds_logged hchild id max (s.noted (.enter id min max))).bind ?_ ?_
  · rintro stop t ⟨houter, htokens, events, stack, hreplayed, hnotes, hlacking⟩
    -- the lists that the rounds left are above that of the frame
    have hunder := replay_under hreplayed [s.active.tokens.toList]
    refine ⟨fun e he => hlacking e (Except.error.inj he), _, stack,
      ⟨henter.trans hnotes, houter, ?_⟩, nofun⟩
    rw [htokens]
    exact hunder
  rintro counted t ⟨houter, htokens, events, stack, hreplayed, hnotes, hcounted⟩
  obtain ⟨top, rfl⟩ := List.length_eq_one_iff.1 hcounted.single
  refine Ensures.modify_bind ?_
  have hexit : Notes g t (t.noted (.exit id counted (decide (min.toNat ≤ counted)))) _ :=
    .push rfl trivial
  have hplayed : replayTokens ([.enter id min max] ++ (events ++ [.beforePop id, .afterPop id]) ++
      [.exit id counted (decide (min.toNat ≤ counted))]) [s.active.tokens.toList] =
      some [t.active.tokens.toList] := by
    rw [htokens, List.append_assoc, List.append_assoc]
    have hinner := replay_under hreplayed [s.active.tokens.toList]
    exact replay_append_of_eq rfl (replay_append_of_eq hinner rfl)
  have hnested : Nested ([.enter id min max] ++ (events ++ [.beforePop id, .afterPop id]) ++
      [.exit id counted (decide (min.toNat ≤ counted))]) := by
    rw [List.append_assoc, List.append_assoc]
    exact .repetition min hcounted.rounds (fun m hm => hcounted.bounded m hm (Nat.zero_le _)) .nil
  have hlabel : g.labelOf? id = node.token :=
    Grammar.labelOf?_own hnode fun ruleId h => by simp [hkind] at h
  have hconclude : Logs g allowed (conclude scan id node s.position (decide (min.toNat ≤ counted))) :=
    conclude_logs hlabel s.position _ hbranches
  have hrest := hconclude.bind fun _ => .pure (decide (min.toNat ≤ counted))
  refine (hrest (t.noted (.exit id counted (decide (min.toNat ≤ counted))))).mono ?_
  exact fun answer u h => h.after ⟨(henter.trans hnotes).trans hexit, houter, hplayed⟩ hnested

/-! ### Choices and states -/

theorem scanChoice_logs (hlabel : g.labelOf? id = node.token)
    (hbranches : ∀ j ∈ node.branches, Logs g allowed (scan j)) :
    Logs g allowed (scanChoice scan id node) := by
  refine (firstOf_logs hbranches).bind fun found => ?_
  cases found with
  | true => exact (emitOwn_logs hlabel).bind fun _ => .pure _
  | false => exact .pure _

/-- What the scans of the states that a state names put on record, its own scan adds to. -/
theorem visit_logs (hscan : ∀ j, Logs g (g.Lacks j) (scan j)) (id : StateId) :
    Logs g (g.Lacks id) (visit g scan id) := by
  refine ofResult_bind_logs (fun e he => ?_) fun node hnode => ?_
  · obtain ⟨hmissing, rfl⟩ := Graph.node_eq_error_iff.1 he
    exact .state .refl hmissing
  have hnode := Graph.node_eq_ok_iff.1 hnode
  have hbelow : ∀ j ∈ node.successors, Logs g (g.Lacks id) (scan j) := fun j hj =>
    (hscan j).mono fun e => Grammar.Lacks.of_names ⟨node, hnode, hj⟩
  have hbranches : ∀ j ∈ node.branches, Logs g (g.Lacks id) (scan j) := fun j hj =>
    hbelow j (Node.branch_mem_successors hj)
  split
  · next ruleId hkind => exact scanTerminal_logs hnode hkind (.rule .refl hnode hkind) hbranches
  · next child min max hkind =>
    have hchild := hbelow child (Node.child_mem_successors hkind)
    exact scanRepetition_logs hnode hkind hchild hbranches
  · next hkind =>
    have hlabel := Grammar.labelOf?_own hnode fun ruleId h => by simp [hkind] at h
    exact scanChoice_logs hlabel hbranches

end Visit

/-! ## Scans and runs -/

theorem step_logs : Logs g allowed step := by
  refine Logs.bind (.modify (fun _ => rfl) (fun _ => rfl) fun _ => rfl) fun _ => ?_
  refine .get_bind fun s => ?_
  split
  · split
    · exact .throw nofun
    · exact .pure _
  · exact .pure _

/-- To enter a level and to leave it is nothing for the record. -/
theorem nested_logs {body : Scanning Bool} (hbody : Logs g allowed body) :
    Logs g allowed (nested (fun e => .depthLimit e.limit) body) := by
  intro s
  unfold Ensures
  cases henter : s.guard.enter with
  | error e =>
    rw [nested_refused henter]
    exact .quiet nofun rfl rfl rfl
  | ok inner =>
    obtain ⟨hroom, -⟩ := DepthGuard.enter_eq_ok_iff.1 henter
    have hlogged : Logged g allowed s (body s.deeper).1 (body s.deeper).2 := by
      obtain ⟨hlacking, events, above, hrecorded, hok⟩ := hbody s.deeper
      exact ⟨hlacking, events, above, { hrecorded with }, hok⟩
    rw [nested_entered hroom]
    cases (body s.deeper).2.guard.depth with
    | zero => exact hlogged.stop nofun
    | succ depth =>
      obtain ⟨hlacking, events, above, hrecorded, hok⟩ := hlogged
      exact ⟨hlacking, events, above, { hrecorded with }, hok⟩

theorem scanNested_logs (fuel : Nat) (id : StateId) : Logs g (g.Lacks id) (scanNested g fuel id) := by
  induction fuel generalizing id with
  | zero => exact .throw nofun
  | succ fuel ih => exact step_logs.bind fun _ => nested_logs (visit_logs ih id)

/-- **Scans keep their records.** -/
theorem scan_logs (id : StateId) : Logs g (g.Lacks id) (scan g id) :=
  .get_bind fun _ => scanNested_logs _ id

theorem run_logs (root : StateId) : Logs g (g.Lacks root) (run g root) := by
  have hmoved : ∀ before, Logs g (g.Lacks root) (checkMoved before) := by
    intro before
    refine .get_bind fun s => ?_
    split
    · exact .throw nofun
    · exact .pure _
  have hpasses : ∀ fuel, Logs g (g.Lacks root) (passes g root fuel) := by
    intro fuel
    induction fuel with
    | zero => exact .pure _
    | succ fuel ih =>
      refine .get_bind fun s => ?_
      split
      · exact .pure _
      · exact .get_bind fun s => (scan_logs root).bind fun _ => (hmoved _).bind fun _ => ih
  refine .get_bind fun s => (hpasses _).bind fun _ => fun t => ?_
  unfold Ensures
  rw [checkBalanced_eq]
  split
  · split
    · exact .quiet nofun rfl rfl rfl
    · exact .quiet nofun rfl rfl rfl
  · exact .quiet nofun rfl rfl rfl

end Session

end Lexigraph
