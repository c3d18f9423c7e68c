/-
# Lexigraph.Proofs.Session.Tame -- what every part of a scan keeps

Limits, nesting and steps are the business of two places: a step is counted, and a level is
entered, where a state begins to be scanned. All the rest of a scan leaves them alone and
stops for reasons of its own. So what is said about them alone is kept by the rest of a scan
(`visit_stays`), whatever it is, and has to be looked at where a state begins to be scanned
and nowhere else (`scanNested_succ_stays`).
-/

import Lexigraph.Proofs.Session.Scanned

namespace Lexigraph.Session

open Attempt (Stays Keeps Ensures)

/-- A stop for a reason that has nothing to do with limits or with nesting. -/
inductive Ordinary : Stop ScanError → Prop where
  | fault (f : Fault) : Ordinary (.fault f)
  | unexpectedEnd (position : Nat) : Ordinary (.error (.unexpectedEnd position))
  | nothingMatched (furthest : Nat) : Ordinary (.error (.nothingMatched furthest))
  | grammar (e : GrammarError) : Ordinary (.error (.grammar e))

/-- What is said of a session says something of its limits, its nesting and its steps alone. -/
def Lasting (inv : Session → Prop) : Prop :=
  ∀ s s', inv s → s'.settings = s.settings → s'.guard = s.guard → s'.steps = s.steps → inv s'

/-- What is said of sessions says something of limits, nesting and steps alone, and no ordinary
stop is ruled out. -/
structure Tame (inv : Session → Prop) (allowed : Stop ScanError → Prop) : Prop where
  lasting : Lasting inv
  ordinary : ∀ stop, Ordinary stop → allowed stop

variable {inv inner : Session → Prop} {allowed : Stop ScanError → Prop} {g : Grammar} {s : Session}

/-! ## The steps of a scan -/

theorem note_stays (h : Tame inv allowed) (event : Event) : Stays inv allowed (note event) :=
  .modify fun s hs => h.lasting s _ hs rfl rfl rfl

theorem push_stays (h : Tame inv allowed) : Stays inv allowed push :=
  .modify fun s hs => h.lasting s _ hs rfl rfl rfl

theorem clearTokens_stays (h : Tame inv allowed) : Stays inv allowed clearTokens :=
  .modify fun s hs => h.lasting s _ hs rfl rfl rfl

theorem noteFailure_stays (h : Tame inv allowed) (position : Nat) :
    Stays inv allowed (noteFailure position) :=
  .modify fun s hs => h.lasting s _ hs rfl rfl rfl

theorem pop_stays (h : Tame inv allowed) (publish : Bool) : Stays inv allowed (pop publish) := by
  refine .get_bind fun s _ => ?_
  cases s.outer with
  | nil => exact .throw (h.ordinary _ (.fault _))
  | cons parent outer => exact .modify fun s hs => h.lasting s _ hs rfl rfl rfl

theorem orDrop_stays {α : Type} (h : Tame inv allowed) {body : Scanning α}
    (hbody : Stays inv allowed body) : Stays inv allowed (orDrop body) := by
  intro s hs
  have hs' := hbody s hs
  unfold orDrop
  revert hs'
  rcases body s with ⟨answer, s'⟩
  rintro ⟨hanswer, hs'⟩
  cases answer with
  | error e => exact ((pop_stays h false).bind fun _ => .throw (hanswer e rfl)) s' hs'
  | ok a => exact ⟨hanswer, hs'⟩

theorem emit_stays (h : Tame inv allowed) (id : StateId) (token : TokenId) :
    Stays inv allowed (emit id token) := by
  refine .modify fun s hs => ?_
  split
  · exact h.lasting s _ hs rfl rfl rfl
  · exact hs

theorem emitOwn_stays (h : Tame inv allowed) (id : StateId) (token : Option TokenId) :
    Stays inv allowed (emitOwn id token) := by
  cases token with
  | none => exact .pure _
  | some token => exact emit_stays h id token

theorem moveTo_stays (h : Tame inv allowed) (position : Nat) :
    Stays inv allowed (moveTo position) := by
  intro s hs
  rw [moveTo_apply]
  cases s.scanner.moveTo position with
  | error f => exact ⟨fun e he => Except.error.inj he ▸ h.ordinary _ (.fault f), hs⟩
  | ok scanner => exact ⟨nofun, h.lasting s _ hs rfl rfl rfl⟩

/-- A rule that is not evaluated was at the end of the source, or broke a promise. -/
theorem rule_evaluate_ordinary {rule : Rule} {id : RuleId} {scanner : Scanner} {memo : Memo}
    {stop : Stop ScanError} (h : (rule.evaluate id scanner memo).1 = .error stop) :
    Ordinary stop := by
  unfold Rule.evaluate at h
  split at h
  · exact Except.error.inj h ▸ .unexpectedEnd _
  · split at h
    · split at h
      · exact Except.error.inj h ▸ .fault _
      · nomatch h
    · split at h
      · exact Except.error.inj h ▸ .fault _
      · split at h
        · exact Except.error.inj h ▸ .fault _
        · nomatch h

theorem evaluate_stays (h : Tame inv allowed) (rule : Rule) (id : RuleId) :
    Stays inv allowed (evaluate rule id) := by
  intro s hs
  have hordinary := @rule_evaluate_ordinary rule id s.scanner s.memo
  unfold evaluate
  revert hordinary
  rcases rule.evaluate id s.scanner s.memo with ⟨stop | ⟨result, scanner⟩, memo⟩
  · intro hordinary
    refine ⟨fun e he => h.ordinary e (hordinary ?_), h.lasting s _ hs rfl rfl rfl⟩
    rw [← Except.error.inj he]
  · exact fun _ => ⟨nofun, h.lasting s _ hs rfl rfl rfl⟩

theorem ofResult_bind_stays {α β : Type} (h : Tame inv allowed) {result : Except GrammarError α}
    {f : α → Scanning β} (hf : ∀ a, result = .ok a → Stays inv allowed (f a)) :
    Stays inv allowed (Action.ofResult (result.mapError .grammar) >>= f) := by
  cases result with
  | error e => exact fun s hs => ⟨fun _ he => Except.error.inj he ▸ h.ordinary _ (.grammar e), hs⟩
  | ok a => exact hf a rfl

theorem checkSynced_stays (h : Tame inv allowed) : Stays inv allowed checkSynced := by
  refine .get_bind fun s _ => ?_
  split
  · exact .pure _
  · exact .throw (h.ordinary _ (.fault _))

/-! ## Going on and the kinds of states -/

section Visit

variable {scan : StateId → Scanning Bool}

theorem firstOf_stays {ids : List StateId} (h : ∀ id ∈ ids, Stays inv allowed (scan id)) :
    Stays inv allowed (firstOf scan ids) := by
  induction ids with
  | nil => exact .pure _
  | cons id ids ih =>
    rw [List.forall_mem_cons] at h
    refine h.1.bind fun found => ?_
    cases found with
    | true => exact .pure _
    | false => exact ih h.2

theorem goOn_stays {node : Node} (h : ∀ id ∈ node.branches, Stays inv allowed (scan id)) :
    Stays inv allowed (goOn scan node) := by
  refine .get_bind fun s _ => ?_
  split
  · exact .pure _
  · exact (firstOf_stays h).bind fun _ => .pure _

theorem scanTerminal_stays (h : Tame inv allowed) (id : StateId) {node : Node} (ruleId : RuleId)
    (hbranches : ∀ id ∈ node.branches, Stays inv allowed (scan id)) :
    Stays inv allowed (scanTerminal g scan id node ruleId) := by
  refine ofResult_bind_stays h fun rule _ => (checkSynced_stays h).bind fun _ => ?_
  refine (evaluate_stays h rule ruleId).bind fun result => ?_
  cases result with
  | success span =>
    refine Stays.bind (Stays.modify ?_) fun _ => ?_
    · exact fun s hs => h.lasting s _ hs rfl rfl rfl
    · exact (emit_stays h id _).bind fun _ => (goOn_stays hbranches).bind fun _ => .pure _
  | failure position =>
    exact (noteFailure_stays h position).bind fun _ => .pure _

theorem oneRound_stays (h : Tame inv allowed) (id : StateId) {child : StateId}
    (hchild : Stays inv allowed (scan child)) (max : Option UInt32) (done : Nat) :
    Stays inv allowed (oneRound scan id child max done) := by
  refine .get_bind fun s _ => ?_
  split
  · exact .pure _
  refine .get_bind fun s _ => (note_stays h _).bind fun _ => ?_
  refine (orDrop_stays h hchild).bind fun _ => .get_bind fun s _ => ?_
  refine (note_stays h _).bind fun _ => .get_bind fun s _ => ?_
  split
  · exact .pure _
  refine (note_stays h _).bind fun _ => (clearTokens_stays h).bind fun _ => ?_
  exact (note_stays h _).bind fun _ => .pure _

theorem rounds_stays (h : Tame inv allowed) (id : StateId) {child : StateId}
    (hchild : Stays inv allowed (scan child)) (max : Option UInt32) (fuel done : Nat) :
    Stays inv allowed (rounds scan id child max fuel done) := by
  induction fuel generalizing done with
  | zero => exact .pure _
  | succ fuel ih =>
    refine (oneRound_stays h id hchild max done).bind fun counts => ?_
    cases counts with
    | false => exact .pure _
    | true => exact ih (done + 1)

theorem runRounds_stays (h : Tame inv allowed) (id : StateId) {child : StateId}
    (hchild : Stays inv allowed (scan child)) (max : Option UInt32) :
    Stays inv allowed (runRounds scan id child max) := by
  refine (push_stays h).bind fun _ => .get_bind fun s _ => ?_
  refine (rounds_stays h id hchild max _ 0).bind fun counted => ?_
  refine (note_stays h _).bind fun _ => (pop_stays h false).bind fun _ => ?_
  exact (note_stays h _).bind fun _ => .pure _

theorem fallBack_stays (h : Tame inv allowed) (entry : Nat) :
    Stays inv allowed (fallBack entry) := by
  refine .get_bind fun s _ => ?_
  split
  · exact moveTo_stays h entry
  · exact .pure _

theorem conclude_stays (h : Tame inv allowed) (id : StateId) {node : Node} (entry : Nat)
    (satisfied : Bool) (hbranches : ∀ id ∈ node.branches, Stays inv allowed (scan id)) :
    Stays inv allowed (conclude scan id node entry satisfied) := by
  cases satisfied with
  | true => exact (emitOwn_stays h id node.token).bind fun _ => goOn_stays hbranches
  | false => exact fallBack_stays h entry

theorem scanRepetition_stays (h : Tame inv allowed) (id : StateId) {node : Node} {child : StateId}
    (hchild : Stays inv allowed (scan child)) (min : UInt32) (max : Option UInt32)
    (hbranches : ∀ id ∈ node.branches, Stays inv allowed (scan id)) :
    Stays inv allowed (scanRepetition scan id node child min max) := by
  refine (note_stays h _).bind fun _ => .get_bind fun s _ => ?_
  refine (runRounds_stays h id hchild max).bind fun counted => ?_
  refine (note_stays h _).bind fun _ => ?_
  exact (conclude_stays h id _ _ hbranches).bind fun _ => .pure _

theorem scanChoice_stays (h : Tame inv allowed) (id : StateId) {node : Node}
    (hbranches : ∀ id ∈ node.branches, Stays inv allowed (scan id)) :
    Stays inv allowed (scanChoice scan id node) := by
  refine (firstOf_stays hbranches).bind fun found => ?_
  cases found with
  | false => exact .pure _
  | true => exact (emitOwn_stays h id node.token).bind fun _ => .pure _

/-- What the scans of the states that a state names keep, the rest of its own scan keeps. -/
theorem visit_stays (h : Tame inv allowed) {id : StateId}
    (hscan : ∀ node, g.graph.node? id = some node → ∀ j ∈ node.successors,
      Stays inv allowed (scan j)) :
    Stays inv allowed (visit g scan id) := by
  refine ofResult_bind_stays h fun node hnode => ?_
  have hall := hscan node (Graph.node_eq_ok_iff.1 hnode)
  have hbranches : ∀ j ∈ node.branches, Stays inv allowed (scan j) := fun j hj =>
    hall j (Node.branch_mem_successors hj)
  split
  · exact scanTerminal_stays h id _ hbranches
  · next child min max hkind =>
    have hchild := hall child (Node.child_mem_successors hkind)
    exact scanRepetition_stays h id hchild min max hbranches
  · exact scanChoice_stays h id hbranches

end Visit

/-! ## Steps and nesting -/

/-- The session with a step counted. -/
def stepped (s : Session) : Session := { s with steps := s.steps + 1 }

/-- The session may take one more step. -/
def MayStep (s : Session) : Prop := ∀ limit ∈ s.settings.maxSteps, s.steps < limit

theorem step_of_mayStep (h : s.MayStep) : step s = (.ok ⟨⟩, s.stepped) := by
  unfold step
  rw [Attempt.bind_apply, Attempt.modify_apply]
  show (get >>= _ : Scanning PUnit) s.stepped = _
  rw [Attempt.get_bind_apply]
  cases hlimit : s.stepped.settings.maxSteps with
  | none => rfl
  | some limit => exact congrFun (if_neg (Nat.not_lt.2 (h limit hlimit))) _

/-- A step too many is counted all the same. -/
theorem step_overrun {limit : Nat} (hlimit : s.settings.maxSteps = some limit)
    (h : limit ≤ s.steps) : step s = (.error (.error (.stepLimit limit)), s.stepped) := by
  unfold step
  rw [Attempt.bind_apply, Attempt.modify_apply]
  show (get >>= _ : Scanning PUnit) s.stepped = _
  rw [Attempt.get_bind_apply]
  have hsettings : s.stepped.settings.maxSteps = some limit := hlimit
  rw [hsettings]
  exact congrFun (if_pos (Nat.lt_succ_of_le h)) _

/-- Either the step may be taken or there is a limit that it overruns. -/
theorem mayStep_or_overrun (s : Session) :
    s.MayStep ∨ ∃ limit, s.settings.maxSteps = some limit ∧ limit ≤ s.steps := by
  unfold MayStep
  cases s.settings.maxSteps with
  | none => exact .inl nofun
  | some limit =>
    rcases Nat.lt_or_ge s.steps limit with h | h
    · exact .inl fun _ hlimit => Option.some.inj hlimit ▸ h
    · exact .inr ⟨limit, rfl, h⟩

/-- What holds of a session where a state begins to be scanned, and what holds inside, one level
deeper. Nothing is said of the nesting that would make leaving it a fault. -/
structure Nests (inv inner : Session → Prop) (allowed : Stop ScanError → Prop) : Prop where
  count : ∀ s, inv s → inv s.stepped
  overrun : ∀ s limit, inv s → s.settings.maxSteps = some limit → limit ≤ s.steps →
    allowed (.error (.stepLimit limit))
  refuse : ∀ s limit, inv s → s.guard.limit = some limit → limit ≤ s.guard.depth →
    allowed (.error (.depthLimit limit))
  enter : ∀ s, inv s → s.MayStep → s.guard.HasRoom → inner s.stepped.deeper
  back : ∀ t depth, inner t → t.guard.depth = depth + 1 → inv (t.backAt depth)
  unpaired : ∀ t, inner t → t.guard.depth = 0 → inv t

theorem step_stays (h : Nests inv inner allowed) : Stays inv allowed step := by
  intro s hs
  rcases s.mayStep_or_overrun with hstep | ⟨limit, hlimit, hle⟩
  · rw [step_of_mayStep hstep]
    exact ⟨nofun, h.count s hs⟩
  · rw [step_overrun hlimit hle]
    exact ⟨fun stop he => Except.error.inj he ▸ h.overrun s limit hs hlimit hle, h.count s hs⟩

/-- What is said of sessions stays true whatever steps are counted and levels entered and left. -/
structure Persists (inv : Session → Prop) : Prop where
  lasting : Lasting inv
  stepped : ∀ s, inv s → inv s.stepped
  deeper : ∀ s, inv s → inv s.deeper
  backAt : ∀ s depth, inv s → inv (s.backAt depth)

theorem Persists.tame (h : Persists inv) : Tame inv fun _ => True := ⟨h.lasting, fun _ _ => trivial⟩

theorem Persists.nests (h : Persists inv) : Nests inv inv fun _ => True where
  count := h.stepped
  overrun := fun _ _ _ _ _ => trivial
  refuse := fun _ _ _ _ _ => trivial
  enter := fun s hs _ _ => h.deeper _ (h.stepped s hs)
  back := fun t depth ht _ => h.backAt t depth ht
  unpaired := fun _ ht _ => ht

/-- What a computation keeps inside is kept around it. -/
theorem nested_stays {body : Scanning Bool} (hbody : Stays inner allowed body) (hs : inv s)
    (refuse : ∀ limit, s.guard.limit = some limit → limit ≤ s.guard.depth →
      allowed (.error (.depthLimit limit)))
    (enter : s.guard.HasRoom → inner s.deeper)
    (back : ∀ t depth, inner t → t.guard.depth = depth + 1 → inv (t.backAt depth))
    (fault : allowed (.fault .unpairedExit)) (unpaired : ∀ t, inner t → t.guard.depth = 0 → inv t) :
    Ensures (nested (fun e => .depthLimit e.limit) body) s fun answer t =>
      (∀ stop, answer = .error stop → allowed stop) ∧ inv t := by
  unfold Ensures
  cases henter : s.guard.enter with
  | error e =>
    rw [nested_refused henter]
    obtain ⟨hlimit, hle⟩ := DepthGuard.enter_eq_error_iff.1 henter
    exact ⟨fun stop he => Except.error.inj he ▸ refuse e.limit hlimit hle, hs⟩
  | ok guard =>
    obtain ⟨hroom, rfl⟩ := DepthGuard.enter_eq_ok_iff.1 henter
    obtain ⟨hanswer, ht⟩ := hbody s.deeper (enter hroom)
    rw [nested_entered hroom]
    cases hdepth : (body s.deeper).2.guard.depth with
    | zero => exact ⟨fun stop he => Except.error.inj he ▸ fault, unpaired _ ht hdepth⟩
    | succ depth => exact ⟨hanswer, back _ depth ht hdepth⟩

/-- A scan counts a step and goes one level deeper, and what the scans inside keep is kept. -/
theorem scanNested_succ_stays {fuel : Nat} {id : StateId} (h : Nests inv inner allowed)
    (fault : allowed (.fault .unpairedExit))
    (hvisit : Stays inner allowed (visit g (scanNested g fuel) id)) :
    Stays inv allowed (scanNested g (fuel + 1) id) := by
  intro s hs
  unfold scanNested
  rw [Attempt.bind_apply]
  rcases s.mayStep_or_overrun with hstep | ⟨limit, hlimit, hle⟩
  · rw [step_of_mayStep hstep]
    exact nested_stays hvisit (h.count s hs) (h.refuse _ · (h.count s hs)) (h.enter s hs hstep)
      h.back fault h.unpaired
  · rw [step_overrun hlimit hle]
    refine ⟨fun stop he => ?_, h.count s hs⟩
    exact Except.error.inj he ▸ h.overrun s limit hs hlimit hle

/-! ## Scans and runs -/

/-- What steps and levels keep, every scan keeps. -/
theorem scanNested_keeps (h : Persists inv) (fuel : Nat) (id : StateId) :
    Keeps inv (scanNested g fuel id) := by
  induction fuel generalizing id with
  | zero => exact .throw trivial
  | succ fuel ih =>
    exact scanNested_succ_stays h.nests trivial (visit_stays h.tame fun _ _ j _ => ih j)

theorem checkMoved_stays (h : Tame inv allowed) (before : Nat) :
    Stays inv allowed (checkMoved before) := by
  refine .get_bind fun s _ => ?_
  split
  · exact .throw (h.ordinary _ (.nothingMatched _))
  · exact .pure _

theorem passes_stays (h : Tame inv allowed) {root : StateId} (hscan : Stays inv allowed (scan g root))
    (fuel : Nat) : Stays inv allowed (passes g root fuel) := by
  induction fuel with
  | zero => exact .pure _
  | succ fuel ih =>
    refine .get_bind fun s _ => ?_
    split
    · exact .pure _
    exact .get_bind fun s _ => hscan.bind fun _ => (checkMoved_stays h _).bind fun _ => ih

theorem checkBalanced_stays (h : Tame inv allowed) : Stays inv allowed checkBalanced := by
  have hmarks : Stays inv allowed
      (do unless (← get).scanner.marks.isEmpty do Action.abort .unbalancedMarks : Scanning Unit) := by
    refine .get_bind fun s _ => ?_
    split
    · exact .pure _
    · exact .throw (h.ordinary _ (.fault _))
  refine .get_bind fun s _ => ?_
  by_cases hroot : s.outer.isEmpty = true
  · rw [if_pos hroot]
    exact hmarks
  · rw [if_neg hroot]
    exact Stays.bind (.throw (h.ordinary _ (.fault _))) fun _ => hmarks

theorem run_stays (h : Tame inv allowed) {root : StateId}
    (hscan : Stays inv allowed (scan g root)) : Stays inv allowed (run g root) :=
  .get_bind fun _ _ => (passes_stays h hscan _).bind fun _ => checkBalanced_stays h

end Lexigraph.Session
