/-
# Lexigraph.Proofs.Session.Evaluations -- the evaluations of rules in a session

What a session remembers, how many literals it compared and where rules failed changes in one
place of a scan: where a terminal evaluates its rule before the end of the source. All the rest
is idle in this respect. So what is said about these things alone endures all operations if it
endures an evaluation (`perform_endures`).

`Evaluations` follows a session from one evaluation to the next and lists them in order, each
with its result, where it left the scanner, and how many literals it compared. Whatever
operations are asked of a session, each of the sessions after them is reached by such a list
(`performAll_evaluations`).
-/

import Lexigraph.Proofs.Session.Run
import Lexigraph.Session.Op

namespace Lexigraph.Session

open Attempt (Ensures Keeps Stays)

/-- Nothing was evaluated on the way from `s` to `t`. -/
structure Idle (s t : Session) : Prop where
  source : t.scanner.source = s.scanner.source
  comparisons : t.scanner.comparisons = s.scanner.comparisons
  memo : t.memo = s.memo
  furthest : t.furthest = s.furthest

/-- The session after it took note of a result: a failure may be the furthest one. -/
def noting (result : MatchResult) (s : Session) : Session :=
  match result with
  | .success _ => s
  | .failure position =>
    { s with furthest := some (s.furthest.elim position (max position)) }

@[simp] theorem noting_scanner (result : MatchResult) (s : Session) :
    (s.noting result).scanner = s.scanner := by
  cases result <;> rfl

@[simp] theorem noting_memo (result : MatchResult) (s : Session) :
    (s.noting result).memo = s.memo := by
  cases result <;> rfl

/-- What is said of a session endures all that is idle, and all evaluations of rules of the
grammar with their results noted. -/
structure Endures (g : Grammar) (inv : Session → Prop) : Prop where
  idle : ∀ {s t}, inv s → Idle s t → inv t
  evaluate : ∀ {rule id s}, g.rules.get? id = some rule → inv s →
    Ensures (evaluate rule id) s fun answer t =>
      match answer with
      | .ok result => inv (t.noting result)
      | .error _ => inv t

variable {g : Grammar} {inv : Session → Prop} {s t u : Session} {α β : Type}

/-! ## The steps of a scan -/

/-- An idle change of the session. -/
theorem modify_endures (h : Endures g inv) {change : Session → Session}
    (hidle : ∀ s, Idle s (change s)) : Keeps inv (modify change : Scanning PUnit) :=
  .modify fun s hs => h.idle hs (hidle s)

theorem note_endures (h : Endures g inv) (event : Event) : Keeps inv (note event) :=
  modify_endures h fun _ => ⟨rfl, rfl, rfl, rfl⟩

theorem push_endures (h : Endures g inv) : Keeps inv push :=
  modify_endures h fun _ => ⟨rfl, rfl, rfl, rfl⟩

theorem clearTokens_endures (h : Endures g inv) : Keeps inv clearTokens :=
  modify_endures h fun _ => ⟨rfl, rfl, rfl, rfl⟩

theorem pop_endures (h : Endures g inv) (publish : Bool) : Keeps inv (pop publish) := by
  refine .get_bind fun s _ => ?_
  cases s.outer with
  | nil => exact .throw trivial
  | cons parent outer => exact modify_endures h fun _ => ⟨rfl, rfl, rfl, rfl⟩

theorem orDrop_endures (h : Endures g inv) {body : Scanning α} (hbody : Keeps inv body) :
    Keeps inv (orDrop body) := by
  refine .of_keeps fun s hs => ?_
  have hs' := (hbody s hs).2
  unfold orDrop
  revert hs'
  rcases body s with ⟨answer, s'⟩
  intro hs'
  cases answer with
  | ok a => exact hs'
  | error e => exact ((pop_endures h false).bind fun _ => .throw trivial) s' hs' |>.2

theorem emit_endures (h : Endures g inv) (id : StateId) (token : TokenId) :
    Keeps inv (emit id token) := by
  refine .modify fun s hs => ?_
  split
  · exact h.idle hs ⟨rfl, rfl, rfl, rfl⟩
  · exact hs

theorem emitOwn_endures (h : Endures g inv) (id : StateId) (token : Option TokenId) :
    Keeps inv (emitOwn id token) := by
  cases token with
  | none => exact .pure _
  | some token => exact emit_endures h id token

/-- A scanner that moves stays on its source and compares nothing. -/
theorem source_comparisons_of_moveTo {scanner scanner' : Scanner} {position : Nat}
    (h : scanner.moveTo position = .ok scanner') :
    scanner'.source = scanner.source ∧ scanner'.comparisons = scanner.comparisons := by
  unfold Scanner.moveTo at h
  split at h
  · cases h
  · split at h
    · cases h
      exact ⟨rfl, rfl⟩
    · cases h

theorem moveTo_endures (h : Endures g inv) (position : Nat) : Keeps inv (moveTo position) := by
  refine .of_keeps fun s hs => ?_
  rw [moveTo_apply]
  cases hmove : s.scanner.moveTo position with
  | error f => exact hs
  | ok scanner =>
    obtain ⟨hsource, hcomparisons⟩ := source_comparisons_of_moveTo hmove
    exact h.idle hs ⟨hsource, hcomparisons, rfl, rfl⟩

theorem ofResult_bind_endures {result : Except GrammarError α} {f : α → Scanning β}
    (hf : ∀ a, result = .ok a → Keeps inv (f a)) :
    Keeps inv (Action.ofResult (result.mapError .grammar) >>= f) := by
  cases result with
  | error e => exact .of_keeps fun s hs => hs
  | ok a => exact hf a rfl

theorem checkSynced_endures : Keeps inv checkSynced := by
  refine .get_bind fun s _ => ?_
  split
  · exact .pure _
  · exact .throw trivial

/-! ## Going on and the kinds of states -/

section Visit

variable {scan : StateId → Scanning Bool}

theorem firstOf_endures (hscan : ∀ id, Keeps inv (scan id)) (ids : List StateId) :
    Keeps inv (firstOf scan ids) := by
  induction ids with
  | nil => exact .pure _
  | cons id ids ih =>
    refine (hscan id).bind fun found => ?_
    cases found with
    | true => exact .pure _
    | false => exact ih

theorem goOn_endures (hscan : ∀ id, Keeps inv (scan id)) (node : Node) :
    Keeps inv (goOn scan node) := by
  refine .get_bind fun s _ => ?_
  split
  · exact .pure _
  · exact (firstOf_endures hscan node.branches).bind fun _ => .pure _

/-- A terminal takes note of the result of its rule, and is idle then. -/
theorem scanTerminal_endures (h : Endures g inv) (hscan : ∀ id, Keeps inv (scan id))
    (id : StateId) (node : Node) (ruleId : RuleId) :
    Keeps inv (scanTerminal g scan id node ruleId) := by
  refine ofResult_bind_endures fun rule hrule => checkSynced_endures.bind fun _ => ?_
  refine .of_keeps fun s hs => ?_
  have heval := h.evaluate (RuleTable.get_eq_ok_iff.1 hrule) hs
  unfold Ensures at heval
  rw [Attempt.bind_apply]
  revert heval
  rcases evaluate rule ruleId s with ⟨answer, t⟩
  intro heval
  cases answer with
  | error stop => exact heval
  | ok result =>
    cases result with
    | failure position => exact heval
    | success span =>
      have hmove : Keeps inv (modify fun s : Session =>
          { s with active := { s.active with current := span.stop } } : Scanning PUnit) :=
        modify_endures h fun _ => ⟨rfl, rfl, rfl, rfl⟩
      refine ((hmove.bind fun _ => (emit_endures h id _).bind fun _ => ?_) t heval).2
      exact (goOn_endures hscan node).bind fun _ => .pure _

theorem oneRound_endures (h : Endures g inv) (hscan : ∀ id, Keeps inv (scan id))
    (id child : StateId) (max : Option UInt32) (done : Nat) :
    Keeps inv (oneRound scan id child max done) := by
  refine .get_bind fun s _ => ?_
  split
  · exact .pure _
  refine .get_bind fun s _ => (note_endures h _).bind fun _ => ?_
  refine (orDrop_endures h (hscan child)).bind fun _ => .get_bind fun s _ => ?_
  refine (note_endures h _).bind fun _ => .get_bind fun s _ => ?_
  split
  · exact .pure _
  refine (note_endures h _).bind fun _ => (clearTokens_endures h).bind fun _ => ?_
  exact (note_endures h _).bind fun _ => .pure _

theorem rounds_endures (h : Endures g inv) (hscan : ∀ id, Keeps inv (scan id))
    (id child : StateId) (max : Option UInt32) (fuel done : Nat) :
    Keeps inv (rounds scan id child max fuel done) := by
  induction fuel generalizing done with
  | zero => exact .pure _
  | succ fuel ih =>
    refine (oneRound_endures h hscan id child max done).bind fun counts => ?_
    cases counts with
    | false => exact .pure _
    | true => exact ih (done + 1)

theorem runRounds_endures (h : Endures g inv) (hscan : ∀ id, Keeps inv (scan id))
    (id child : StateId) (max : Option UInt32) : Keeps inv (runRounds scan id child max) := by
  refine (push_endures h).bind fun _ => .get_bind fun s _ => ?_
  refine (rounds_endures h hscan id child max _ 0).bind fun counted => ?_
  refine (note_endures h _).bind fun _ => (pop_endures h false).bind fun _ => ?_
  exact (note_endures h _).bind fun _ => .pure _

theorem conclude_endures (h : Endures g inv) (hscan : ∀ id, Keeps inv (scan id)) (id : StateId)
    (node : Node) (entry : Nat) (satisfied : Bool) :
    Keeps inv (conclude scan id node entry satisfied) := by
  cases satisfied with
  | true => exact (emitOwn_endures h id node.token).bind fun _ => goOn_endures hscan node
  | false =>
    refine .get_bind fun s _ => ?_
    split
    · exact moveTo_endures h entry
    · exact .pure _

theorem scanRepetition_endures (h : Endures g inv) (hscan : ∀ id, Keeps inv (scan id))
    (id : StateId) (node : Node) (child : StateId) (min : UInt32) (max : Option UInt32) :
    Keeps inv (scanRepetition scan id node child min max) := by
  refine (note_endures h _).bind fun _ => .get_bind fun s _ => ?_
  refine (runRounds_endures h hscan id child max).bind fun counted => ?_
  refine (note_endures h _).bind fun _ => ?_
  exact (conclude_endures h hscan id node _ _).bind fun _ => .pure _

theorem scanChoice_endures (h : Endures g inv) (hscan : ∀ id, Keeps inv (scan id)) (id : StateId)
    (node : Node) : Keeps inv (scanChoice scan id node) := by
  refine (firstOf_endures hscan node.branches).bind fun found => ?_
  cases found with
  | false => exact .pure _
  | true => exact (emitOwn_endures h id node.token).bind fun _ => .pure _

theorem visit_endures (h : Endures g inv) (hscan : ∀ id, Keeps inv (scan id)) (id : StateId) :
    Keeps inv (visit g scan id) := by
  refine ofResult_bind_endures fun node _ => ?_
  split
  · exact scanTerminal_endures h hscan id node _
  · exact scanRepetition_endures h hscan id node _ _ _
  · exact scanChoice_endures h hscan id node

end Visit

/-! ## Scans, runs and operations -/

theorem step_endures (h : Endures g inv) : Keeps inv step := by
  have hcount : Keeps inv
      (modify fun s : Session => { s with steps := s.steps + 1 } : Scanning PUnit) :=
    modify_endures h fun _ => ⟨rfl, rfl, rfl, rfl⟩
  refine hcount.bind fun _ => .get_bind fun s _ => ?_
  split
  · split
    · exact .throw trivial
    · exact .pure _
  · exact .pure _

theorem nested_endures (h : Endures g inv) {body : Scanning Bool} (hbody : Keeps inv body) :
    Keeps inv (nested (fun e => .depthLimit e.limit) body) := by
  refine .of_keeps fun s hs => ?_
  cases henter : s.guard.enter with
  | error e =>
    rw [nested_refused henter]
    exact hs
  | ok inner =>
    obtain ⟨hroom, -⟩ := DepthGuard.enter_eq_ok_iff.1 henter
    have ht : inv (body s.deeper).2 := (hbody s.deeper (h.idle hs ⟨rfl, rfl, rfl, rfl⟩)).2
    rw [nested_entered hroom]
    split
    · exact ht
    · exact h.idle ht ⟨rfl, rfl, rfl, rfl⟩

theorem scanNested_endures (h : Endures g inv) (fuel : Nat) (id : StateId) :
    Keeps inv (scanNested g fuel id) := by
  induction fuel generalizing id with
  | zero => exact .throw trivial
  | succ fuel ih => exact (step_endures h).bind fun _ => nested_endures h (visit_endures h ih id)

theorem scan_endures (h : Endures g inv) (id : StateId) : Keeps inv (scan g id) :=
  .get_bind fun _ _ => scanNested_endures h _ id

theorem passes_endures (h : Endures g inv) (root : StateId) (fuel : Nat) :
    Keeps inv (passes g root fuel) := by
  have hmoved : ∀ before, Keeps inv (checkMoved before) := by
    refine fun before => .get_bind fun s _ => ?_
    split
    · exact .throw trivial
    · exact .pure _
  induction fuel with
  | zero => exact .pure _
  | succ fuel ih =>
    refine .get_bind fun s _ => ?_
    split
    · exact .pure _
    · exact .get_bind fun s _ => (scan_endures h root).bind fun _ => (hmoved _).bind fun _ => ih

theorem run_endures (h : Endures g inv) (root : StateId) : Keeps inv (run g root) := by
  refine .get_bind fun s _ => (passes_endures h root _).bind fun _ => ?_
  refine .of_keeps fun s hs => ?_
  rw [checkBalanced_eq]
  exact hs

/-- **What endures evaluations endures every operation.** -/
theorem perform_endures (h : Endures g inv) (op : Op) : Keeps inv (perform g op) := by
  cases op with
  | scan id => exact (scan_endures h id).bind fun _ => .pure _
  | run root => exact (run_endures h root).bind fun _ => .pure _
  | push => exact (push_endures h).bind fun _ => .pure _
  | pop publish => exact (pop_endures h publish).bind fun _ => .pure _

theorem performAll_endures (h : Endures g inv) (ops : List Op) (hs : inv s) :
    ∀ outcome ∈ performAll g ops s, inv outcome.2 := by
  induction ops generalizing s with
  | nil => exact fun _ hnone => absurd hnone List.not_mem_nil
  | cons op ops ih =>
    have ht : inv (perform g op s).2 := (perform_endures h op s hs).2
    exact List.forall_mem_cons.2 ⟨ht, ih ht⟩

/-! ## The evaluations in order -/

/-- An evaluation of a rule before the end of the source: what came out, where the scanner stood
after it, and how many literals it compared. -/
structure Evaluation where
  rule : RuleId
  position : Nat
  result : MatchResult
  stop : Nat
  comparisons : Nat
  deriving DecidableEq, Repr

/-- The evaluation that led from `t` to `u`. -/
def Evaluation.between (rule : RuleId) (result : MatchResult) (t u : Session) : Evaluation where
  rule := rule
  position := t.scanner.position
  result := result
  stop := u.scanner.position
  comparisons := u.scanner.comparisons - t.scanner.comparisons

/-- The evaluations on the way from `s`, in order. Between two of them the session is idle. -/
inductive Evaluations (g : Grammar) (s : Session) : List Evaluation → Session → Prop where
  | none : Evaluations g s [] s
  | idle {log : List Evaluation} {t u : Session} (h : Evaluations g s log t) (hidle : Idle t u) :
      Evaluations g s log u
  | evaluate {log : List Evaluation} {t u : Session} {id : RuleId} {rule : Rule}
      {result : MatchResult} (h : Evaluations g s log t) (hrule : g.rules.get? id = some rule)
      (hleft : t.atEnd = false) (heval : evaluate rule id t = (.ok result, u)) :
      Evaluations g s (log ++ [.between id result t u]) (u.noting result)

variable {log : List Evaluation}

/-- A memo that is right stays right. -/
theorem Evaluations.coherent (h : Evaluations g s log t)
    (hs : s.memo.Coherent g.rules s.scanner.source) :
    t.memo.Coherent g.rules t.scanner.source := by
  induction h with
  | none => exact hs
  | idle _ hidle ih =>
    rw [hidle.memo, hidle.source]
    exact ih
  | evaluate _ hrule hleft heval ih =>
    obtain ⟨scanner, memo, heval', -, hmemo, hleaves⟩ := evaluate_eq_outcome hleft hrule ih
    obtain ⟨-, rfl⟩ := Prod.mk.inj (heval.symm.trans heval')
    rw [noting_memo, noting_scanner]
    show memo.Coherent g.rules scanner.source
    rw [hleaves.source]
    exact hmemo

/-- A rule that is evaluated at the end of the source changes nothing; any other evaluation is one
more. -/
theorem evaluations_endure (hs : s.memo.Coherent g.rules s.scanner.source) :
    Endures g fun t => ∃ log, Evaluations g s log t where
  idle := fun ⟨log, hlog⟩ hidle => ⟨log, hlog.idle hidle⟩
  evaluate := by
    rintro rule id t hrule ⟨log, hlog⟩
    unfold Ensures
    cases hend : t.scanner.atEnd with
    | true =>
      rw [evaluate_atEnd hend]
      exact ⟨log, hlog⟩
    | false =>
      obtain ⟨scanner, memo, heval, -⟩ := evaluate_eq_outcome hend hrule (hlog.coherent hs)
      have hone := hlog.evaluate hrule hend heval
      rw [heval]
      exact ⟨_, hone⟩

/-- **Operations evaluate rules and are idle otherwise.** -/
theorem performAll_evaluations (hs : s.memo.Coherent g.rules s.scanner.source) (ops : List Op) :
    ∀ outcome ∈ performAll g ops s, ∃ log, Evaluations g s log outcome.2 :=
  performAll_endures (evaluations_endure hs) ops ⟨[], .none⟩

end Lexigraph.Session
