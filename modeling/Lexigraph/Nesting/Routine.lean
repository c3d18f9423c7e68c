/-
# Lexigraph.Nesting.Routine -- what may run under a depth guard

A routine works on a state with a depth guard in it. It ends with a value or an error, takes
a step of its own, which leaves the guard alone, or nests another routine and goes on with
what came of that. How it goes on may depend on all it has seen, an error of a nested routine
included, so a routine is the whole tree of nested calls that a computation can make. What
stands between an `enter` and its `exit` is a nested routine too.

`Routine.noted` is the same routine on a state that also keeps a list of depths. It notes its
depth before each step.
-/

import Lexigraph.Nesting

namespace Lexigraph

open Guarded (guard withGuard)

variable {σ ε ε' α β : Type}

namespace Action

/-- What an action comes to, an error being an answer. A fault is still a fault. -/
def caught (x : Action ε σ α) : Action ε' σ (Except ε α) := fun s =>
  match x s with
  | (.ok a, s) => (.ok (.ok a), s)
  | (.error (.error e), s) => (.ok (.error e), s)
  | (.error (.fault f), s) => (.error (.fault f), s)
  | (.error .endless, s) => (.error .endless, s)

theorem caught_of_eq {x : Action ε σ α} {s t : σ} {answer : Except ε α}
    (h : x s = (answer.mapError .error, t)) :
    (x.caught : Action ε' σ (Except ε α)) s = (.ok answer, t) := by
  unfold caught
  rw [h]
  cases answer <;> rfl

/-- To change a value is to change the value of what is caught. -/
theorem map_eq_caught (x : Action ε σ α) (f : α → β) :
    (do return f (← x) : Action ε σ β) =
      x.caught >>= fun answer => ofResult (answer.map f) := by
  funext s
  rw [Attempt.bind_apply, Attempt.bind_apply]
  unfold caught
  rcases x s with ⟨(e | f | _) | a, t⟩ <;> rfl

theorem ofResult_apply (answer : Except ε α) (s : σ) :
    (ofResult answer : Action ε σ α) s = (answer.mapError .error, s) := by
  cases answer <;> rfl

end Action

/-- A step on a state that leaves the guard in it alone. -/
structure Aside (σ : Type) [Guarded σ] (β : Type) where
  take : StateM σ β
  guard_take : ∀ s, guard (take s).2 = guard s

/-- A computation under a guard, up to its answer. -/
inductive Routine (σ : Type) [Guarded σ] : Type → Type → Type 1 where
  | done {ε α : Type} (answer : Except ε α) : Routine σ ε α
  | work {ε α β : Type} (step : Aside σ β) (next : β → Routine σ ε α) : Routine σ ε α
  /-- Runs `body` one level deeper, or goes on with what `refused` makes of the refusal. -/
  | nest {ε α ε' β : Type} (refused : DepthExceeded → ε') (body : Routine σ ε' β)
      (next : Except ε' β → Routine σ ε α) : Routine σ ε α

/-- Runs a routine. -/
def Routine.run [Guarded σ] {ε α : Type} : Routine σ ε α → Action ε σ α
  | .done answer => Action.ofResult answer
  | .work step next => do
    let b ← liftM step.take
    (next b).run
  | .nest refused body next => do
    let answer ← (nested refused body.run).caught
    (next answer).run

/-! ## Depths noted on the way -/

/-- A state, and the depths noted so far. -/
structure Noted (σ : Type) where
  state : σ
  depths : List Nat := []

instance [Guarded σ] : Guarded (Noted σ) where
  guard s := guard s.state
  withGuard s g := { s with state := withGuard s.state g }

namespace Aside

/-- Notes the depth. -/
def note (σ : Type) [Guarded σ] : Aside (Noted σ) PUnit where
  take s := (⟨⟩, { s with depths := s.depths ++ [(guard s).depth] })
  guard_take _ := rfl

/-- A step that leaves the noted depths alone. -/
def beside [Guarded σ] (step : Aside σ β) : Aside (Noted σ) β where
  take s := ((step.take s.state).1, { s with state := (step.take s.state).2 })
  guard_take s := step.guard_take s.state

end Aside

/-- The routine with its depth noted before each step. -/
def Routine.noted [Guarded σ] {ε α : Type} : Routine σ ε α → Routine (Noted σ) ε α
  | .done answer => .work (.note σ) fun _ => .done answer
  | .work step next => .work (.note σ) fun _ => .work step.beside fun b => (next b).noted
  | .nest refused body next =>
    .work (.note σ) fun _ => .nest refused body.noted fun answer => (next answer).noted

/-! ## A descent as a routine -/

namespace Descent

/-- Puts the depth on the trail. -/
def mark : Aside Descent PUnit where
  take := modify fun d => { d with trail := d.trail.push d.guard.depth }
  guard_take _ := rfl

/-- What a descent runs one level deeper. -/
def routine : Nat → Routine Descent DepthExceeded Nat
  | 0 => .work mark fun _ => .done (.ok 0)
  | levels + 1 =>
    .work mark fun _ => .nest id (routine levels) fun answer => .done (answer.map (· + 1))

/-- A descent is a nested routine. -/
theorem descend_eq_nested (levels : Nat) : descend levels = nested id (routine levels).run := by
  induction levels with
  | zero => rfl
  | succ levels ih =>
    show nested id (do
      modify fun d => { d with trail := d.trail.push d.guard.depth }
      (do return (← descend levels) + 1)) = _
    rw [Action.map_eq_caught, ih]
    rfl

end Descent

end Lexigraph
