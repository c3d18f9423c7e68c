/-
# Lexigraph.Nesting -- how deep a computation may nest

A depth guard counts the levels of a nested computation and refuses to go deeper than
its limit. `nested` runs a computation one level deeper: it enters the guard, runs the
body, and leaves the guard whatever became of the body. A refused body is not run.
-/

import Lexigraph.Fault

namespace Lexigraph

/-! ## The guard -/

/-- The nesting depth went past the limit. -/
structure DepthExceeded where
  limit : Nat
  deriving DecidableEq, Repr

/-- The text of a refusal. -/
def DepthExceeded.message (e : DepthExceeded) : String :=
  s!"recursion depth exceeded limit of {e.limit}"

/-- The current nesting depth and the greatest one so far, under an optional limit. -/
structure DepthGuard where
  limit : Option Nat := none
  depth : Nat := 0
  deepest : Nat := 0
  deriving DecidableEq, Repr, Inhabited

namespace DepthGuard

/-- May a computation nest one level deeper? -/
def HasRoom (g : DepthGuard) : Prop := ∀ limit ∈ g.limit, g.depth < limit

/-- One level deeper, unless the limit is reached. -/
def enter (g : DepthGuard) : Except DepthExceeded DepthGuard :=
  let inner := { g with depth := g.depth + 1, deepest := max g.deepest (g.depth + 1) }
  match g.limit with
  | none => .ok inner
  | some limit => if g.depth < limit then .ok inner else .error ⟨limit⟩

/-- One level up again. -/
def exit (g : DepthGuard) : Except Fault DepthGuard :=
  if 0 < g.depth then .ok { g with depth := g.depth - 1 } else .error .unpairedExit

theorem enter_eq_ok_iff {g inner : DepthGuard} :
    g.enter = .ok inner ↔ g.HasRoom ∧
      inner = { g with depth := g.depth + 1, deepest := max g.deepest (g.depth + 1) } := by
  unfold enter HasRoom
  cases g.limit with
  | none => simp [eq_comm]
  | some limit =>
    by_cases h : g.depth < limit <;> simp [h, eq_comm]

theorem HasRoom.exists_enter {g : DepthGuard} (h : g.HasRoom) :
    ∃ inner, g.enter = .ok inner ∧ inner.limit = g.limit ∧ inner.depth = g.depth + 1 :=
  ⟨_, enter_eq_ok_iff.2 ⟨h, rfl⟩, rfl, rfl⟩

theorem enter_eq_error_iff {g : DepthGuard} {e : DepthExceeded} :
    g.enter = .error e ↔ g.limit = some e.limit ∧ e.limit ≤ g.depth := by
  unfold enter
  cases g.limit with
  | none => simp
  | some limit =>
    by_cases h : g.depth < limit
    · simp only [h, if_true, Option.some.injEq]
      exact ⟨nofun, fun ⟨hlimit, hle⟩ => absurd h (Nat.not_lt.2 (hlimit ▸ hle))⟩
    · simp only [h, if_false, Option.some.injEq, Except.error.injEq]
      exact ⟨fun he => he ▸ ⟨rfl, Nat.not_lt.1 h⟩, fun ⟨hlimit, _⟩ => by rw [hlimit]⟩

theorem limit_of_enter_eq_error {g : DepthGuard} {e : DepthExceeded} (h : g.enter = .error e) :
    e.limit ∈ g.limit :=
  (enter_eq_error_iff.1 h).1

end DepthGuard

/-! ## Nested computations -/

/-- A state with a depth guard in it. -/
class Guarded (σ : Type) where
  guard : σ → DepthGuard
  withGuard : σ → DepthGuard → σ

instance : Guarded DepthGuard where
  guard g := g
  withGuard _ g := g

variable {ε σ α : Type} [Guarded σ]

/-- Runs `body` one level deeper and comes back up on every way out of it. When the guard
refuses, the error is `refused` and `body` does not run. -/
@[inline] def nested (refused : DepthExceeded → ε) (body : Action ε σ α) : Action ε σ α := fun s =>
  match (Guarded.guard s).enter with
  | .error e => (.error (.error (refused e)), s)
  | .ok inner =>
    let (result, s) := body (Guarded.withGuard s inner)
    match (Guarded.guard s).exit with
    | .error f => (.error (.fault f), s)
    | .ok outer => (result, Guarded.withGuard s outer)

/-- What the guard refuses does not run. -/
theorem nested_of_enter_error {refused : DepthExceeded → ε} {body : Action ε σ α} {s : σ}
    {e : DepthExceeded} (h : (Guarded.guard s).enter = .error e) :
    nested refused body s = (.error (.error (refused e)), s) := by
  unfold nested
  rw [h]

/-- What the guard lets in runs one level deeper, and the guard comes back up with its answer. -/
theorem nested_of_enter_ok {refused : DepthExceeded → ε} {body : Action ε σ α} {s t : σ}
    {inner : DepthGuard} {answer : Except (Stop ε) α} (henter : (Guarded.guard s).enter = .ok inner)
    (hbody : body (Guarded.withGuard s inner) = (answer, t))
    (hdepth : (Guarded.guard t).depth = inner.depth) :
    nested refused body s = (answer, Guarded.withGuard t
      { Guarded.guard t with depth := (Guarded.guard s).depth }) := by
  obtain ⟨-, rfl⟩ := DepthGuard.enter_eq_ok_iff.1 henter
  have hexit : (Guarded.guard t).exit =
      .ok { Guarded.guard t with depth := (Guarded.guard s).depth } := by
    unfold DepthGuard.exit
    rw [hdepth, if_pos (Nat.succ_pos _)]
    rfl
  unfold nested
  simp only [henter, hbody, hexit]

/-! ## A descent -/

/-- A guard, and the depths visited under it. -/
structure Descent where
  guard : DepthGuard := {}
  trail : Array Nat := #[]

instance : Guarded Descent where
  guard d := d.guard
  withGuard d guard := { d with guard }

/-- Nests `levels` times below the first level and notes each depth on the trail; answers the
number of levels below. -/
def Descent.descend (levels : Nat) : Action DepthExceeded Descent Nat :=
  nested id do
    modify fun d => { d with trail := d.trail.push d.guard.depth }
    match levels with
    | 0 => return 0
    | levels + 1 => return (← descend levels) + 1

end Lexigraph
