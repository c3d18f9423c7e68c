/-
# Lexigraph.Attempt -- changes of a state that can fail

`Attempt ε σ α` changes a state of type `σ` and either answers an `α` or fails with an
`ε`. The state outlives a failure: what was done before it stays done. Run on a state,
an attempt is the pair of its answer and the state it leaves; the `_apply` lemmas give
that pair for the steps that attempts are made of.
-/

namespace Lexigraph

/-- A change of a state `σ` that can fail with an `ε`. -/
abbrev Attempt (ε σ : Type) := ExceptT ε (StateM σ)

namespace Attempt

variable {ε σ τ α β : Type}

/-- Goes on with a result, or fails as it did. -/
def ofExcept : Except ε α → Attempt ε σ α
  | .ok a => pure a
  | .error e => throw e

/-- Works on a part of the state, which `part` takes out and `put` puts back. -/
@[inline] def within (part : σ → τ) (put : σ → τ → σ) (attempt : Attempt ε τ α) :
    Attempt ε σ α := fun s =>
  let (result, t) := attempt (part s)
  (result, put s t)

theorem get_bind_apply (f : σ → Attempt ε σ β) (s : σ) : (get >>= f) s = f s s := rfl

theorem modify_apply (f : σ → σ) (s : σ) : (modify f : Attempt ε σ PUnit) s = (.ok ⟨⟩, f s) := rfl

theorem lift_apply (m : StateM σ α) (s : σ) :
    (liftM m : Attempt ε σ α) s = (.ok (m s).1, (m s).2) := rfl

theorem ofExcept_apply (r : Except ε α) (s : σ) : (ofExcept r : Attempt ε σ α) s = (r, s) := by
  cases r <;> rfl

theorem bind_apply (x : Attempt ε σ α) (f : α → Attempt ε σ β) (s : σ) :
    (x >>= f) s = match x s with
      | (.ok a, s) => f a s
      | (.error e, s) => (.error e, s) := by
  simp only [bind, ExceptT.bind, ExceptT.mk, StateT.bind]
  rcases x s with ⟨_ | _, _⟩ <;> rfl

end Attempt

end Lexigraph
