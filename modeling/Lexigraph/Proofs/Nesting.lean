/-
# Lexigraph.Proofs.Nesting -- calls nest up to the limit and no further

A nested call gives the guard back at the depth where it found it, whatever happens inside:
an error may come up at any level, and a routine may catch it and go on. What a stretch of a
routine does to the guard is said once (`DepthGuard.Balanced`): for a step, for one stretch
after another, and for one a level deeper. The induction over a routine puts these together
(`Routine.settles`).

Which steps a routine takes is known by the depths that `Routine.noted` notes. Noting changes
neither the answer nor the state. Every body takes a step, so the notes of a call also tell
whether its body ran (`nested_exact`).

A descent does nothing but nest. It gets to each of its levels, or to each up to the limit
(`Descent.descend_of_room`, `Descent.descend_of_limit`).
-/

import Mathlib.Order.Bounds.Basic
import Mathlib.Order.MinMax
import Lexigraph.Nesting.Routine
import Lexigraph.Session

namespace Lexigraph

open Guarded (guard withGuard)

/-- The guard that is put into a state is the guard in it. -/
class LawfulGuarded (σ : Type) [Guarded σ] : Prop where
  guard_withGuard : ∀ (s : σ) (g : DepthGuard), guard (withGuard s g) = g

open LawfulGuarded (guard_withGuard)

instance : LawfulGuarded DepthGuard := ⟨fun _ _ => rfl⟩

instance : LawfulGuarded Descent := ⟨fun _ _ => rfl⟩

instance : LawfulGuarded Session := ⟨fun _ _ => rfl⟩

/-! ## What a stretch does to the guard -/

namespace DepthGuard

theorem isGreatest_of_insert_max {m n greatest : Nat} {depths : Set Nat}
    (h : IsGreatest (insert (max m n) depths) greatest) (hn : n ∈ depths) :
    IsGreatest (insert m depths) greatest := by
  refine ⟨?_, ?_⟩
  · rcases h.1 with rfl | hmem
    · rcases max_choice m n with hmax | hmax
      · exact .inl hmax
      · exact .inr (by rwa [hmax])
    · exact .inr hmem
  · rintro d (rfl | hd)
    · exact (le_max_left _ _).trans (h.2 (Set.mem_insert _ _))
    · exact h.2 (Set.mem_insert_of_mem _ hd)

/-- From one guard to another, with steps at these depths in between: the depth is the same
again, no step is deeper than the limit allows, and the deepest of them is remembered. -/
structure Balanced (g h : DepthGuard) (depths : List Nat) : Prop where
  limit : h.limit = g.limit
  depth : h.depth = g.depth
  /-- Where the guard is past its limit already, it gets no deeper. -/
  within : ∀ limit ∈ g.limit, ∀ d ∈ depths, d ≤ max limit g.depth
  deepest : IsGreatest (insert g.deepest {d | d ∈ depths}) h.deepest

namespace Balanced

variable {g h k inner : DepthGuard} {depths more : List Nat}

theorem refl (g : DepthGuard) : Balanced g g [] where
  limit := rfl
  depth := rfl
  within := by simp
  deepest := by simp

/-- A step where the guard stands, at a depth that it has been to. -/
theorem step (hdepth : g.depth ≤ g.deepest) : Balanced g g [g.depth] where
  limit := rfl
  depth := rfl
  within limit _ := by simp
  deepest := by
    refine ⟨Set.mem_insert _ _, ?_⟩
    rintro d (rfl | hd)
    · exact le_rfl
    · rwa [List.mem_singleton.1 hd]

theorem trans (hgh : Balanced g h depths) (hhk : Balanced h k more) :
    Balanced g k (depths ++ more) where
  limit := hhk.limit.trans hgh.limit
  depth := hhk.depth.trans hgh.depth
  within limit hlimit d hd := by
    rcases List.mem_append.1 hd with hd | hd
    · exact hgh.within limit hlimit d hd
    · have hle := hhk.within limit (hgh.limit ▸ hlimit) d hd
      rwa [hgh.depth] at hle
  deepest := by
    have hle : h.deepest ≤ k.deepest := hhk.deepest.2 (Set.mem_insert _ _)
    refine ⟨?_, ?_⟩
    · rcases hhk.deepest.1 with heq | hmem
      · rw [heq]
        exact Set.insert_subset_insert (fun d hd => List.mem_append_left _ hd) hgh.deepest.1
      · exact Set.mem_insert_of_mem _ (List.mem_append_right _ hmem)
    · rintro d (rfl | hd)
      · exact (hgh.deepest.2 (Set.mem_insert _ _)).trans hle
      · rcases List.mem_append.1 hd with hd | hd
        · exact (hgh.deepest.2 (Set.mem_insert_of_mem _ hd)).trans hle
        · exact hhk.deepest.2 (Set.mem_insert_of_mem _ hd)

/-- The depth stays one that the guard has been to. -/
theorem depth_le_deepest (hgh : Balanced g h depths) (hdepth : g.depth ≤ g.deepest) :
    h.depth ≤ h.deepest := by
  rw [hgh.depth]
  exact hdepth.trans (hgh.deepest.2 (Set.mem_insert _ _))

/-- A stretch one level deeper, with a step there, and the guard back up. -/
theorem entered (henter : g.enter = .ok inner) (hinner : Balanced inner h depths)
    (hmem : inner.depth ∈ depths) : Balanced g { h with depth := g.depth } depths := by
  obtain ⟨hroom, rfl⟩ := enter_eq_ok_iff.1 henter
  refine ⟨hinner.limit, rfl, fun limit hlimit d hd => ?_,
    isGreatest_of_insert_max hinner.deepest hmem⟩
  have hle := hinner.within limit hlimit d hd
  rw [max_eq_left (hroom limit hlimit)] at hle
  exact hle.trans (le_max_left _ _)

end Balanced

end DepthGuard

/-! ## Whole routines -/

section Routines

variable {σ ε ε' α β : Type} [Guarded σ]

namespace Routine

open DepthGuard (Balanced)

/-- After a nested routine, a routine goes on with what came of it. -/
theorem run_nest {refused : DepthExceeded → ε'} {body : Routine σ ε' β}
    {next : Except ε' β → Routine σ ε α} {s t : σ} {answer : Except ε' β}
    (h : nested refused body.run s = (answer.mapError .error, t)) :
    (Routine.nest refused body next).run s = (next answer).run t := by
  have hcaught : ((nested refused body.run).caught : Action ε σ _) s = (.ok answer, t) :=
    Action.caught_of_eq h
  show ((nested refused body.run).caught >>= fun answer => (next answer).run) s = _
  rw [Attempt.bind_apply, hcaught]

/-- A routine that notes its depth first has one more depth on its list. -/
theorem run_note {r : Routine (Noted σ) ε α} {s t : σ} {answer : Except (Stop ε) α}
    {depths : List Nat} (h : ∀ before, r.run ⟨s, before⟩ = (answer, ⟨t, before ++ depths⟩))
    (before : List Nat) : (Routine.work (.note σ) fun _ => r).run ⟨s, before⟩ =
      (answer, ⟨t, before ++ (guard s).depth :: depths⟩) := by
  rw [List.append_cons]
  exact h (before ++ [(guard s).depth])

/-- From `s`, an action comes to an answer, a value or an error, and to the state `t`. Its noted
twin comes to the same and notes the depths. -/
structure Comes (x : Action ε σ α) (noted : Action ε (Noted σ) α) (s : σ) (answer : Except ε α)
    (t : σ) (depths : List Nat) : Prop where
  run : x s = (answer.mapError .error, t)
  noted : ∀ before, noted ⟨s, before⟩ = (answer.mapError .error, ⟨t, before ++ depths⟩)

/-- A nested call is refused and leaves everything as it is, or its body runs one level deeper. -/
inductive Called (refused : DepthExceeded → ε) (body : Routine σ ε α) (s : σ) :
    Except ε α → σ → List Nat → Prop where
  | refused {e : DepthExceeded} (h : (guard s).enter = .error e) :
    Called refused body s (.error (refused e)) s []
  | entered {inner : DepthGuard} {answer : Except ε α} {t : σ} {depths : List Nat}
      (h : (guard s).enter = .ok inner)
      (hbody : body.run (withGuard s inner) = (answer.mapError .error, t))
      (hhead : depths.head? = some inner.depth) :
    Called refused body s answer (withGuard t { guard t with depth := (guard s).depth }) depths

/-- From a guard that has been to its depth, a routine comes to an end with the guard balanced. Its
first step is taken at the depth where it begins. -/
def Settles (r : Routine σ ε α) : Prop :=
  ∀ s : σ, (guard s).depth ≤ (guard s).deepest → ∃ answer t depths,
    Comes r.run r.noted.run s answer t depths ∧ depths.head? = some (guard s).depth ∧
      Balanced (guard s) (guard t) depths

variable [LawfulGuarded σ]

/-- A call of a routine that settles comes to an end with the guard balanced. -/
theorem Settles.called {body : Routine σ ε α} (h : body.Settles) (refused : DepthExceeded → ε)
    (s : σ) : ∃ answer t depths,
      Comes (nested refused body.run) (nested refused body.noted.run) s answer t depths ∧
        Called refused body s answer t depths ∧ Balanced (guard s) (guard t) depths := by
  cases henter : (guard s).enter with
  | error e =>
    refine ⟨.error (refused e), s, [], ⟨nested_of_enter_error henter, fun before => ?_⟩,
      .refused henter, .refl _⟩
    rw [List.append_nil]
    exact nested_of_enter_error (s := (⟨s, before⟩ : Noted σ)) henter
  | ok inner =>
    have hguard : guard (withGuard s inner) = inner := guard_withGuard s inner
    -- a guard that was entered has been to its depth, whatever it was before
    have hle : inner.depth ≤ inner.deepest := by
      obtain ⟨-, rfl⟩ := DepthGuard.enter_eq_ok_iff.1 henter
      exact le_max_right _ _
    obtain ⟨answer, t, depths, hcomes, hhead, hbalanced⟩ :=
      h (withGuard s inner) (by rw [hguard]; exact hle)
    rw [hguard] at hhead hbalanced
    refine ⟨answer, withGuard t { guard t with depth := (guard s).depth }, depths,
      ⟨nested_of_enter_ok henter hcomes.run hbalanced.depth, fun before => ?_⟩,
      .entered henter hcomes.run hhead, ?_⟩
    · exact nested_of_enter_ok (s := (⟨s, before⟩ : Noted σ)) henter (hcomes.noted before)
        hbalanced.depth
    · rw [guard_withGuard]
      exact hbalanced.entered henter (List.mem_of_mem_head? hhead)

/-- **Every routine comes to an end with the guard balanced.** -/
theorem settles (r : Routine σ ε α) : r.Settles := by
  induction r with
  | done answer =>
    intro s hdepth
    refine ⟨answer, s, [(guard s).depth],
      ⟨Action.ofResult_apply answer s, run_note fun before => ?_⟩, rfl, .step hdepth⟩
    rw [List.append_nil]
    exact Action.ofResult_apply answer _
  | work step next ih =>
    intro s hdepth
    have hguard : guard (step.take s).2 = guard s := step.guard_take s
    obtain ⟨answer, t, depths, hcomes, -, hbalanced⟩ :=
      ih (step.take s).1 (step.take s).2 (by rw [hguard]; exact hdepth)
    rw [hguard] at hbalanced
    exact ⟨answer, t, (guard s).depth :: depths, ⟨hcomes.run, run_note hcomes.noted⟩, rfl,
      (Balanced.step hdepth).trans hbalanced⟩
  | nest refused body next ihbody ihnext =>
    intro s hdepth
    obtain ⟨caught, t, inside, hcall, -, hbalanced⟩ := ihbody.called refused s
    obtain ⟨answer, u, after, hcomes, -, hafter⟩ :=
      ihnext caught t (hbalanced.depth_le_deepest hdepth)
    refine ⟨answer, u, (guard s).depth :: (inside ++ after),
      ⟨(run_nest hcall.run).trans hcomes.run, run_note fun before => ?_⟩, rfl,
      (Balanced.step hdepth).trans (hbalanced.trans hafter)⟩
    rw [← List.append_assoc]
    exact (run_nest (hcall.noted before)).trans (hcomes.noted _)

end Routine

variable [LawfulGuarded σ]

/-- **A nested call runs exactly where the limit leaves room, and the guard is balanced after it.**
It comes to a value or an error, at the depth where it was made and under the same limit. No step
inside is deeper than the limit. At the limit the call is refused: nothing has run, and nothing has
changed. Below it the body runs one level deeper, and its answer is the answer. What the guard
remembers is the greatest of what it remembered before and the depths at which bodies ran.

The state that the call is made from is any, so all this holds of each nested call inside too. -/
theorem nested_exact (refused : DepthExceeded → ε) (body : Routine σ ε α) (s : σ) :
    ∃ (answer : Except ε α) (t : σ) (depths : List Nat),
      nested refused body.run s = (answer.mapError .error, t) ∧
      -- the depths at which bodies ran, one for each of their steps
      nested refused body.noted.run ⟨s, []⟩ = (answer.mapError .error, ⟨t, depths⟩) ∧
      (guard t).limit = (guard s).limit ∧ (guard t).depth = (guard s).depth ∧
      (∀ limit ∈ (guard s).limit, ∀ d ∈ depths, d ≤ limit) ∧
      (∀ limit ∈ (guard s).limit, limit ≤ (guard s).depth →
        answer = .error (refused ⟨limit⟩) ∧ t = s ∧ depths = []) ∧
      ((guard s).HasRoom → ∃ inner u, (guard s).enter = .ok inner ∧
        body.run (withGuard s inner) = (answer.mapError .error, u) ∧
        t = withGuard u { guard u with depth := (guard s).depth } ∧
        depths.head? = some ((guard s).depth + 1)) ∧
      IsGreatest (insert (guard s).deepest {d | d ∈ depths}) (guard t).deepest := by
  obtain ⟨answer, t, depths, hcomes, hcalled, hbalanced⟩ := body.settles.called refused s
  refine ⟨answer, t, depths, hcomes.run, hcomes.noted [], hbalanced.limit, hbalanced.depth,
    ?_, ?_, ?_, hbalanced.deepest⟩
  · intro limit hlimit d hd
    cases hcalled with
    | refused => cases hd
    | entered henter =>
      have hroom := (DepthGuard.enter_eq_ok_iff.1 henter).1 limit hlimit
      have hle := hbalanced.within limit hlimit d hd
      rwa [max_eq_left (Nat.le_of_lt hroom)] at hle
  · intro limit hlimit hle
    have henter : (guard s).enter = .error ⟨limit⟩ :=
      DepthGuard.enter_eq_error_iff.2 ⟨hlimit, hle⟩
    cases hcalled with
    | refused h =>
      obtain rfl := Except.error.inj (h.symm.trans henter)
      exact ⟨rfl, rfl, rfl⟩
    | entered h => cases h.symm.trans henter
  · intro hroom
    obtain ⟨inner, henter, -, hinner⟩ := hroom.exists_enter
    cases hcalled with
    | refused h => cases h.symm.trans henter
    | entered h hbody hhead =>
      obtain rfl := Except.ok.inj (h.symm.trans henter)
      exact ⟨_, _, h, hbody, rfl, hhead.trans (congrArg some hinner)⟩

end Routines

/-- Descends two levels, and then one, whatever came of the first descent. -/
def twoDescents : Routine Descent DepthExceeded Nat :=
  .nest id (Descent.routine 1) fun _ => .nest id (Descent.routine 0) .done

theorem nested_exact_twoDescents :
    LawfulGuarded Descent ∧ ∃ (answer : Except DepthExceeded Nat) (t : Descent) (depths : List Nat),
      nested id twoDescents.run { guard := { limit := some 2 } } = (answer.mapError .error, t) ∧
      answer = .ok 0 ∧ depths = [1, 2, 2, 2, 1, 2, 2, 1] ∧
      t.guard = { limit := some 2, depth := 0, deepest := 2 } ∧ t.trail = #[2, 2] ∧
      (∀ d ∈ depths, d ≤ 2) ∧ IsGreatest (insert 0 {d | d ∈ depths}) 2 := by
  have hlawful : LawfulGuarded Descent := inferInstance
  obtain ⟨answer, t, depths, hrun, hnoted, -, -, hle, -, -, hgreatest⟩ :=
    nested_exact id twoDescents { guard := { limit := some 2 } }
  have hrun' : nested id twoDescents.noted.run ⟨{ guard := { limit := some 2 } }, []⟩ =
      (.ok 0, ⟨⟨{ limit := some 2, depth := 0, deepest := 2 }, #[2, 2]⟩,
        [1, 2, 2, 2, 1, 2, 2, 1]⟩) := by rfl
  obtain ⟨hanswer, hstate⟩ := Prod.mk.inj (hnoted.symm.trans hrun')
  obtain ⟨rfl, rfl⟩ := Noted.mk.inj hstate
  have hanswer' : answer = .ok 0 := by
    cases answer with
    | error e => cases hanswer
    | ok n => exact congrArg Except.ok (Except.ok.inj hanswer)
  exact ⟨hlawful, answer, _, _, hrun, hanswer', rfl, rfl, rfl, hle 2 rfl, hgreatest⟩

/-! ## Descents -/

namespace Descent

variable {d t : Descent} {levels limit : Nat}

/-- At the limit a descent is refused, and has been nowhere. -/
theorem descend_at_limit (levels : Nat) (d : Descent) (hlimit : d.guard.limit = some limit)
    (hle : limit ≤ d.guard.depth) :
    ∃ t, descend levels d = (.error (.error ⟨limit⟩), t) ∧ t.guard.depth = d.guard.depth ∧
      t.trail.toList =
        d.trail.toList ++ List.range' (d.guard.depth + 1) (limit - d.guard.depth) := by
  have henter := DepthGuard.enter_eq_error_iff.2 ⟨hlimit, hle⟩
  refine ⟨d, ?_, rfl, ?_⟩
  · unfold descend
    exact nested_of_enter_error henter
  · rw [Nat.sub_eq_zero_of_le hle]
    exact (List.append_nil _).symm

/-- Where the guard lets it in, a descent goes on one level deeper with one level less. -/
theorem descend_succ {inner : DepthGuard} {answer : Except (Stop DepthExceeded) Nat}
    (henter : d.guard.enter = .ok inner)
    (h : descend levels ⟨inner, d.trail.push inner.depth⟩ = (answer, t))
    (hdepth : t.guard.depth = inner.depth) :
    descend (levels + 1) d =
      (answer.map (· + 1), { t with guard := { t.guard with depth := d.guard.depth } }) := by
  refine nested_of_enter_ok (t := t) henter ?_ hdepth
  show (do return (← descend levels) + 1 : Action DepthExceeded Descent Nat)
    ⟨inner, d.trail.push inner.depth⟩ = _
  rw [Attempt.bind_apply, h]
  cases answer <;> rfl

/-- A descent that the limit leaves room for answers, and has been to each of its levels. -/
theorem descend_of_room (levels : Nat) (d : Descent)
    (hroom : ∀ limit ∈ d.guard.limit, d.guard.depth + levels < limit) :
    ∃ t, descend levels d = (.ok levels, t) ∧ t.guard.depth = d.guard.depth ∧
      t.trail.toList = d.trail.toList ++ List.range' (d.guard.depth + 1) (levels + 1) := by
  induction levels generalizing d with
  | zero =>
    have henter := DepthGuard.enter_eq_ok_iff.2 ⟨hroom, rfl⟩
    exact ⟨_, nested_of_enter_ok henter rfl rfl, rfl, Array.toList_push⟩
  | succ levels ih =>
    have hhere : d.guard.HasRoom := fun limit hlimit =>
      Nat.lt_of_le_of_lt (Nat.le_add_right _ _) (hroom limit hlimit)
    obtain ⟨inner, henter, hlimit, hinner⟩ := hhere.exists_enter
    obtain ⟨t, hdescend, hdepth, htrail⟩ := ih ⟨inner, d.trail.push inner.depth⟩ (by
      rw [hlimit, hinner, Nat.add_right_comm]
      exact hroom)
    refine ⟨_, descend_succ henter hdescend hdepth, rfl, ?_⟩
    show t.trail.toList = _
    rw [htrail, Array.toList_push, hinner, List.append_assoc]
    rfl

/-- A descent that the limit leaves no room for is refused at the limit, and has been to each level
up to there. -/
theorem descend_of_limit (levels : Nat) (d : Descent) (hlimit : d.guard.limit = some limit)
    (hle : limit ≤ d.guard.depth + levels) :
    ∃ t, descend levels d = (.error (.error ⟨limit⟩), t) ∧ t.guard.depth = d.guard.depth ∧
      t.trail.toList =
        d.trail.toList ++ List.range' (d.guard.depth + 1) (limit - d.guard.depth) := by
  induction levels generalizing d with
  | zero => exact descend_at_limit 0 d hlimit hle
  | succ levels ih =>
    rcases Nat.lt_or_ge d.guard.depth limit with hlt | hge
    · have hroom : d.guard.HasRoom := fun l hl => by
        rwa [← Option.some.inj (hlimit.symm.trans hl)]
      obtain ⟨inner, henter, hlimit', hinner⟩ := hroom.exists_enter
      obtain ⟨t, hdescend, hdepth, htrail⟩ :=
        ih ⟨inner, d.trail.push inner.depth⟩ (hlimit'.trans hlimit) (by
          rw [hinner, Nat.add_right_comm]
          exact hle)
      have hlevels : limit - d.guard.depth = limit - (d.guard.depth + 1) + 1 := by omega
      refine ⟨_, descend_succ henter hdescend hdepth, rfl, ?_⟩
      show t.trail.toList = _
      rw [htrail, Array.toList_push, hinner, hlevels, List.range'_succ, List.append_assoc]
      rfl
    · exact descend_at_limit _ d hlimit hge

end Descent

end Lexigraph
