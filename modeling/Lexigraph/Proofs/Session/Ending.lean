/-
# Lexigraph.Proofs.Session.Ending -- scans that come to an end

A scan is cut off as endless when its scans nest deeper than a bound. That never happens to
a session with a limit: every level of nesting takes a step and a level of depth, so a limit
is met before the bound is (`scanNested_ends_of_room`). It does not happen without limits
either, if chains of names from the scanned state on are no longer than the bound; then no
more levels are entered than the longest chain has states (`scanNested_shallow`).
-/

import Lexigraph.Proofs.Session.Tame

namespace Lexigraph.Session

open Attempt (Stays Ensures)

/-- From sessions in `inv`, an attempt is not endless, and leaves a session in `inv`. -/
abbrev Ends {α : Type} (inv : Session → Prop) (x : Scanning α) : Prop := Stays inv (· ≠ .endless) x

theorem Ordinary.ne_endless {stop : Stop ScanError} (h : Ordinary stop) : stop ≠ .endless := by
  cases h <;> nofun

variable {inv : Session → Prop} {g : Grammar} {s : Session}

/-! ## Limits -/

/-- The session has the settings, and its guard the limit that they set. -/
structure Governed (settings : Settings) (s : Session) : Prop where
  same : s.settings = settings
  guarded : s.guard.limit = settings.maxDepth

theorem start_governed (source : String) (settings : Settings) (memo : Memo) :
    Governed settings (.start source settings memo) := ⟨rfl, rfl⟩

theorem governed_lasting (settings : Settings) : Lasting (Governed settings) :=
  fun _ _ hs hsettings hguard _ => ⟨hsettings.trans hs.same, hguard ▸ hs.guarded⟩

theorem governed_tame (settings : Settings) : Tame (Governed settings) (· ≠ .endless) :=
  ⟨governed_lasting settings, fun _ h => h.ne_endless⟩

/-- After `n` levels more, a limit is met. -/
structure Room (settings : Settings) (n : Nat) (s : Session) : Prop
    extends Governed settings s where
  near : (∃ limit ∈ settings.maxDepth, limit ≤ s.guard.depth + n) ∨
    ∃ limit ∈ settings.maxSteps, limit ≤ s.steps + n

theorem room_tame (settings : Settings) (n : Nat) : Tame (Room settings n) (· ≠ .endless) where
  lasting := by
    intro s s' hs hsettings hguard hsteps
    refine ⟨governed_lasting settings s s' hs.toGoverned hsettings hguard hsteps, ?_⟩
    rw [hguard, hsteps]
    exact hs.near
  ordinary := fun _ h => h.ne_endless

/-- Where a limit is met after some levels, it is met after some more. -/
theorem Room.of_near {settings : Settings} {n m : Nat} {t : Session} (hs : Room settings n s)
    (hsettings : t.settings = s.settings) (hlimit : t.guard.limit = s.guard.limit)
    (hdepth : s.guard.depth + n ≤ t.guard.depth + m) (hsteps : s.steps + n ≤ t.steps + m) :
    Room settings m t where
  same := hsettings.trans hs.same
  guarded := hlimit.trans hs.guarded
  near := by
    rcases hs.near with ⟨limit, h, hle⟩ | ⟨limit, h, hle⟩
    · exact .inl ⟨limit, h, Nat.le_trans hle hdepth⟩
    · exact .inr ⟨limit, h, Nat.le_trans hle hsteps⟩

theorem Room.stepped {settings : Settings} {n : Nat} (hs : Room settings n s) :
    Room settings n s.stepped :=
  hs.of_near rfl rfl (Nat.le_refl _) (Nat.add_le_add_right (Nat.le_succ _) _)

/-- At the limit, no step is counted and no level is entered. -/
theorem room_zero_nests (settings : Settings) :
    Nests (Room settings 0) (fun _ => False) (· ≠ .endless) where
  count := fun _ hs => hs.stepped
  overrun := fun _ _ _ _ _ => nofun
  refuse := fun _ _ _ _ _ => nofun
  enter := by
    intro s hs hsteps hroom
    rcases hs.near with ⟨limit, h, hle⟩ | ⟨limit, h, hle⟩
    · exact Nat.not_lt.2 hle (hroom limit (hs.guarded ▸ h))
    · exact Nat.not_lt.2 hle (hsteps limit (hs.same ▸ h))
  back := fun _ _ ht => ht.elim
  unpaired := fun _ ht => ht.elim

/-- One level more takes a step and a level of depth, so one less is left to the limit. -/
theorem room_succ_nests (settings : Settings) (n : Nat) :
    Nests (Room settings (n + 1)) (Room settings n) (· ≠ .endless) where
  count := fun _ hs => hs.stepped
  overrun := fun _ _ _ _ _ => nofun
  refuse := fun _ _ _ _ _ => nofun
  enter := by
    intro s hs _ _
    refine hs.of_near rfl rfl ?_ ?_
    · show s.guard.depth + (n + 1) ≤ s.guard.depth + 1 + n
      omega
    · show s.steps + (n + 1) ≤ s.steps + 1 + n
      omega
  back := by
    intro t depth ht hdepth
    refine ht.of_near rfl rfl ?_ (Nat.le_succ _)
    show t.guard.depth + n ≤ depth + (n + 1)
    omega
  unpaired := fun _ ht _ => ht.of_near rfl rfl (Nat.le_succ _) (Nat.le_succ _)

/-- **Within limits no scan is endless**, since every level of nesting brings them nearer. -/
theorem scanNested_ends_of_room (settings : Settings) (n : Nat) (id : StateId) :
    Ends (Room settings n) (scanNested g (n + 1) id) := by
  induction n generalizing id with
  | zero => exact scanNested_succ_stays (room_zero_nests settings) nofun fun _ hs => hs.elim
  | succ n ih =>
    exact scanNested_succ_stays (room_succ_nests settings n) nofun
      (visit_stays (room_tame settings n) fun _ _ j _ => ih j)

/-- Steps and levels keep the settings, and are refused for limits of these settings alone. -/
theorem governed_nests {settings : Settings} {allowed : Stop ScanError → Prop}
    (overrun : ∀ limit ∈ settings.maxSteps, allowed (.error (.stepLimit limit)))
    (refuse : ∀ limit ∈ settings.maxDepth, allowed (.error (.depthLimit limit))) :
    Nests (Governed settings) (Governed settings) allowed where
  count := fun _ hs => ⟨hs.same, hs.guarded⟩
  overrun := fun _ limit hs hlimit _ => overrun limit (hs.same ▸ hlimit)
  refuse := fun _ limit hs hlimit _ => refuse limit (hs.guarded ▸ hlimit)
  enter := fun _ hs _ _ => ⟨hs.same, hs.guarded⟩
  back := fun _ _ ht _ => ⟨ht.same, ht.guarded⟩
  unpaired := fun _ ht _ => ht

/-- **Where chains of names are short no scan is endless**, with limits or without. -/
theorem scanNested_ends_of_within {settings : Settings} {n fuel : Nat} (hfuel : n ≤ fuel)
    {id : StateId} (hwithin : g.graph.Within n id) :
    Ends (Governed settings) (scanNested g fuel id) := by
  induction n generalizing fuel id with
  | zero => exact hwithin.elim
  | succ n ih =>
    obtain ⟨fuel, rfl⟩ := Nat.exists_eq_add_of_le' (Nat.zero_lt_of_lt hfuel)
    refine scanNested_succ_stays (governed_nests (fun _ _ => nofun) fun _ _ => nofun) nofun ?_
    refine visit_stays (governed_tame settings) fun node hnode j hj => ?_
    exact ih (Nat.le_of_succ_le_succ hfuel) (hwithin node hnode j hj)

/-! ## Depth -/

/-- The session is nested at a depth and was never nested deeper than a bound. -/
structure Shallow (settings : Settings) (depth bound : Nat) (s : Session) : Prop
    extends Governed settings s where
  level : s.guard.depth = depth
  deepest : s.guard.deepest ≤ bound

/-- If there is a stop for depth at all, then for a limit that is lower than `reach`. -/
def StopsBelow (settings : Settings) (reach : Nat) (stop : Stop ScanError) : Prop :=
  (∀ limit ∈ settings.maxDepth, reach ≤ limit) → ∀ limit, stop ≠ .error (.depthLimit limit)

theorem Shallow.deeper {settings : Settings} {depth bound : Nat} (hs : Shallow settings depth bound s)
    (hlt : depth < bound) : Shallow settings (depth + 1) bound s.deeper where
  same := hs.same
  guarded := hs.guarded
  level := congrArg (· + 1) hs.level
  deepest := by
    show max s.guard.deepest (s.guard.depth + 1) ≤ bound
    rw [hs.level]
    exact Nat.max_le.2 ⟨hs.deepest, hlt⟩

theorem Shallow.backAt {settings : Settings} {depth bound : Nat}
    (hs : Shallow settings (depth + 1) bound s) : Shallow settings depth bound (s.backAt depth) :=
  ⟨⟨hs.same, hs.guarded⟩, rfl, hs.deepest⟩

theorem shallow_tame (settings : Settings) (depth bound reach : Nat) :
    Tame (Shallow settings depth bound) (StopsBelow settings reach) where
  lasting := by
    intro s s' hs hsettings hguard hsteps
    exact ⟨governed_lasting settings _ _ hs.toGoverned hsettings hguard hsteps, hguard ▸ hs.level,
      hguard ▸ hs.deepest⟩
  ordinary := by
    rintro stop h - limit rfl
    cases h

theorem shallow_nests (settings : Settings) {depth bound reach : Nat} (hlt : depth < reach)
    (hle : reach ≤ bound) : Nests (Shallow settings depth bound) (Shallow settings (depth + 1) bound)
      (StopsBelow settings reach) where
  count := fun _ hs => { hs with }
  overrun := fun _ _ _ _ _ _ _ => nofun
  refuse := by
    intro s limit hs hlimit hle' hreach
    have hle'' : reach ≤ limit := hreach limit (hs.guarded ▸ hlimit)
    rw [hs.level] at hle'
    omega
  enter := fun s hs _ _ =>
    Shallow.deeper (s := s.stepped) { hs with } (Nat.lt_of_lt_of_le hlt hle)
  back := by
    intro t d ht hd
    obtain rfl : d = depth := Nat.succ.inj (hd.symm.trans ht.level)
    exact ht.backAt
  unpaired := fun t ht hzero => absurd (ht.level.symm.trans hzero) (Nat.succ_ne_zero _)

/-- **No scan nests deeper than chains of names are long.** -/
theorem scanNested_shallow {settings : Settings} {n depth bound reach : Nat} (fuel : Nat)
    (hreach : depth + n ≤ reach) (hbound : reach ≤ bound) {id : StateId}
    (hwithin : g.graph.Within n id) :
    Stays (Shallow settings depth bound) (StopsBelow settings reach) (scanNested g fuel id) := by
  induction n generalizing fuel depth id with
  | zero => exact hwithin.elim
  | succ n ih =>
    cases fuel with
    | zero => exact .throw fun _ => nofun
    | succ fuel =>
      refine scanNested_succ_stays (shallow_nests settings (by omega) hbound) (fun _ => nofun) ?_
      refine visit_stays (shallow_tame settings (depth + 1) bound reach) fun node hnode j hj => ?_
      exact ih fuel (by omega) (hwithin node hnode j hj)

theorem scan_shallow {settings : Settings} {n bound : Nat} (hle : n ≤ bound) {id : StateId}
    (hwithin : g.graph.Within n id) :
    Stays (Shallow settings 0 bound) (StopsBelow settings n) (scan g id) :=
  .get_bind fun _ _ => scanNested_shallow _ (Nat.zero_add n).le hle hwithin

/-! ## Scans and runs -/

/-- With a limit, the bound for the nesting leaves room to meet it. -/
theorem exists_nestingBound_eq {settings : Settings}
    (h : settings.maxDepth.isSome ∨ settings.maxSteps.isSome) (size : Nat) :
    ∃ n, nestingBound g settings size = n + 1 ∧
      ∀ s, Governed settings s → Room settings n s := by
  unfold nestingBound
  cases hdepth : settings.maxDepth with
  | none =>
    cases hsteps : settings.maxSteps with
    | none => simp [hdepth, hsteps] at h
    | some steps =>
      exact ⟨steps, rfl, fun s hs => ⟨hs, .inr ⟨steps, hsteps, by omega⟩⟩⟩
  | some depth =>
    cases hsteps : settings.maxSteps with
    | none => exact ⟨depth, rfl, fun s hs => ⟨hs, .inl ⟨depth, hdepth, by omega⟩⟩⟩
    | some steps =>
      refine ⟨min depth steps, rfl, fun s hs => ⟨hs, ?_⟩⟩
      rcases Nat.le_total depth steps with hle | hle
      · exact .inl ⟨depth, hdepth, by omega⟩
      · exact .inr ⟨steps, hsteps, by omega⟩

/-- With a limit, the bound for the nesting is the same for all grammars. -/
theorem nestingBound_eq {settings : Settings}
    (h : settings.maxDepth.isSome ∨ settings.maxSteps.isSome) (g g' : Grammar) (size : Nat) :
    nestingBound g settings size = nestingBound g' settings size := by
  unfold nestingBound
  cases hdepth : settings.maxDepth with
  | none =>
    cases hsteps : settings.maxSteps with
    | none => simp [hdepth, hsteps] at h
    | some steps => rfl
  | some depth => cases settings.maxSteps <;> rfl

/-- Without limits, scans may nest deeper than there are states. -/
theorem size_lt_nestingBound {settings : Settings}
    (h : ¬ (settings.maxDepth.isSome ∨ settings.maxSteps.isSome)) (g : Grammar) (size : Nat) :
    g.graph.size < nestingBound g settings size := by
  simp only [not_or, Option.not_isSome_iff_eq_none] at h
  unfold nestingBound
  rw [h.1, h.2]
  have hpos : 0 < (size + 1) * (size + 1) := Nat.mul_pos (Nat.succ_pos _) (Nat.succ_pos _)
  exact Nat.lt_succ_of_le (Nat.le_mul_of_pos_right _ hpos)

/-- A scan is not endless if there is a limit, or no chain of names in which a state comes twice. -/
theorem scan_ends {settings : Settings} {id : StateId}
    (h : (settings.maxDepth.isSome ∨ settings.maxSteps.isSome) ∨
      g.graph.Within (g.graph.size + 1) id) :
    Ends (Governed settings) (scan g id) := by
  refine .get_bind fun s hs => ?_
  rw [hs.same]
  by_cases hlimits : settings.maxDepth.isSome ∨ settings.maxSteps.isSome
  · obtain ⟨n, hn, hroom⟩ := exists_nestingBound_eq hlimits s.scanner.source.size
    -- the bound is the room there is, and one more
    rw [hn]
    intro t ht
    obtain ⟨hanswer, hroom'⟩ := scanNested_ends_of_room settings n id t (hroom t ht)
    exact ⟨hanswer, hroom'.toGoverned⟩
  · exact scanNested_ends_of_within (size_lt_nestingBound hlimits g _) (h.resolve_left hlimits)

/-- A run is not endless if its scans are not. -/
theorem run_ends {settings : Settings} {root : StateId}
    (hscan : Ends (Governed settings) (scan g root)) : Ends (Governed settings) (run g root) :=
  run_stays (governed_tame settings) hscan

end Lexigraph.Session
