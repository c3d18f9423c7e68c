/-
# Lexigraph.Proofs.Session.Limits -- limits cut off and change nothing else

Two runs whose limits differ do the same until the lower limit is met, and if it is never met
they do the same to the end (`run_cut_off`). There are two ways in which a lower limit cuts
off, one for depth and one for steps. A third, which is no limit of a session, is the bound
that the nesting of scans is given: a scan that is not endless under a bound is the same under
a larger one (`scanNested_of_le`), and an endless one is endless under all. So two scans can
be compared under one bound, though their limits give them different ones.
-/

import Lexigraph.Proofs.Session.Cut
import Lexigraph.Proofs.Session.Refinement

namespace Lexigraph.Session

open Attempt (Stays Keeps)

variable {g : Grammar} {c : Cut} {s t : Session}

/-! ## Bounds for the nesting -/

/-- The guard has the limit that the settings set. -/
theorem Governed.limit {settings : Settings} (hs : Governed settings s) :
    s.guard.limit = s.settings.maxDepth := by
  rw [hs.guarded, hs.same]

/-- Under its own settings a session is what it was. -/
theorem Governed.under_eq {settings : Settings} (hs : Governed settings s) :
    s.under settings = s := by
  obtain ⟨rfl, hguard⟩ := hs
  show { s with guard := { s.guard with limit := s.settings.maxDepth } } = s
  rw [← hguard]

/-- A scan that is endless for want of a larger bound. -/
def Cut.byBound (settings : Settings) : Cut where
  settings := settings
  other := settings
  stop := .endless
  before level s := Governed settings s ∧ s.guard.depth = level
  atCut level s := s.guard.depth = level
  beyond _ := True
  shortfall := rfl
  governed h := h.1
  level h := h.2
  level_atCut h := h
  tame level := {
    lasting := fun s s' hs hsettings hguard hsteps =>
      ⟨governed_lasting settings s s' hs.1 hsettings hguard hsteps,
        level_lasting level s s' hs.2 hsettings hguard hsteps⟩
    ordinary := fun _ h => h.ne_endless }
  lasting := level_lasting
  persists := ⟨fun _ _ _ _ _ _ => trivial, fun _ _ => trivial, fun _ _ => trivial,
    fun _ _ _ => trivial⟩

theorem byBound_begins (settings : Settings) : (Cut.byBound settings).Begins where
  step := step_cuts rfl (fun _ => nofun) fun _ _ hs => ⟨⟨hs.1.same, hs.1.guarded⟩, hs.2⟩
  nested h := nested_cuts_of_eq h rfl (fun _ => nofun)
    (fun _ _ hs => ⟨⟨hs.1.same, hs.1.guarded⟩, congrArg (· + 1) hs.2⟩)
    (fun _ _ ht => ⟨⟨ht.1.same, ht.1.guarded⟩, rfl⟩) fun _ _ _ => rfl

theorem scanNested_cuts_of_le (settings : Settings) {fuel fuel' : Nat} (hle : fuel ≤ fuel')
    (id : StateId) :
    Cuts (.byBound settings) (scanNested g fuel id) (scanNested g fuel' id) := by
  induction fuel generalizing fuel' id with
  | zero => exact ⟨fun _ _ hs => .off hs.2 trivial, .of_keeps fun _ _ => trivial⟩
  | succ fuel ih =>
    obtain ⟨fuel', rfl⟩ := Nat.exists_eq_add_of_le' (Nat.zero_lt_of_lt hle)
    exact scanNested_succ_cuts (byBound_begins settings) (ih (Nat.le_of_succ_le_succ hle)) id

/-- **A larger bound for the nesting changes nothing** in a scan that is not endless. -/
theorem scanNested_of_le (hs : Steady g s) {fuel fuel' : Nat} {id : StateId} (hle : fuel ≤ fuel')
    (hends : (scanNested g fuel id s).1 ≠ .error .endless) :
    scanNested g fuel' id s = scanNested g fuel id s := by
  have hgoverned : Governed s.settings s := ⟨rfl, hs.limit⟩
  have hgoes := (scanNested_cuts_of_le (g := g) s.settings hle id).goes _ s ⟨hgoverned, rfl⟩
  rw [show s.under (Cut.byBound s.settings).other = s from hgoverned.under_eq] at hgoes
  have hfaultless := (scanNested_scanned fuel id s hs.toSound).faultless
  have hfaultless' := (scanNested_scanned fuel' id s hs.toSound).faultless
  revert hends hgoes hfaultless hfaultless'
  generalize scanNested g fuel id s = outcome
  generalize scanNested g fuel' id s = outcome'
  intro hends hgoes hfaultless hfaultless'
  cases hgoes with
  | alike hne ht => exact Prod.ext rfl ht.1.under_eq
  | off => exact absurd rfl hends
  | endless => exact absurd rfl hends
  | broken h => exact (h.elim (hfaultless _) (hfaultless' _)).elim

/-! ## Scans and runs -/

theorem scan_eq_scanNested (id : StateId) (s : Session) :
    scan g id s = scanNested g (nestingBound g s.settings s.scanner.source.size) id s := rfl

/-- A scan that is endless is endless whatever bound there is for its nesting. -/
theorem scanNested_endless (hs : Steady g s) {id : StateId}
    (hend : (scan g id s).1 = .error .endless) (fuel : Nat) :
    (scanNested g fuel id s).1 = .error .endless := by
  have hlimits : ¬ (s.settings.maxDepth.isSome ∨ s.settings.maxSteps.isSome) := fun hlimits =>
    (scan_ends (.inl hlimits) s ⟨rfl, hs.limit⟩).1 _ hend rfl
  simp only [not_or, Option.not_isSome_iff_eq_none] at hlimits
  have hnone : ∀ stop, ¬ CutOff s stop := by
    rintro stop (⟨limit, h, -⟩ | ⟨limit, h, -⟩)
    · rw [hlimits.2] at h
      cases h
    · rw [hs.limit, hlimits.1] at h
      cases h
  have hfollows : ∀ fuel, Follows g s (Passage.evaluate g s.scanner.source s.settings.shortfall
      fuel id s.active.start s.position) (scanNested g fuel id s).1 (scanNested g fuel id s).2 :=
    fun fuel => (scanNested_follows fuel).follows id s ⟨hs.toSound, rfl, rfl⟩
  -- the evaluator has no result either, at any depth
  have hcomes := not_comes_of_endless hs id hend <| by
    have h := hfollows (nestingBound g s.settings s.scanner.source.size)
    rw [← scan_eq_scanNested, hend] at h
    exact h.resolve_left (hnone _)
  have hfaultless := (scanNested_scanned fuel id s hs.toSound).faultless
  have h := hfollows fuel
  generalize (scanNested g fuel id s).1 = answer at h hfaultless ⊢
  cases answer with
  | ok found =>
    obtain ⟨p, heval, -⟩ := h
    exact absurd ⟨fuel, heval⟩ (hcomes (.ok p))
  | error stop =>
    have heval := h.resolve_left (hnone stop)
    cases stop with
    | error e => exact absurd ⟨fuel, heval⟩ (hcomes (.error e))
    | fault f => exact absurd rfl (hfaultless f)
    | endless => rfl

/-- If the second of two scans is endless and the first is not, the first was cut off. -/
theorem Cut.Goes.cut_of_endless {α : Type} {level : Nat}
    {x y : Except (Stop ScanError) α × Session} (h : c.Goes level x y)
    (hfaultless : ∀ f, x.1 ≠ .error (.fault f)) (hx : x.1 ≠ .error .endless)
    (hy : y.1 = .error .endless) : x.1 = .error c.stop ∧ c.atCut level x.2 := by
  cases h with
  | alike => exact absurd hy hx
  | off hs _ | endless hs _ => exact ⟨rfl, hs⟩
  | broken h =>
    refine (h.elim (hfaultless _) fun he => ?_).elim
    rw [hy] at he
    cases he

/-- Two scans go alike until the first is cut off, though their nesting has different bounds. -/
theorem scan_goes (h : c.Begins) (hstop : c.stop ≠ .endless)
    (hlimit : c.settings.maxDepth.isSome ∨ c.settings.maxSteps.isSome) {level : Nat}
    (hs : c.before level s) (hs' : Steady g (s.under c.other)) (id : StateId) :
    c.Goes level (scan g id s) (scan g id (s.under c.other)) := by
  have hends : (scan g id s).1 ≠ .error .endless := fun he =>
    (scan_ends (.inl hlimit) s (c.governed hs)).1 _ he rfl
  have hsteady : Steady g s := { hs' with limit := (c.governed hs).limit }
  have hfaultless := (scan_scanned id s hsteady.toSound).faultless
  have hcuts := fun fuel => (scanNested_cuts (g := g) h hstop fuel id).goes level s hs
  by_cases hends' : (scan g id (s.under c.other)).1 = .error .endless
  -- where the second does not come to an end, it does not under the bound of the first either
  · have hendless := scanNested_endless hs' hends' (nestingBound g s.settings s.scanner.source.size)
    obtain ⟨hcut, hatCut⟩ := (hcuts _).cut_of_endless hfaultless hends hendless
    have hlevel : (scan g id (s.under c.other)).2.guard.depth = level :=
      (scan_scanned id _ hs'.toSound).covers.depth.trans (c.level hs : s.guard.depth = level)
    rw [show scan g id s = (.error c.stop, (scan g id s).2) from Prod.ext hcut rfl,
      show scan g id (s.under c.other) = (.error .endless, (scan g id (s.under c.other)).2) from
        Prod.ext hends' rfl]
    exact .endless hatCut hlevel
  · have hgoes := hcuts (max (nestingBound g s.settings s.scanner.source.size)
      (nestingBound g (s.under c.other).settings (s.under c.other).scanner.source.size))
    rwa [scanNested_of_le hsteady (Nat.le_max_left ..) hends,
      scanNested_of_le hs' (Nat.le_max_right ..) hends'] at hgoes

theorem scan_keeps {inv : Session → Prop} (h : Persists inv) (id : StateId) :
    Keeps inv (scan g id) :=
  .get_bind fun _ _ => scanNested_keeps h _ id

theorem checkMoved_heedless (before : Nat) : Heedless (checkMoved before) where
  under := by
    intro s settings
    unfold checkMoved
    rw [Attempt.get_bind_apply, Attempt.get_bind_apply]
    have hposition : (s.under settings).position = s.position := rfl
    rw [hposition]
    by_cases hmoved : s.position ≤ before
    · rw [if_pos hmoved, if_pos hmoved]
      rfl
    · rw [if_neg hmoved, if_neg hmoved]
      rfl
  stays := fun h => checkMoved_stays h before

theorem checkBalanced_heedless : Heedless checkBalanced where
  under := by
    intro s settings
    rw [checkBalanced_eq, checkBalanced_eq]
    rfl
  stays := checkBalanced_stays

/-- Passes go alike until the first is cut off. -/
theorem passes_goes (h : c.Begins) (hstop : c.stop ≠ .endless)
    (hlimit : c.settings.maxDepth.isSome ∨ c.settings.maxSteps.isSome) {root : StateId}
    (fuel : Nat) {level : Nat} (hs : c.before level s) (hs' : Steady g (s.under c.other)) :
    c.Goes level (passes g root fuel s) (passes g root fuel (s.under c.other)) := by
  induction fuel generalizing s with
  | zero => exact .alike nofun hs
  | succ fuel ih =>
    unfold passes
    rw [Attempt.get_bind_apply, Attempt.get_bind_apply]
    have hatEnd : (s.under c.other).atEnd = s.atEnd := rfl
    rw [hatEnd]
    by_cases hend : s.atEnd = true
    · rw [if_pos hend]
      exact .alike nofun hs
    rw [if_neg hend, Attempt.get_bind_apply, Attempt.get_bind_apply]
    have hrest := passes_stays c.persists.tame (scan_keeps c.persists root) (g := g) fuel
    refine (scan_goes h hstop hlimit hs hs' root).bind (fun _ => ?_) fun matched t hy ht => ?_
    · exact (checkMoved_stays c.persists.tame _).bind fun _ => hrest
    have hscanned := (scan_scanned root _ hs'.toSound).of_eq hy
    have ht' : Steady g (t.under c.other) := hs'.onward hscanned.sound hscanned.covers.toOnward
    have hmoved := Cuts.of_heedless (c := c) (checkMoved_heedless s.position)
    refine (hmoved.goes level t ht).bind (fun _ => hrest) fun _ u hy' hu => ?_
    obtain ⟨-, hsame, -⟩ := (checkMoved_ensures ht'.toSound s.position).of_eq hy'
    exact ih hu (hsame ▸ ht')

theorem run_goes (h : c.Begins) (hstop : c.stop ≠ .endless)
    (hlimit : c.settings.maxDepth.isSome ∨ c.settings.maxSteps.isSome) {root : StateId}
    {level : Nat} (hs : c.before level s) (hs' : Steady g (s.under c.other)) :
    c.Goes level (run g root s) (run g root (s.under c.other)) := by
  unfold run
  rw [Attempt.get_bind_apply, Attempt.get_bind_apply]
  have hleft : (s.under c.other).scanner.bytesLeft = s.scanner.bytesLeft := rfl
  rw [hleft]
  have hbalanced := Cuts.of_heedless (c := c) checkBalanced_heedless
  exact (passes_goes h hstop hlimit _ hs hs').bind (fun _ => hbalanced.keeps)
    fun _ t _ ht => hbalanced.goes level t ht

/-! ## A limit for depth -/

/-- A lower limit for depth. -/
def Cut.byDepth (settings : Settings) (limit : Nat) : Cut where
  settings := { settings with maxDepth := some limit }
  other := settings
  stop := .error (.depthLimit limit)
  before level s := Shallow { settings with maxDepth := some limit } level limit s ∧ level ≤ limit
  atCut level s := s.guard.depth = level
  beyond s := limit < s.guard.deepest
  shortfall := rfl
  governed h := h.1.toGoverned
  level h := h.1.level
  level_atCut h := h
  tame level := {
    lasting := fun s s' hs hsettings hguard hsteps =>
      ⟨(shallow_tame _ level limit limit).lasting s s' hs.1 hsettings hguard hsteps, hs.2⟩
    ordinary := fun _ h he => by subst he; cases h }
  lasting := level_lasting
  persists := {
    lasting := fun s s' hs _ hguard _ => by
      show limit < s'.guard.deepest
      rwa [hguard]
    stepped := fun _ hs => hs
    deeper := fun _ hs => Nat.lt_of_lt_of_le hs (Nat.le_max_left ..)
    backAt := fun _ _ hs => hs }

theorem byDepth_begins {settings : Settings} {limit : Nat}
    (hlt : ∀ other ∈ settings.maxDepth, limit < other) : (Cut.byDepth settings limit).Begins where
  step := step_cuts rfl (fun _ => nofun) fun _ _ hs => ⟨{ hs.1 with }, hs.2⟩
  nested := by
    intro x y h
    -- below the lower limit there is room under the higher one, if there is one at all
    have hroom : ∀ {level s}, (Cut.byDepth settings limit).before level s →
        (s.under settings).guard.HasRoom := by
      intro level s hs other hother
      show s.guard.depth < other
      rw [hs.1.level]
      exact Nat.lt_of_le_of_lt hs.2 (hlt other hother)
    refine nested_cuts h (fun level s hs hin => ⟨hroom hs, ?_⟩) ?_ ?_ fun _ _ _ => rfl
    · have hlt' : level < limit := hs.1.level ▸ hin limit hs.1.guarded
      exact ⟨hs.1.deeper hlt', hlt'⟩
    · intro level s e hs henter
      obtain ⟨he, hle⟩ := DepthGuard.enter_eq_error_iff.1 henter
      obtain rfl : limit = e.limit := Option.some.inj (hs.1.guarded.symm.trans he)
      have hbeyond : e.limit < (s.under settings).deeper.guard.deepest :=
        Nat.lt_of_le_of_lt hle (Nat.lt_of_lt_of_le (Nat.lt_succ_self _) (Nat.le_max_right ..))
      have hy := (h.keeps (s.under settings).deeper hbeyond).2
      show Cut.Goes _ _ _ (nested _ y (s.under settings))
      rw [nested_entered (hroom hs)]
      cases (y (s.under settings).deeper).2.guard.depth with
      | zero => exact .off hs.1.level hy
      | succ depth => exact .off hs.1.level hy
    · exact fun level t ht => ⟨ht.1.backAt, Nat.le_of_succ_le ht.2⟩

/-- A scan or a run that is refused a level names the limit of its settings. -/
def NamesLimit (settings : Settings) (stop : Stop ScanError) : Prop :=
  ∀ limit, stop = .error (.depthLimit limit) → settings.maxDepth = some limit

theorem namesLimit_tame (settings : Settings) : Tame (Governed settings) (NamesLimit settings) where
  lasting := governed_lasting settings
  ordinary := by
    rintro stop h limit rfl
    cases h

theorem run_namesLimit (settings : Settings) (root : StateId) :
    Stays (Governed settings) (NamesLimit settings) (run g root) := by
  have hnests : Nests (Governed settings) (Governed settings) (NamesLimit settings) :=
    governed_nests (fun _ _ => nofun) fun _ hlimit _ he => by
      cases he
      exact hlimit
  have hscan : ∀ fuel id,
      Stays (Governed settings) (NamesLimit settings) (scanNested g fuel id) := by
    intro fuel
    induction fuel with
    | zero => exact fun _ => .throw nofun
    | succ fuel ih =>
      exact fun id => scanNested_succ_stays hnests nofun
        (visit_stays (namesLimit_tame settings) fun _ _ j _ => ih j)
  exact run_stays (namesLimit_tame settings) (.get_bind fun _ _ => hscan _ root)

/-! ## A limit for steps -/

/-- The session is nested at a depth and has taken no more steps than a limit. -/
structure Sparing (settings : Settings) (depth limit : Nat) (s : Session) : Prop
    extends Governed settings s where
  level : s.guard.depth = depth
  steps : s.steps ≤ limit

/-- A lower limit for steps. -/
def Cut.bySteps (settings : Settings) (limit : Nat) : Cut where
  settings := { settings with maxSteps := some limit }
  other := settings
  stop := .error (.stepLimit limit)
  before level := Sparing { settings with maxSteps := some limit } level limit
  atCut level s := s.guard.depth = level ∧ s.steps = limit + 1
  beyond s := limit < s.steps
  shortfall := rfl
  governed h := h.toGoverned
  level h := h.level
  level_atCut h := h.1
  tame level := {
    lasting := fun s s' hs hsettings hguard hsteps =>
      ⟨governed_lasting _ s s' hs.toGoverned hsettings hguard hsteps,
        level_lasting level s s' hs.level hsettings hguard hsteps, hsteps ▸ hs.steps⟩
    ordinary := fun _ h he => by subst he; cases h }
  lasting level := fun s s' hs hsettings hguard hsteps =>
    ⟨level_lasting level s s' hs.1 hsettings hguard hsteps, hsteps.trans hs.2⟩
  persists := {
    lasting := fun s s' hs _ _ hsteps => by
      show limit < s'.steps
      rwa [hsteps]
    stepped := fun _ hs => Nat.lt_succ_of_lt hs
    deeper := fun _ hs => hs
    backAt := fun _ _ hs => hs }

theorem bySteps_begins {settings : Settings} {limit : Nat}
    (hlt : ∀ other ∈ settings.maxSteps, limit < other) : (Cut.bySteps settings limit).Begins where
  step := by
    refine ⟨fun level s hs => ?_, step_stays (Cut.bySteps settings limit).persists.nests⟩
    -- before the lower limit is overrun the higher one, if there is one at all, is not
    have hmay : (s.under settings).MayStep := fun other hother =>
      Nat.lt_of_le_of_lt hs.steps (hlt other hother)
    show Cut.Goes _ _ _ (step (s.under settings))
    rw [step_of_mayStep hmay]
    rcases s.mayStep_or_overrun with hstep | ⟨other, hother, hle⟩
    · rw [step_of_mayStep hstep]
      have hsteps : s.steps < limit := hstep limit (hs.same ▸ rfl)
      exact .alike nofun { hs with steps := hsteps }
    · rw [step_overrun hother hle]
      obtain rfl : limit = other := Option.some.inj ((hs.same ▸ rfl : _ = some limit).symm.trans hother)
      exact .off ⟨hs.level, congrArg (· + 1) (Nat.le_antisymm hs.steps hle)⟩ (Nat.lt_succ_of_le hle)
  nested := fun h => nested_cuts_of_eq h rfl (fun _ => nofun)
    (fun _ _ hs => { hs with level := congrArg (· + 1) hs.level })
    (fun _ _ ht => { ht with level := rfl }) fun _ _ ht => ⟨rfl, ht.2⟩

/-! ## Cutting off -/

/-- How a run under a limit for depth compares with a run under a higher one or none. The first is
cut off if the second comes to no end, or nests deeper, or is refused to; else they are the same. -/
structure CutByDepth (limit : Nat) (settings : Settings)
    (cut whole : Except (Stop ScanError) Unit × Session) : Prop where
  endless : whole.1 = .error .endless → cut.1 = .error (.error (.depthLimit limit))
  cut_iff : whole.1 ≠ .error .endless → (cut.1 = .error (.error (.depthLimit limit)) ↔
    limit < whole.2.guard.deepest ∨ ∃ other, whole.1 = .error (.error (.depthLimit other)))
  alike : cut.1 ≠ .error (.error (.depthLimit limit)) → whole = (cut.1, cut.2.under settings)

/-- How a run under a limit for steps compares with a run under a higher one or none. The first is
cut off, one step after the limit, if the second comes to no end or takes more steps; else they are
the same. -/
structure CutBySteps (limit : Nat) (settings : Settings)
    (cut whole : Except (Stop ScanError) Unit × Session) : Prop where
  endless : whole.1 = .error .endless → cut.1 = .error (.error (.stepLimit limit))
  cut_iff : whole.1 ≠ .error .endless → (cut.1 = .error (.error (.stepLimit limit)) ↔
    limit < whole.2.steps)
  steps : cut.1 = .error (.error (.stepLimit limit)) → cut.2.steps = limit + 1
  alike : cut.1 ≠ .error (.error (.stepLimit limit)) → whole = (cut.1, cut.2.under settings)

variable {root : StateId} {source : String} {settings : Settings} {memo : Memo}

/-- A run with a limit comes to an end. -/
theorem run_start_ends (hlimit : settings.maxDepth.isSome ∨ settings.maxSteps.isSome) :
    (run g root (.start source settings memo)).1 ≠ .error .endless := fun he =>
  (run_ends (scan_ends (.inl hlimit)) _ (start_governed source settings memo)).1 _ he rfl

/-- A run of a fresh session breaks no promise, whatever its settings are. -/
theorem run_start_faultless (root : StateId) (hs : Steady g (.start source settings memo))
    (settings' : Settings) (f : Fault) :
    (run g root (.start source settings' memo)).1 ≠ .error (.fault f) :=
  (run_ensures (start_sound source settings' memo hs.memo) rfl).1.faultless f

theorem run_cutByDepth (hs : Steady g (.start source settings memo)) {limit : Nat}
    (hlt : ∀ other ∈ settings.maxDepth, limit < other) : CutByDepth limit settings
      (run g root (.start source { settings with maxDepth := some limit } memo))
      (run g root (.start source settings memo)) := by
  have hbefore : (Cut.byDepth settings limit).before 0
      (.start source { settings with maxDepth := some limit } memo) :=
    ⟨⟨start_governed .., rfl, Nat.zero_le _⟩, Nat.zero_le _⟩
  have hnames := (run_namesLimit (g := g) _ root _
    (start_governed source { settings with maxDepth := some limit } memo)).1
  have hends : (run g root (.start source { settings with maxDepth := some limit } memo)).1 ≠
      .error .endless := run_start_ends (.inl rfl)
  have hgoes : (Cut.byDepth settings limit).Goes 0
      (run g root (.start source { settings with maxDepth := some limit } memo))
      (run g root (.start source settings memo)) :=
    run_goes (byDepth_begins hlt) nofun (.inl rfl) hbefore hs
  have hcut := run_start_faultless root hs { settings with maxDepth := some limit }
  have hwhole := run_start_faultless root hs settings
  revert hnames hends hgoes hcut hwhole
  generalize run g root (.start source { settings with maxDepth := some limit } memo) = cut
  generalize run g root (.start source settings memo) = whole
  intro hnames hends hgoes hcut hwhole
  cases hgoes with
  | @alike answer s hne hs =>
    refine ⟨fun he => absurd he hends, fun _ => ⟨fun he => absurd he hne, ?_⟩, fun _ => rfl⟩
    rintro (hdeep | ⟨other, he⟩)
    · exact absurd hs.1.deepest (Nat.not_le.2 hdeep)
    -- a refusal names the limit, so it would have been the cut
    · obtain rfl : limit = other := Option.some.inj (hnames _ he other rfl)
      exact he
  | off _ ht =>
    exact ⟨fun _ => rfl, fun _ => ⟨fun _ => .inl ht, fun _ => rfl⟩, fun hne => absurd rfl hne⟩
  | endless => exact ⟨fun _ => rfl, fun hne => absurd rfl hne, fun hne => absurd rfl hne⟩
  | broken h => exact (h.elim (hcut _) (hwhole _)).elim

theorem run_cutBySteps (hs : Steady g (.start source settings memo)) {limit : Nat}
    (hlt : ∀ other ∈ settings.maxSteps, limit < other) : CutBySteps limit settings
      (run g root (.start source { settings with maxSteps := some limit } memo))
      (run g root (.start source settings memo)) := by
  have hbefore : (Cut.bySteps settings limit).before 0
      (.start source { settings with maxSteps := some limit } memo) :=
    ⟨start_governed .., rfl, Nat.zero_le _⟩
  have hends : (run g root (.start source { settings with maxSteps := some limit } memo)).1 ≠
      .error .endless := run_start_ends (.inr rfl)
  have hgoes : (Cut.bySteps settings limit).Goes 0
      (run g root (.start source { settings with maxSteps := some limit } memo))
      (run g root (.start source settings memo)) :=
    run_goes (bySteps_begins hlt) nofun (.inr rfl) hbefore hs
  have hcut := run_start_faultless root hs { settings with maxSteps := some limit }
  have hwhole := run_start_faultless root hs settings
  revert hends hgoes hcut hwhole
  generalize run g root (.start source { settings with maxSteps := some limit } memo) = cut
  generalize run g root (.start source settings memo) = whole
  intro hends hgoes hcut hwhole
  cases hgoes with
  | @alike answer s hne hs =>
    refine ⟨fun he => absurd he hends, fun _ => ⟨fun he => absurd he hne, fun hmore => ?_⟩,
      fun he => absurd he hne, fun _ => rfl⟩
    exact absurd hs.steps (Nat.not_le.2 hmore)
  | off hs ht =>
    exact ⟨fun _ => rfl, fun _ => ⟨fun _ => ht, fun _ => rfl⟩, fun _ => hs.2,
      fun hne => absurd rfl hne⟩
  | endless hs _ =>
    exact ⟨fun _ => rfl, fun hne => absurd rfl hne, fun _ => hs.2, fun hne => absurd rfl hne⟩
  | broken h => exact (h.elim (hcut _) (hwhole _)).elim

/-- **Limits cut off and change nothing else.** Let a run in a fresh session have some limits; it
comes to an end, unless it has none. Under a lower limit for depth, the run stops for that limit
exactly if the first came to nest deeper or was refused to. Under a lower limit for steps it stops
for that limit, with one step counted too many, exactly if the first took more steps. In all other
cases the answer is the same, and so is the session but for its settings. -/
theorem run_cut_off (g : Grammar) (root : StateId) (source : String) (settings : Settings)
    (hmemo : memo.Coherent g.rules (.ofString source)) :
    (settings.maxDepth.isSome ∨ settings.maxSteps.isSome →
      (run g root (.start source settings memo)).1 ≠ .error .endless) ∧
    (∀ limit, (∀ other ∈ settings.maxDepth, limit < other) → CutByDepth limit settings
      (run g root (.start source { settings with maxDepth := some limit } memo))
      (run g root (.start source settings memo))) ∧
    (∀ limit, (∀ other ∈ settings.maxSteps, limit < other) → CutBySteps limit settings
      (run g root (.start source { settings with maxSteps := some limit } memo))
      (run g root (.start source settings memo))) :=
  have hs : Steady g (.start source settings memo) := start_steady source settings memo hmemo
  ⟨run_start_ends, fun _ => run_cutByDepth hs, fun _ => run_cutBySteps hs⟩

theorem run_cut_off_letters :
    (run .letters ⟨1⟩ (.start "aa" { maxDepth := some 1 })).1 = .error (.error (.depthLimit 1)) ∧
      (run .letters ⟨1⟩ (.start "aa" { maxSteps := some 2 })).2.steps = 3 := by
  have hends : (run .letters ⟨1⟩ (.start "aa")).1 ≠ .error .endless := by
    have hok : (run .letters ⟨1⟩ (.start "aa")).1 = .ok ⟨⟩ := by decide +kernel
    rw [hok]
    simp
  have hdeepest : 1 < (run .letters ⟨1⟩ (.start "aa")).2.guard.deepest := by decide +kernel
  have hsteps : 2 < (run .letters ⟨1⟩ (.start "aa")).2.steps := by decide +kernel
  obtain ⟨-, hdepth, hstep⟩ := run_cut_off .letters ⟨1⟩ "aa" {} Memo.coherent_empty
  have hcut : CutByDepth 1 {} (run .letters ⟨1⟩ (.start "aa" { maxDepth := some 1 }))
      (run .letters ⟨1⟩ (.start "aa")) :=
    hdepth 1 fun other h => Option.some.inj h ▸ (by decide)
  have hcut' : CutBySteps 2 {} (run .letters ⟨1⟩ (.start "aa" { maxSteps := some 2 }))
      (run .letters ⟨1⟩ (.start "aa")) :=
    hstep 2 fun other h => by cases h
  exact ⟨(hcut.cut_iff hends).2 (.inl hdeepest), hcut'.steps ((hcut'.cut_iff hends).2 hsteps)⟩

end Lexigraph.Session
