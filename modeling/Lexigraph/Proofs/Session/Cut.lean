/-
# Lexigraph.Proofs.Session.Cut -- the same scan, cut off

Two scans that differ in their limits go the same way until one of them is cut off. From
then on nothing is said of the other but that it is beyond the place of the cut. A `Cut` is
such a way to be cut off: the two settings, the stop that the first scan ends in, and what is
true before the cut, at it and beyond it.

`Cuts` sets two scans side by side in this way, and has one lemma for a chain of scans and
one for each part of a scan, up to the scan of a state (`visit_cuts`). Where limits come in,
at the beginning of a state, it depends on the cut what has to be shown.
-/

import Lexigraph.Proofs.Session.Ending

namespace Lexigraph.Session

open Attempt (Stays Keeps)

/-- The session under other settings, and its guard under the limit that they set. -/
def under (settings : Settings) (s : Session) : Session :=
  { s with settings, guard := { s.guard with limit := settings.maxDepth } }

/-- A way in which sessions under `settings` are cut off, but not those under `other`. -/
structure Cut where
  settings : Settings
  other : Settings
  /-- How a session ends that is cut off. -/
  stop : Stop ScanError
  /-- What is true of a session, nested that deep, that was not cut off yet. -/
  before : Nat → Session → Prop
  /-- What is true of a session that was. -/
  atCut : Nat → Session → Prop
  /-- What is true, from then on, of the session that was not. -/
  beyond : Session → Prop
  shortfall : other.shortfall = settings.shortfall
  governed : ∀ {level s}, before level s → Governed settings s
  level : ∀ {level s}, before level s → s.guard.depth = level
  level_atCut : ∀ {level s}, atCut level s → s.guard.depth = level
  tame : ∀ level, Tame (before level) (· ≠ stop)
  lasting : ∀ level, Lasting (atCut level)
  persists : Persists beyond

/-- How two scans came out side by side: alike, or the first was cut off and the second went on
beyond the cut or without end. If either broke a promise, nothing is said of the other. -/
inductive Cut.Goes (c : Cut) (level : Nat) {α : Type} : Except (Stop ScanError) α × Session →
    Except (Stop ScanError) α × Session → Prop where
  | alike {answer : Except (Stop ScanError) α} {s : Session} (h : answer ≠ .error c.stop)
      (hs : c.before level s) : Goes c level (answer, s) (answer, s.under c.other)
  | off {answer : Except (Stop ScanError) α} {s t : Session} (hs : c.atCut level s)
      (ht : c.beyond t) : Goes c level (.error c.stop, s) (answer, t)
  | endless {s t : Session} (hs : c.atCut level s) (ht : t.guard.depth = level) :
      Goes c level (.error c.stop, s) (.error .endless, t)
  | broken {x y : Except (Stop ScanError) α × Session} {f : Fault}
      (h : x.1 = .error (.fault f) ∨ y.1 = .error (.fault f)) : Goes c level x y

/-- Two scans go alike until the first is cut off. What is beyond the cut stays beyond it. -/
structure Cuts (c : Cut) {α : Type} (x y : Scanning α) : Prop where
  goes : ∀ level s, c.before level s → c.Goes level (x s) (y (s.under c.other))
  keeps : Keeps c.beyond y

/-- The sessions stand at the same place of the same source, among the same frames. -/
structure SamePlace (s t : Session) : Prop where
  scanner : t.scanner = s.scanner
  active : t.active = s.active
  outer : t.outer = s.outer
  shortfall : t.settings.shortfall = s.settings.shortfall

/-- The scan takes no notice of limits, of nesting and of steps. -/
structure Heedless {α : Type} (x : Scanning α) : Prop where
  under : ∀ s settings, x (s.under settings) = ((x s).1, (x s).2.under settings)
  stays : ∀ {inv allowed}, Tame inv allowed → Stays inv allowed x

variable {c : Cut} {g : Grammar} {s t : Session} {α β : Type}

theorem SamePlace.atEnd (h : SamePlace s t) : t.atEnd = s.atEnd :=
  congrArg Scanner.atEnd h.scanner

theorem SamePlace.position (h : SamePlace s t) : t.position = s.position :=
  congrArg Frame.current h.active

/-- A chain goes alike until its first link is cut off, and then until what comes after it is. -/
theorem Cut.Goes.bind {level : Nat} {x y : Scanning α} {f f' : α → Scanning β}
    (hx : c.Goes level (x s) (y t)) (keep : ∀ a, Keeps c.beyond (f' a))
    (go : ∀ a s', y t = (.ok a, s'.under c.other) → c.before level s' →
      c.Goes level (f a s') (f' a (s'.under c.other))) :
    c.Goes level ((x >>= f) s) ((y >>= f') t) := by
  rw [Attempt.bind_apply, Attempt.bind_apply]
  revert hx go
  generalize x s = outcome
  generalize y t = outcome'
  intro hx go
  cases hx with
  | broken h =>
    rcases outcome with ⟨answer, s'⟩
    rcases outcome' with ⟨answer', t'⟩
    rcases h with rfl | rfl
    · exact .broken (.inl rfl)
    · exact .broken (.inr rfl)
  | @alike answer s' hne hs' =>
    cases answer with
    | error stop => exact .alike (fun he => hne (congrArg Except.error (Except.error.inj he))) hs'
    | ok a => exact go a s' rfl hs'
  -- the first scan is over, and the second stays beyond the cut, whatever it goes on with
  | @off answer s' t' hs' ht' =>
    cases answer with
    | error stop => exact .off hs' ht'
    | ok a => exact .off hs' (keep a t' ht').2
  | endless hs' ht' => exact .endless hs' ht'

namespace Cuts

theorem bind {x y : Scanning α} {f f' : α → Scanning β} (hx : Cuts c x y)
    (hf : ∀ a, Cuts c (f a) (f' a)) : Cuts c (x >>= f) (y >>= f') where
  goes := fun level s hs =>
    (hx.goes level s hs).bind (fun a => (hf a).keeps) fun a s' _ hs' => (hf a).goes level s' hs'
  keeps := hx.keeps.bind fun a => (hf a).keeps

theorem pure (a : α) : Cuts c (pure a) (pure a) where
  goes := fun _ _ hs => .alike nofun hs
  keeps := .pure a

/-- Both read their session: they go on from the same place. -/
theorem get_bind {f f' : Session → Scanning β} (h : ∀ s t, SamePlace s t → Cuts c (f s) (f' t)) :
    Cuts c (get >>= f) (get >>= f') where
  goes := by
    intro level s hs
    have hshortfall : c.other.shortfall = s.settings.shortfall := by
      rw [(c.governed hs).same, c.shortfall]
    exact (h s (s.under c.other) ⟨rfl, rfl, rfl, hshortfall⟩).goes level s hs
  keeps := .get_bind fun t _ => (h t t ⟨rfl, rfl, rfl, rfl⟩).keeps

theorem of_heedless {x : Scanning α} (hx : Heedless x) : Cuts c x x where
  goes := by
    intro level s hs
    have h := hx.stays (c.tame level) s hs
    rw [hx.under]
    exact .alike (fun he => h.1 c.stop he rfl) h.2
  keeps := hx.stays c.persists.tame

end Cuts

theorem throw_cuts {stop : Stop ScanError} (h : stop ≠ c.stop) :
    Cuts c (throw stop : Scanning α) (throw stop) where
  goes := fun _ _ hs => .alike (fun he => h (Except.error.inj he)) hs
  keeps := .throw trivial

theorem ordinary_cuts {stop : Stop ScanError} (h : Ordinary stop) :
    Cuts c (throw stop : Scanning α) (throw stop) :=
  throw_cuts ((c.tame 0).ordinary stop h)

theorem level_lasting (level : Nat) : Lasting fun s => s.guard.depth = level :=
  fun _ _ hs _ hguard _ => (congrArg DepthGuard.depth hguard).trans hs

/-! ## The steps of a scan -/

theorem note_heedless (event : Event) : Heedless (note event) where
  under := fun _ _ => rfl
  stays := fun h => note_stays h event

theorem push_heedless : Heedless push where
  under := fun _ _ => rfl
  stays := push_stays

theorem clearTokens_heedless : Heedless clearTokens where
  under := fun _ _ => rfl
  stays := clearTokens_stays

theorem noteFailure_heedless (position : Nat) : Heedless (noteFailure position) where
  under := fun _ _ => rfl
  stays := fun h => noteFailure_stays h position

theorem pop_heedless (publish : Bool) : Heedless (pop publish) where
  under := by
    intro s settings
    cases houter : s.outer with
    | nil => rw [pop_root houter, pop_root (s := s.under settings) houter]
    | cons parent outer => rw [pop_apply houter, pop_apply (s := s.under settings) houter]; rfl
  stays := fun h => pop_stays h publish

/-- The frame of a stop is dropped, and the counters of the session stay what they were. -/
theorem drop_cases {inv : Session → Prop} (h : Lasting inv) (stop : Stop ScanError) (hs : inv s) :
    (∃ f, ((do pop false; throw stop : Scanning α) s).1 = .error (.fault f)) ∨
      ∃ t, (do pop false; throw stop : Scanning α) s = (.error stop, t) ∧ inv t := by
  rw [Attempt.bind_apply]
  cases houter : s.outer with
  | nil =>
    rw [pop_root houter]
    exact .inl ⟨_, rfl⟩
  | cons parent outer =>
    rw [pop_apply houter]
    exact .inr ⟨_, rfl, h s _ hs rfl rfl rfl⟩

/-- A broken promise stays one when the frame is dropped. -/
theorem drop_fault (f : Fault) (s : Session) :
    ∃ f', ((do pop false; throw (.fault f) : Scanning α) s).1 = .error (.fault f') := by
  have hlasting : Lasting fun _ => True := fun _ _ _ _ _ _ => trivial
  rcases drop_cases hlasting (.fault f) (s := s) trivial with hbroken | ⟨t, ht, -⟩
  · exact hbroken
  · exact ⟨f, congrArg Prod.fst ht⟩

theorem orDrop_cuts {x y : Scanning α} (h : Cuts c x y) : Cuts c (orDrop x) (orDrop y) where
  goes := by
    intro level s hs
    have hgoes := h.goes level s hs
    unfold orDrop
    revert hgoes
    generalize x s = outcome
    generalize y (s.under c.other) = outcome'
    intro hgoes
    have hdrop : ∀ stop, Stays (α := α) c.beyond (fun _ => True) (do pop false; throw stop) :=
      fun stop => ((pop_heedless false).stays c.persists.tame).bind fun _ => .throw trivial
    cases hgoes with
    | @alike answer s' hne hs' =>
      cases answer with
      | ok a => exact .alike hne hs'
      | error stop =>
        have hpopped := (Cuts.of_heedless (c := c) (pop_heedless false)).bind (β := α) fun _ =>
          throw_cuts fun he => hne (congrArg Except.error he)
        exact hpopped.goes level s' hs'
    | @off answer s' t hs' ht =>
      rcases drop_cases (α := α) (c.lasting level) c.stop hs' with ⟨f, hf⟩ | ⟨u, hu, hcut⟩
      · exact .broken (.inl hf)
      · dsimp only
        rw [hu]
        cases answer with
        | ok a => exact .off hcut ht
        | error stop => exact .off hcut (hdrop stop t ht).2
    | @endless s' t hs' ht =>
      rcases drop_cases (α := α) (c.lasting level) c.stop hs' with ⟨f, hf⟩ | ⟨u, hu, hcut⟩
      · exact .broken (.inl hf)
      rcases drop_cases (α := α) (level_lasting level) .endless ht with ⟨f, hf⟩ | ⟨v, hv, hlevel⟩
      · exact .broken (.inr hf)
      · dsimp only
        rw [hu, hv]
        exact .endless hcut hlevel
    | broken hbroken =>
      rcases outcome with ⟨answer, s'⟩
      rcases outcome' with ⟨answer', t'⟩
      rcases hbroken with rfl | rfl
      · obtain ⟨f, hf⟩ := drop_fault (α := α) _ s'
        exact .broken (.inl hf)
      · obtain ⟨f, hf⟩ := drop_fault (α := α) _ t'
        exact .broken (.inr hf)
  keeps := orDrop_stays c.persists.tame h.keeps

theorem emit_heedless (id : StateId) (token : TokenId) : Heedless (emit id token) where
  under := by
    intro s settings
    by_cases h : s.active.start < s.active.current
    · rw [emit_pending h, emit_pending (s := s.under settings) h]
      rfl
    · rw [emit_nothing h, emit_nothing (s := s.under settings) h]
  stays := fun h => emit_stays h id token

theorem emitOwn_heedless (id : StateId) (token : Option TokenId) :
    Heedless (emitOwn id token) where
  under := by
    cases token with
    | none => exact fun _ _ => rfl
    | some token => exact (emit_heedless id token).under
  stays := fun h => emitOwn_stays h id token

theorem moveTo_heedless (position : Nat) : Heedless (moveTo position) where
  under := by
    intro s settings
    have hscanner : (s.under settings).scanner = s.scanner := rfl
    rw [moveTo_apply, moveTo_apply, hscanner]
    cases s.scanner.moveTo position <;> rfl
  stays := fun h => moveTo_stays h position

theorem evaluate_heedless (rule : Rule) (id : RuleId) : Heedless (evaluate rule id) where
  under := by
    intro s settings
    have hscanner : (s.under settings).scanner = s.scanner := rfl
    have hmemo : (s.under settings).memo = s.memo := rfl
    unfold evaluate
    rw [hscanner, hmemo]
    rcases rule.evaluate id s.scanner s.memo with ⟨stop | ⟨result, scanner⟩, memo⟩ <;> rfl
  stays := fun h => evaluate_stays h rule id

theorem advance_heedless (position : Nat) :
    Heedless (modify fun s => s.advance position : Scanning PUnit) where
  under := fun _ _ => rfl
  stays := fun h => .modify fun s hs => h.lasting s _ hs rfl rfl rfl

theorem ofResult_cuts (result : Except GrammarError α) :
    Cuts c (Action.ofResult (result.mapError .grammar) : Scanning α)
      (Action.ofResult (result.mapError .grammar)) := by
  cases result with
  | error e => exact ordinary_cuts (.grammar e)
  | ok a => exact .pure a

theorem checkSynced_cuts : Cuts c checkSynced checkSynced := by
  refine .get_bind fun s t hst => ?_
  rw [hst.scanner, hst.position]
  split
  · exact .pure _
  · exact ordinary_cuts (.fault _)

/-! ## Going on and the kinds of states -/

section Visit

variable {scan scan' : StateId → Scanning Bool}

theorem firstOf_cuts (hscan : ∀ id, Cuts c (scan id) (scan' id)) (ids : List StateId) :
    Cuts c (firstOf scan ids) (firstOf scan' ids) := by
  induction ids with
  | nil => exact .pure _
  | cons id ids ih =>
    refine (hscan id).bind fun found => ?_
    cases found with
    | true => exact .pure _
    | false => exact ih

theorem goOn_cuts (hscan : ∀ id, Cuts c (scan id) (scan' id)) (node : Node) :
    Cuts c (goOn scan node) (goOn scan' node) := by
  refine .get_bind fun s t hst => ?_
  rw [hst.atEnd]
  split
  · exact .pure _
  · exact (firstOf_cuts hscan node.branches).bind fun _ => .pure _

theorem scanTerminal_cuts (hscan : ∀ id, Cuts c (scan id) (scan' id)) (id : StateId) (node : Node)
    (ruleId : RuleId) : Cuts c (scanTerminal g scan id node ruleId)
      (scanTerminal g scan' id node ruleId) := by
  refine (ofResult_cuts _).bind fun rule => checkSynced_cuts.bind fun _ => ?_
  refine (Cuts.of_heedless (evaluate_heedless rule ruleId)).bind fun result => ?_
  cases result with
  | success span =>
    refine (Cuts.of_heedless (advance_heedless span.stop)).bind fun _ => ?_
    refine (Cuts.of_heedless (emit_heedless id _)).bind fun _ => ?_
    exact (goOn_cuts hscan node).bind fun _ => .pure _
  | failure position =>
    exact (Cuts.of_heedless (noteFailure_heedless position)).bind fun _ => .pure _

theorem oneRound_cuts (hscan : ∀ id, Cuts c (scan id) (scan' id)) (id child : StateId)
    (max : Option UInt32) (done : Nat) :
    Cuts c (oneRound scan id child max done) (oneRound scan' id child max done) := by
  refine .get_bind fun s t hst => ?_
  rw [hst.atEnd]
  split
  · exact .pure _
  refine .get_bind fun s t hst => ?_
  rw [hst.position]
  refine (Cuts.of_heedless (note_heedless _)).bind fun _ => ?_
  refine (orDrop_cuts (hscan child)).bind fun _ => .get_bind fun s' t' hst' => ?_
  rw [hst'.active]
  refine (Cuts.of_heedless (note_heedless _)).bind fun _ => .get_bind fun s'' t'' hst'' => ?_
  rw [hst''.position]
  split
  · exact .pure _
  refine (Cuts.of_heedless (note_heedless _)).bind fun _ => ?_
  refine (Cuts.of_heedless clearTokens_heedless).bind fun _ => ?_
  exact (Cuts.of_heedless (note_heedless _)).bind fun _ => .pure _

theorem rounds_cuts (hscan : ∀ id, Cuts c (scan id) (scan' id)) (id child : StateId)
    (max : Option UInt32) (fuel done : Nat) :
    Cuts c (rounds scan id child max fuel done) (rounds scan' id child max fuel done) := by
  induction fuel generalizing done with
  | zero => exact .pure _
  | succ fuel ih =>
    refine (oneRound_cuts hscan id child max done).bind fun counts => ?_
    cases counts with
    | false => exact .pure _
    | true => exact ih (done + 1)

theorem runRounds_cuts (hscan : ∀ id, Cuts c (scan id) (scan' id)) (id child : StateId)
    (max : Option UInt32) : Cuts c (runRounds scan id child max) (runRounds scan' id child max) := by
  refine (Cuts.of_heedless push_heedless).bind fun _ => .get_bind fun s t hst => ?_
  rw [hst.scanner]
  refine (rounds_cuts hscan id child max _ 0).bind fun counted => ?_
  refine (Cuts.of_heedless (note_heedless _)).bind fun _ => ?_
  refine (Cuts.of_heedless (pop_heedless false)).bind fun _ => ?_
  exact (Cuts.of_heedless (note_heedless _)).bind fun _ => .pure _

theorem fallBack_cuts (entry : Nat) : Cuts c (fallBack entry) (fallBack entry) := by
  refine .get_bind fun s t hst => ?_
  rw [hst.shortfall]
  split
  · exact .of_heedless (moveTo_heedless entry)
  · exact .pure _

theorem conclude_cuts (hscan : ∀ id, Cuts c (scan id) (scan' id)) (id : StateId) (node : Node)
    (entry : Nat) (satisfied : Bool) :
    Cuts c (conclude scan id node entry satisfied) (conclude scan' id node entry satisfied) := by
  cases satisfied with
  | true => exact (Cuts.of_heedless (emitOwn_heedless id node.token)).bind fun _ => goOn_cuts hscan node
  | false => exact fallBack_cuts entry

theorem scanRepetition_cuts (hscan : ∀ id, Cuts c (scan id) (scan' id)) (id : StateId) (node : Node)
    (child : StateId) (min : UInt32) (max : Option UInt32) :
    Cuts c (scanRepetition scan id node child min max)
      (scanRepetition scan' id node child min max) := by
  refine (Cuts.of_heedless (note_heedless _)).bind fun _ => .get_bind fun s t hst => ?_
  rw [hst.position]
  refine (runRounds_cuts hscan id child max).bind fun counted => ?_
  refine (Cuts.of_heedless (note_heedless _)).bind fun _ => ?_
  exact (conclude_cuts hscan id node _ _).bind fun _ => .pure _

theorem scanChoice_cuts (hscan : ∀ id, Cuts c (scan id) (scan' id)) (id : StateId) (node : Node) :
    Cuts c (scanChoice scan id node) (scanChoice scan' id node) := by
  refine (firstOf_cuts hscan node.branches).bind fun found => ?_
  cases found with
  | false => exact .pure _
  | true => exact (Cuts.of_heedless (emitOwn_heedless id node.token)).bind fun _ => .pure _

/-- States are scanned alike up to the cut if the states that they name are. -/
theorem visit_cuts (hscan : ∀ id, Cuts c (scan id) (scan' id)) (id : StateId) :
    Cuts c (visit g scan id) (visit g scan' id) := by
  refine (ofResult_cuts _).bind fun node => ?_
  split
  · exact scanTerminal_cuts hscan id node _
  · exact scanRepetition_cuts hscan id node _ _ _
  · exact scanChoice_cuts hscan id node

end Visit

/-! ## The beginning of a state -/

/-- Where the other session may take a step and enter a level whenever the first may, what runs
inside is cut off alike, if it is known what comes of a refusal. -/
theorem nested_cuts {x y : Scanning Bool} (h : Cuts c x y)
    (enter : ∀ level s, c.before level s → s.guard.HasRoom →
      (s.under c.other).guard.HasRoom ∧ c.before (level + 1) s.deeper)
    (refuse : ∀ level s e, c.before level s → s.guard.enter = .error e →
      c.Goes level (.error (.error (.depthLimit e.limit)), s)
        (nested (fun e => .depthLimit e.limit) y (s.under c.other)))
    (back : ∀ level t, c.before (level + 1) t → c.before level (t.backAt level))
    (back_atCut : ∀ level t, c.atCut (level + 1) t → c.atCut level (t.backAt level)) :
    Cuts c (nested (fun e => .depthLimit e.limit) x)
      (nested (fun e => .depthLimit e.limit) y) where
  goes := by
    intro level s hs
    cases henter : s.guard.enter with
    | error e =>
      rw [nested_refused henter]
      exact refuse level s e hs henter
    | ok inner =>
      obtain ⟨hroom, -⟩ := DepthGuard.enter_eq_ok_iff.1 henter
      obtain ⟨hroom', hdeeper⟩ := enter level s hs hroom
      have hgoes := h.goes (level + 1) s.deeper hdeeper
      have hunder : s.deeper.under c.other = (s.under c.other).deeper := rfl
      rw [nested_entered hroom, nested_entered hroom', ← hunder]
      revert hgoes
      generalize x s.deeper = outcome
      generalize y (s.deeper.under c.other) = outcome'
      intro hgoes
      cases hgoes with
      | broken hbroken =>
        rcases outcome with ⟨answer, t⟩
        rcases outcome' with ⟨answer', u⟩
        rcases hbroken with rfl | rfl
        · cases t.guard.depth with
          | zero => exact .broken (.inl rfl)
          | succ depth => exact .broken (.inl rfl)
        · cases u.guard.depth with
          | zero => exact .broken (.inr rfl)
          | succ depth => exact .broken (.inr rfl)
      | @alike answer t hne ht =>
        have hdepth : t.guard.depth = level + 1 := c.level ht
        have hdepth' : (t.under c.other).guard.depth = level + 1 := hdepth
        simp only [hdepth, hdepth']
        exact .alike hne (back level t ht)
      | @off answer t u ht hu =>
        simp only [c.level_atCut ht]
        cases u.guard.depth with
        | zero => exact .off (back_atCut level t ht) hu
        | succ depth => exact .off (back_atCut level t ht) (c.persists.backAt u depth hu)
      | @endless t u ht hu =>
        simp only [c.level_atCut ht, hu]
        exact .endless (back_atCut level t ht) rfl
  keeps := fun s hs => nested_stays h.keeps hs (fun _ _ _ => trivial)
    (fun _ => c.persists.deeper s hs) (fun t depth ht _ => c.persists.backAt t depth ht) trivial
    fun _ ht _ => ht

theorem guard_under {settings other : Settings} (hs : Governed settings s)
    (h : other.maxDepth = settings.maxDepth) : (s.under other).guard = s.guard := by
  show { s.guard with limit := other.maxDepth } = s.guard
  rw [h, ← hs.guarded]

/-- Under the same limit for depth, and if this is not what cuts off, levels are entered alike. -/
theorem nested_cuts_of_eq {x y : Scanning Bool} (h : Cuts c x y)
    (hdepth : c.other.maxDepth = c.settings.maxDepth)
    (hstop : ∀ limit, c.stop ≠ .error (.depthLimit limit))
    (deeper : ∀ level s, c.before level s → c.before (level + 1) s.deeper)
    (back : ∀ level t, c.before (level + 1) t → c.before level (t.backAt level))
    (back_atCut : ∀ level t, c.atCut (level + 1) t → c.atCut level (t.backAt level)) :
    Cuts c (nested (fun e => .depthLimit e.limit) x)
      (nested (fun e => .depthLimit e.limit) y) := by
  refine nested_cuts h (fun level s hs hroom => ⟨?_, deeper level s hs⟩) ?_ back back_atCut
  · rwa [guard_under (c.governed hs) hdepth]
  · intro level s e hs henter
    rw [nested_refused ((congrArg _ (guard_under (c.governed hs) hdepth)).trans henter)]
    exact .alike (fun he => hstop e.limit (Except.error.inj he).symm) hs

/-- Under the same limit for steps, and if this is not what cuts off, steps are counted alike. -/
theorem step_cuts (hsteps : c.other.maxSteps = c.settings.maxSteps)
    (hstop : ∀ limit, c.stop ≠ .error (.stepLimit limit))
    (count : ∀ level s, c.before level s → c.before level s.stepped) : Cuts c step step where
  goes := by
    intro level s hs
    have hsteps' : (s.under c.other).settings.maxSteps = s.settings.maxSteps := by
      rw [(c.governed hs).same]
      exact hsteps
    rcases s.mayStep_or_overrun with hstep | ⟨limit, hlimit, hle⟩
    · have hstep' : (s.under c.other).MayStep := fun n hn => hstep n (hsteps' ▸ hn)
      rw [step_of_mayStep hstep, step_of_mayStep hstep']
      exact .alike nofun (count level s hs)
    · rw [step_overrun hlimit hle, step_overrun (hsteps'.trans hlimit) hle]
      exact .alike (fun he => hstop limit (Except.error.inj he).symm) (count level s hs)
  keeps := step_stays c.persists.nests

/-- What a cut has to make of the beginning of a state. -/
structure Cut.Begins (c : Cut) : Prop where
  step : Cuts c step step
  nested : ∀ {x y : Scanning Bool}, Cuts c x y →
    Cuts c (nested (fun e => .depthLimit e.limit) x) (nested (fun e => .depthLimit e.limit) y)

theorem scanNested_succ_cuts (h : c.Begins) {fuel fuel' : Nat}
    (hscan : ∀ id, Cuts c (scanNested g fuel id) (scanNested g fuel' id)) (id : StateId) :
    Cuts c (scanNested g (fuel + 1) id) (scanNested g (fuel' + 1) id) :=
  h.step.bind fun _ => h.nested (visit_cuts hscan id)

/-- **A scan is the same scan, cut off**, whatever bound there is for the nesting. -/
theorem scanNested_cuts (h : c.Begins) (hstop : c.stop ≠ .endless) (fuel : Nat) (id : StateId) :
    Cuts c (scanNested g fuel id) (scanNested g fuel id) := by
  induction fuel generalizing id with
  | zero => exact throw_cuts hstop.symm
  | succ fuel ih => exact scanNested_succ_cuts h ih id

end Lexigraph.Session
