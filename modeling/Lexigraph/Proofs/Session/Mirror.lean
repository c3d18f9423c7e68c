/-
# Lexigraph.Proofs.Session.Mirror -- states that are found again scan the same

A fresh session that scans or runs a state does the same as one that scans or runs its image:
the same answer, scanner, memo, frames and counters, and the same events but for the numbers of
states (`scan_sameOutcome`, `run_sameOutcome`). The numbers of rules and tokens are the same,
and so is what is remembered.

Grammars of different sizes set different bounds for the nesting of scans when there are no
limits. Two scans are then compared under the larger bound, which makes a difference to neither
(`scan_alikeOrEndless`): both are endless or they go alike.
-/

import Lexigraph.Proofs.Grammar.Mirror
import Lexigraph.Proofs.Session.Limits
import Lexigraph.Proofs.Session.Memo

namespace Lexigraph

open Attempt (Sim SameAnswer)

namespace Session

/-- The session with the states in its record renamed. -/
def rename (f : StateId → StateId) (s : Session) : Session :=
  { s with events := s.events.map (Event.rename f) }

theorem rename_id (s : Session) : s.rename id = s := by
  unfold rename
  rw [funext Event.rename_id, Array.map_id']

/-- A session in which nothing was done yet, whether or not it will remember results. -/
inductive Fresh : Session → Prop
  | remembering (source : String) (settings : Settings) : Fresh (.start source settings)
  | plain (source : String) (settings : Settings) : Fresh (.start source settings .off)

theorem Fresh.reached {g : Grammar} {s : Session} (hs : Fresh s) : Reached g s := by
  cases hs with
  | remembering source settings => exact .start source settings
  | plain source settings => exact .plain source settings

variable {g h : Grammar} {c : Correspondence} {source : Source} {s t : Session} {i j : StateId}
  {α β : Type}

/-! ## Grammars of different sizes -/

/-- Two outcomes are endless, or they are alike. -/
def AlikeOrEndless (c : Correspondence) (source : Source)
    (x y : Except (Stop ScanError) α × Session) : Prop :=
  (x.1 = .error .endless ∧ y.1 = .error .endless) ∨
    (SameAnswer Eq x.1 y.1 ∧ Alike c source x.2 y.2)

theorem AlikeOrEndless.bind {x y : Scanning α} {k k' : α → Scanning β}
    (hxy : AlikeOrEndless c source (x s) (y t))
    (hk : ∀ a s' t', x s = (.ok a, s') → y t = (.ok a, t') → Alike c source s' t' →
      AlikeOrEndless c source (k a s') (k' a t')) :
    AlikeOrEndless c source ((x >>= k) s) ((y >>= k') t) := by
  rw [Attempt.bind_apply, Attempt.bind_apply]
  revert hxy hk
  rcases x s with ⟨answer, s'⟩
  rcases y t with ⟨answer', t'⟩
  rintro (⟨rfl, rfl⟩ | ⟨hanswer, hst⟩) hk
  · exact .inl ⟨rfl, rfl⟩
  · cases hanswer with
    | error e => exact .inr ⟨.error e, hst⟩
    | ok hab =>
      subst hab
      exact hk _ s' t' rfl rfl hst

/-- Scans of corresponding states are both endless, or they go alike, also where the grammars set
different bounds for the nesting. -/
theorem scan_alikeOrEndless (fits : Fits c source g h) (hij : c.state i j)
    (hst : s.Alike c source t) (hs : Steady g s) (ht : Steady h t) :
    AlikeOrEndless c source (scan g i s) (scan h j t) := by
  generalize hbound : max (nestingBound g s.settings s.scanner.source.size)
    (nestingBound h t.settings t.scanner.source.size) = bound
  have hle : nestingBound g s.settings s.scanner.source.size ≤ bound := hbound ▸ Nat.le_max_left ..
  have hle' : nestingBound h t.settings t.scanner.source.size ≤ bound :=
    hbound ▸ Nat.le_max_right ..
  obtain ⟨hanswer, halike⟩ := scanNested_sim fits bound i j hij s t hst
  by_cases hend : (scan g i s).1 = .error .endless
  · left
    refine ⟨hend, ?_⟩
    -- if the second were not endless, it would be the same under the common bound
    by_contra hend'
    have heq := hanswer.eq
    rw [scanNested_endless hs hend, scanNested_of_le ht hle' hend'] at heq
    exact hend' heq.symm
  · rw [scanNested_of_le hs hle hend, ← scan_eq_scanNested] at hanswer halike
    have hend' : (scan h j t).1 ≠ .error .endless := by
      intro hend'
      have heq := hanswer.eq
      rw [scanNested_endless ht hend'] at heq
      exact hend heq
    rw [scanNested_of_le ht hle' hend', ← scan_eq_scanNested] at hanswer halike
    exact .inr ⟨hanswer, halike⟩

theorem passes_alikeOrEndless (fits : Fits c source g h) (hij : c.state i j) (fuel : Nat)
    (hst : s.Alike c source t) (hs : Steady g s) (ht : Steady h t) :
    AlikeOrEndless c source (passes g i fuel s) (passes h j fuel t) := by
  induction fuel generalizing s t with
  | zero => exact .inr ⟨.ok rfl, hst⟩
  | succ fuel ih =>
    unfold passes
    rw [Attempt.get_bind_apply, Attempt.get_bind_apply, hst.atEnd]
    by_cases hend : t.atEnd = true
    · rw [if_pos hend, if_pos hend]
      exact .inr ⟨.ok rfl, hst⟩
    rw [if_neg hend, if_neg hend, Attempt.get_bind_apply, Attempt.get_bind_apply, hst.current]
    apply (scan_alikeOrEndless fits hij hst hs ht).bind
    intro _ s' t' hs' ht' hst'
    -- each of the sessions goes on as a steady one
    have hscanned := (scan_scanned i s hs.toSound).of_eq hs'
    have hscanned' := (scan_scanned j t ht.toSound).of_eq ht'
    have hs₁ : Steady g s' := hs.onward hscanned.sound hscanned.covers.toOnward
    have ht₁ : Steady h t' := ht.onward hscanned'.sound hscanned'.covers.toOnward
    apply AlikeOrEndless.bind (.inr (checkMoved_sim t.position s' t' hst'))
    intro _ s₂ t₂ hs₂ ht₂ hst₂
    obtain ⟨-, hsame, -⟩ := (checkMoved_ensures hs₁.toSound t.position).of_eq hs₂
    obtain ⟨-, hsame', -⟩ := (checkMoved_ensures ht₁.toSound t.position).of_eq ht₂
    exact ih hst₂ (hsame ▸ hs₁) (hsame' ▸ ht₁)

theorem run_alikeOrEndless (fits : Fits c source g h) (hij : c.state i j)
    (hst : s.Alike c source t) (hs : Steady g s) (ht : Steady h t) :
    AlikeOrEndless c source (run g i s) (run h j t) := by
  unfold run
  rw [Attempt.get_bind_apply, Attempt.get_bind_apply, hst.bytesLeft]
  apply (passes_alikeOrEndless fits hij _ hst hs ht).bind
  intro _ s' t' _ _ hst'
  exact .inr (checkBalanced_sim s' t' hst')

/-! ## Mirrors -/

/-- A state of a set stands for its image; tokens and all that is remembered are the same. -/
def mirrored (states : StateId → Prop) (f : StateId → StateId) : Correspondence where
  state i j := states i ∧ f i = j
  token := Eq
  record memo n memo' n' := memo = memo' ∧ n = n'

variable {states : StateId → Prop} {f : StateId → StateId}

theorem scanner_eq_of_alike (hst : s.Alike (mirrored states f) source t) :
    s.scanner = t.scanner := by
  have hsource : s.scanner.source = t.scanner.source := hst.source_left.trans hst.source_right.symm
  have hposition := hst.position
  have hmarks := hst.marks
  have hcomparisons : s.scanner.comparisons = t.scanner.comparisons := hst.record.2
  revert hsource hposition hmarks hcomparisons
  rcases s.scanner with ⟨source, position, marks, comparisons, hposition, hmarks⟩
  rcases t.scanner with ⟨source', position', marks', comparisons', hposition', hmarks'⟩
  rintro rfl rfl rfl rfl
  rfl

/-- Alike sessions are the same but for the states in their records. -/
theorem eq_rename_of_alike (hst : s.Alike (mirrored states f) source t) : t = s.rename f := by
  have hevents : t.events = s.events.map (Event.rename f) :=
    hst.events_eq rfl fun i j hij => hij.2
  have houter := eq_of_forall₂ (fun _ _ hf => hf.eq rfl) hst.outer
  have hscanner := scanner_eq_of_alike hst
  have hactive := hst.active.eq rfl
  have hmemo : s.memo = t.memo := hst.record.1
  have hsettings := hst.settings
  have hguard := hst.guard
  have hsteps := hst.steps
  have hfurthest := hst.furthest
  clear hst
  rcases s with ⟨scanner, memo, settings, active, outer, guard, steps, furthest, events⟩
  rcases t with ⟨scanner', memo', settings', active', outer', guard', steps', furthest', events'⟩
  dsimp only at hevents houter hscanner hactive hmemo hsettings hguard hsteps hfurthest
  subst hevents houter hscanner hactive hmemo hsettings hguard hsteps hfurthest
  rfl

/-- What an evaluation does depends on the scanner and on the memo alone. -/
theorem evaluate_mirrored (rule : Rule) (id : RuleId) :
    Sim (Alike (mirrored states f) source) Eq (evaluate rule id) (evaluate rule id) := by
  intro s t hst
  obtain rfl := eq_rename_of_alike hst
  have hstays : ∀ result scanner, (rule.evaluate id s.scanner s.memo).1 = .ok (result, scanner) →
      scanner.source = s.scanner.source := fun _ _ => Rule.source_of_evaluate
  have hscanner : (s.rename f).scanner = s.scanner := rfl
  have hmemo : (s.rename f).memo = s.memo := rfl
  unfold evaluate
  rw [hscanner, hmemo]
  revert hstays
  rcases rule.evaluate id s.scanner s.memo with ⟨stop | ⟨result, scanner⟩, memo⟩
  · intro _
    exact ⟨.error stop, { hst with record := ⟨rfl, hst.record.2⟩ }⟩
  · intro hstays
    have hsource : scanner.source = source := (hstays result scanner rfl).trans hst.source_left
    exact ⟨.ok rfl, { hst with
      source_left := hsource
      source_right := hsource
      position := rfl
      marks := rfl
      record := ⟨rfl, rfl⟩ }⟩

theorem forall₂_mirrored {ids : List StateId} (hids : ∀ id ∈ ids, states id) :
    List.Forall₂ (mirrored states f).state ids (ids.map f) := by
  rw [List.forall₂_map_right_iff, List.forall₂_same]
  exact fun id hid => ⟨hids id hid, rfl⟩

/-- A state and its image are made alike. -/
theorem fits_mirrored (hm : g.Mirrors states f h) : Fits (mirrored states f) source g h := by
  rintro i _ ⟨hi, rfl⟩
  obtain ⟨node, hnode⟩ := hm.there i hi
  rw [Graph.node_eq_ok_iff.2 hnode, Graph.node_eq_ok_iff.2 (hm.nodes i node hi hnode)]
  have hnames := hm.closed i node hi hnode
  have hrules := hm.rules i node
  have hbranches : List.Forall₂ (mirrored states f).state node.branches (node.branches.map f) :=
    forall₂_mirrored fun j hj => hnames j (Node.branch_mem_successors hj)
  rcases node with ⟨kind, token, annotations, branches⟩
  refine .ok ?_
  cases kind with
  | terminal id =>
    refine .terminal ?_ hbranches
    unfold RuleTable.get
    rw [hrules id hi hnode rfl]
    cases g.rules.get? id with
    | none => exact .error _
    | some rule => exact .ok ⟨rfl, evaluate_mirrored rule id⟩
  | repetition child min max =>
    have hchild : states child := hnames child (Node.child_mem_successors rfl)
    exact .repetition ⟨hchild, rfl⟩ (optionRel_eq_refl token) hbranches
  | choice => exact .choice (optionRel_eq_refl token) hbranches

theorem Fresh.alike (hs : Fresh s) : s.Alike (mirrored states f) s.scanner.source s := by
  cases hs with
  | remembering source settings => exact start_alike source settings ⟨rfl, rfl⟩
  | plain source settings => exact start_alike source settings ⟨rfl, rfl⟩

/-! ## Scans and runs -/

/-- The outcome with the states in the record of the session renamed. -/
def renamed (f : StateId → StateId) (outcome : Except (Stop ScanError) α × Session) :
    Except (Stop ScanError) α × Session :=
  (outcome.1, outcome.2.rename f)

/-- Both outcomes are endless, or the second is the first one with the states renamed. -/
def SameOutcome (f : StateId → StateId) (x y : Except (Stop ScanError) α × Session) : Prop :=
  (x.1 = .error .endless ∧ y.1 = .error .endless) ∨ y = renamed f x

/-- Where no state is renamed, the outcomes are the same unless both are endless. -/
theorem SameOutcome.eq_or_endless {x y : Except (Stop ScanError) α × Session}
    (h : SameOutcome id x y) :
    y = x ∨ x.1 = .error .endless ∧ y.1 = .error .endless := by
  rcases h with hend | heq
  · exact .inr hend
  · left
    rw [heq, renamed, rename_id]

theorem eq_renamed_of_alike {x y : Except (Stop ScanError) α × Session}
    (hanswer : SameAnswer Eq x.1 y.1) (hst : x.2.Alike (mirrored states f) source y.2) :
    y = renamed f x :=
  Prod.ext hanswer.eq.symm (eq_rename_of_alike hst)

theorem AlikeOrEndless.sameOutcome {x y : Except (Stop ScanError) α × Session}
    (hxy : AlikeOrEndless (mirrored states f) source x y) : SameOutcome f x y := by
  rcases hxy with hend | ⟨hanswer, hst⟩
  · exact .inl hend
  · exact .inr (eq_renamed_of_alike hanswer hst)

/-- **A state and its image scan the same** in fresh sessions. -/
theorem scan_sameOutcome (hm : g.Mirrors states f h) (hi : states i) (hs : Fresh s) :
    SameOutcome f (scan g i s) (scan h (f i) s) :=
  (scan_alikeOrEndless (fits_mirrored hm) ⟨hi, rfl⟩ hs.alike hs.reached.steady
    hs.reached.steady).sameOutcome

/-- **A state and its image run the same** in fresh sessions. -/
theorem run_sameOutcome (hm : g.Mirrors states f h) (hi : states i) (hs : Fresh s) :
    SameOutcome f (run g i s) (run h (f i) s) :=
  (run_alikeOrEndless (fits_mirrored hm) ⟨hi, rfl⟩ hs.alike hs.reached.steady
    hs.reached.steady).sameOutcome

/-- Within one grammar the bounds for the nesting are the same, too. -/
theorem scan_mirrored (hm : g.Mirrors states f g) (hi : states i) :
    Sim (Alike (mirrored states f) source) Eq (scan g i) (scan g (f i)) := by
  refine Sim.get_bind fun s t hst => ?_
  rw [hst.settings, hst.source_left, hst.source_right]
  exact scanNested_sim (fits_mirrored hm) _ i (f i) ⟨hi, rfl⟩

theorem scan_eq_renamed (hm : g.Mirrors states f g) (hi : states i) (hs : Fresh s) :
    scan g (f i) s = renamed f (scan g i s) := by
  obtain ⟨hanswer, hst⟩ := scan_mirrored hm hi s s hs.alike
  exact eq_renamed_of_alike hanswer hst

theorem run_eq_renamed (hm : g.Mirrors states f g) (hi : states i) (hs : Fresh s) :
    run g (f i) s = renamed f (run g i s) := by
  obtain ⟨hanswer, hst⟩ := run_sim (scan_mirrored hm hi) s s hs.alike
  exact eq_renamed_of_alike hanswer hst

end Session

end Lexigraph
