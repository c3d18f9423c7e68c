/-
# Lexigraph.Proofs.Session.Greedy -- how often a bare terminal is repeated

Where the child of a repetition is a terminal without branches that matches no empty literal, the
rounds are told by the text alone. The terminal matches one literal after another until none
matches (`Rule.streak`), and each of them is a round that counts, up to the maximum. Then the
repetition is over, after one more scan of the child if neither the maximum nor the end of the
source is reached, and that scan matches nothing.

`repetition_greedy` says what the repetition comes to. It is satisfied if there are enough matches,
and then all of them are covered by its own token and by no other.
-/

import Mathlib.Algebra.GroupWithZero.Nat
import Lexigraph.Proofs.Session.Own
import Lexigraph.Proofs.Session.Turns
import Lexigraph.Proofs.Session.Watched

namespace Lexigraph

/-- The frame after the token of a state, if it has one, was emitted over what was pending. -/
def Frame.labelled (f : Frame) (label : Option TokenId) : Frame :=
  match label with
  | none => f
  | some token => if f.start < f.current then f.covered token else f

/-! ## The matches of a rule, one after another -/

/-- A literal in front of a text is a beginning of it. -/
theorem Scanner.eq_append_of_find? {literals : List String} {rest : List Char} {literal : String}
    (h : literals.find? (startsWith rest) = some literal) :
    rest = literal.toList ++ rest.drop literal.toList.length := by
  have hstarts : literal.toList <+: rest := by simpa [startsWith] using List.find?_some h
  exact (List.prefix_iff_eq_append.1 hstarts).symm

namespace Rule

/-- The literals that a rule matches from the beginning of a text on, each the first one that what
is left goes on with. An empty literal, which would match for ever, ends them. -/
def streak (r : Rule) (rest : List Char) : List String :=
  match _h : r.choices.toList.find? (Scanner.startsWith rest) with
  | none => []
  | some literal =>
    if _hne : literal = "" then []
    else literal :: r.streak (rest.drop literal.toList.length)
termination_by rest.length
decreasing_by
  have hpos : literal.toList.length ≠ 0 := by simpa using _hne
  have hle := congrArg List.length (Scanner.eq_append_of_find? _h)
  rw [List.length_append] at hle
  omega

variable {r : Rule} {rest : List Char} {literal : String}

theorem streak_of_none (h : r.choices.toList.find? (Scanner.startsWith rest) = none) :
    r.streak rest = [] := by
  unfold streak
  split
  · rfl
  · next h' => cases h.symm.trans h'

theorem streak_of_some (h : r.choices.toList.find? (Scanner.startsWith rest) = some literal)
    (hne : literal ≠ "") :
    r.streak rest = literal :: r.streak (rest.drop literal.toList.length) := by
  rw [streak]
  split
  · next h' => cases h.symm.trans h'
  · next h' =>
    obtain rfl := Option.some.inj (h.symm.trans h')
    rw [dif_neg hne]

end Rule

/-- Number of bytes that literals take one after another. -/
def sizeAll (literals : List String) : Nat := (literals.map fun l => Text.size l.toList).sum

@[simp] theorem sizeAll_nil : sizeAll [] = 0 := rfl

@[simp] theorem sizeAll_cons (literal : String) (literals : List String) :
    sizeAll (literal :: literals) = Text.size literal.toList + sizeAll literals := List.sum_cons

/-- Of `m` rounds, as many as the maximum allows after the first `done`. -/
def capped (max : Option UInt32) (done m : Nat) : Nat :=
  match max with
  | none => m
  | some max => min m (max.toNat - done)

theorem capped_of_reached {max : Option UInt32} {done : Nat}
    (h : max.any (·.toNat ≤ done) = true) (m : Nat) : capped max done m = 0 := by
  cases max with
  | none => cases h
  | some max =>
    have hle : max.toNat ≤ done := by simpa using h
    show min m (max.toNat - done) = 0
    omega

theorem capped_succ {max : Option UInt32} {done : Nat}
    (h : ¬ max.any (·.toNat ≤ done) = true) (m : Nat) :
    capped max done (m + 1) = capped max (done + 1) m + 1 := by
  cases max with
  | none => rfl
  | some max =>
    have hlt : ¬ max.toNat ≤ done := by simpa using h
    show min (m + 1) (max.toNat - done) = min m (max.toNat - (done + 1)) + 1
    omega

namespace Session

open Attempt (Ensures bind_apply)
open Passage (Over)

variable {g : Grammar} {s t u : Session} {id child : StateId} {rule : Rule} {token : TokenId}
  {max : Option UInt32}

/-! ## Scans of a bare terminal -/

/-- A terminal without branches that matches no empty literal, with its rule and the token that it
emits. -/
structure Bare (g : Grammar) (id : StateId) (rule : Rule) (token : TokenId) : Prop where
  terminal : ∃ node ruleId, g.graph.node? id = some node ∧ node.kind = .terminal ruleId ∧
    node.branches = [] ∧ g.rules.get? ruleId = some rule ∧ node.token.getD rule.token = token
  nonempty : ∀ literal ∈ rule.choices.toList, literal ≠ ""

theorem Bare.ne_of_find? (h : Bare g id rule token) {rest : List Char} {literal : String}
    (hfind : rule.choices.toList.find? (Scanner.startsWith rest) = some literal) : literal ≠ "" :=
  h.nonempty literal (List.mem_of_find?_eq_some hfind)

/-- A literal that it matches takes a byte at least. -/
theorem Bare.size_pos (h : Bare g id rule token) {rest : List Char} {literal : String}
    (hfind : rule.choices.toList.find? (Scanner.startsWith rest) = some literal) :
    0 < Text.size literal.toList := by
  refine Nat.pos_of_ne_zero fun hzero => h.ne_of_find? hfind ?_
  simpa using Text.size_eq_zero.1 hzero

/-- The token over a literal in front of a position, from where the pending text begins. -/
def tokenOver (token : TokenId) (start position : Nat) (literal : String) : Token :=
  ⟨token, start, position + Text.size literal.toList⟩

/-- What a scan of a bare terminal comes to: its first literal that matches is covered by its token,
or nothing is done. -/
def BareScan (rule : Rule) (token : TokenId) (child : StateId) (s : Session)
    (answer : Except (Stop ScanError) Bool) (t : Session) : Prop :=
  match rule.choices.toList.find? (Scanner.startsWith s.scanner.remaining) with
  | none => answer = .ok false ∧ t.active = s.active ∧ t.events = s.events
  | some literal =>
    let stop := s.position + Text.size literal.toList
    let token := tokenOver token s.active.start s.position literal
    answer = .ok true ∧ t.active = ⟨stop, stop, s.active.tokens.push token⟩ ∧
      t.events = s.events.push (.emitted child token)

theorem goOn_of_branches_nil {scan : StateId → Scanning Bool} {node : Node}
    (h : node.branches = []) (s : Session) : goOn scan node s = (.ok ⟨⟩, s) := by
  unfold goOn
  rw [Attempt.get_bind_apply, h]
  cases s.atEnd <;> rfl

theorem visit_bare (h : Bare g child rule token) (scan : StateId → Scanning Bool)
    (hs : Sound g s) (hend : s.atEnd = false) :
    Ensures (visit g scan child) s fun answer t =>
      BareScan rule token child s answer t ∧ t.steps = s.steps := by
  obtain ⟨node, ruleId, hnode, hkind, hbranches, hrule, htoken⟩ := h.terminal
  obtain ⟨scanner, memo, he, -⟩ := evaluate_eq_outcome hend hrule hs.memo
  unfold visit
  rw [Graph.node_eq_ok_iff.2 hnode, ofResult_bind]
  dsimp only
  rw [hkind]
  unfold scanTerminal
  dsimp only
  rw [RuleTable.get_eq_ok_iff.2 hrule, ofResult_bind]
  refine (checkSynced_ensures hs).bind (by simp) ?_
  rintro _ s' ⟨-, rfl⟩
  unfold Ensures
  rw [bind_apply, he]
  unfold BareScan
  cases hfind : rule.choices.toList.find? (Scanner.startsWith s'.scanner.remaining) with
  | none =>
    have hout : rule.outcome s'.scanner.remaining s'.scanner.position =
        .failure s'.scanner.position := by
      unfold Rule.outcome
      rw [hfind]
    rw [hout]
    exact ⟨⟨rfl, rfl, rfl⟩, rfl⟩
  | some literal =>
    have hout : rule.outcome s'.scanner.remaining s'.scanner.position =
        .success ⟨s'.position, s'.position + Text.size literal.toList⟩ := by
      unfold Rule.outcome
      rw [hfind, hs.synced]
    have hlt : s'.active.start < s'.position + Text.size literal.toList :=
      Nat.lt_of_le_of_lt hs.active.ordered (Nat.lt_add_of_pos_right (h.size_pos hfind))
    rw [hout]
    dsimp only
    rw [bind_apply, Attempt.modify_apply]
    dsimp only
    rw [bind_apply, emit_pending hlt]
    dsimp only
    rw [bind_apply, goOn_of_branches_nil hbranches, htoken]
    exact ⟨⟨rfl, rfl, rfl⟩, rfl⟩

/-- A scan of a bare terminal takes one step and one level. -/
theorem scanNested_bare (h : Bare g child rule token) (fuel : Nat) (hs : Sound g s)
    (hend : s.atEnd = false) (hstep : s.MayStep) (hroom : s.guard.HasRoom) :
    Ensures (scanNested g (fuel + 1) child) s fun answer t =>
      BareScan rule token child s answer t ∧ t.steps = s.steps + 1 := by
  have hinner : Sound g s.stepped.deeper := { hs with }
  have hdepth := (visit_ensures (scanNested_scanned fuel) child hinner).covers.depth
  have hvisit := visit_bare h (scanNested g fuel) hinner hend
  show Ensures (step >>= fun _ => nested _ _) s _
  unfold Ensures at hvisit ⊢
  rw [bind_apply, step_of_mayStep hstep]
  dsimp only
  have hroom' : s.stepped.guard.HasRoom := hroom
  rw [nested_apply hroom' hdepth]
  exact hvisit

/-! ## The rounds -/

/-- The matches that are rounds of a repetition, after the first `done`. -/
def counting (rule : Rule) (max : Option UInt32) (done : Nat) (rest : List Char) : List String :=
  (rule.streak rest).take (capped max done (rule.streak rest).length)

theorem length_counting (rule : Rule) (max : Option UInt32) (done : Nat) (rest : List Char) :
    (counting rule max done rest).length = capped max done (rule.streak rest).length := by
  have hle : ∀ m, capped max done m ≤ m := by
    intro m
    cases max with
    | none => exact Nat.le_refl m
    | some max => exact Nat.min_le_left ..
  unfold counting
  rw [List.length_take, Nat.min_eq_left (hle _)]

theorem counting_of_reached {done : Nat} (h : max.any (·.toNat ≤ done) = true)
    (rest : List Char) : counting rule max done rest = [] := by
  unfold counting
  rw [capped_of_reached h]
  rfl

theorem counting_of_none {rest : List Char}
    (h : rule.choices.toList.find? (Scanner.startsWith rest) = none) (done : Nat) :
    counting rule max done rest = [] := by
  unfold counting
  rw [Rule.streak_of_none h]
  exact List.take_nil

theorem counting_of_some {rest : List Char} {literal : String} {done : Nat}
    (h : rule.choices.toList.find? (Scanner.startsWith rest) = some literal) (hne : literal ≠ "")
    (hmax : ¬ max.any (·.toNat ≤ done) = true) :
    counting rule max done rest =
      literal :: counting rule max (done + 1) (rest.drop literal.toList.length) := by
  unfold counting
  rw [Rule.streak_of_some h hne, List.length_cons, capped_succ hmax, List.take_succ_cons]

/-- At the end of the source no literal matches. -/
theorem Bare.find?_atEnd (h : Bare g child rule token) (hend : s.atEnd = true) :
    rule.choices.toList.find? (Scanner.startsWith s.scanner.remaining) = none := by
  obtain ⟨front, hfront, hsize⟩ := s.scanner.source.exists_eq_append_rest s.scanner.position_ok
  have hle : s.scanner.source.size ≤ s.scanner.position := by
    simpa [Session.atEnd, Scanner.atEnd] using hend
  have hempty : s.scanner.remaining = [] := by
    apply Text.size_eq_zero.1
    have htotal := congrArg Text.size hfront
    rw [Text.size_append, ← Source.size_eq] at htotal
    show Text.size (s.scanner.source.rest _ _) = 0
    omega
  rw [hempty, List.find?_eq_none]
  intro literal hliteral hstarts
  refine h.nonempty literal hliteral ?_
  simpa [Scanner.startsWith] using hstarts

/-- Past a literal, what is left is what was left behind it. -/
theorem remaining_past {literal : String} (hs : Sound g s) (ht : Sound g t)
    (hsource : t.scanner.source = s.scanner.source)
    (hfind : rule.choices.toList.find? (Scanner.startsWith s.scanner.remaining) = some literal)
    (hposition : t.position = s.position + Text.size literal.toList) :
    t.scanner.remaining = s.scanner.remaining.drop literal.toList.length := by
  have hmoved : t.scanner.position = s.scanner.position + Text.size literal.toList := by
    rw [ht.synced, hposition, hs.synced]
  exact Scanner.remaining_of_past hsource hmoved (Scanner.eq_append_of_find? hfind)

/-- The session may scan `n` states more, one after another. -/
structure Admits (s : Session) (n : Nat) : Prop where
  steps : ∀ limit ∈ s.settings.maxSteps, s.steps + n ≤ limit
  level : 0 < n → s.guard.HasRoom

theorem Admits.mayStep {n : Nat} (h : s.Admits n) (hpos : 0 < n) : s.MayStep := by
  intro limit hlimit
  have hle := h.steps limit hlimit
  omega

/-- A scan takes one step and comes back up to the same level. -/
theorem Admits.next {n : Nat} (h : s.Admits (n + 1)) (hsteps : t.steps = s.steps + 1)
    (hsettings : t.settings = s.settings) (hlimit : t.guard.limit = s.guard.limit)
    (hdepth : t.guard.depth = s.guard.depth) : t.Admits n where
  steps := by
    rw [hsettings, hsteps]
    intro limit hlimit
    have hle := h.steps limit hlimit
    omega
  level := fun _ => by
    unfold DepthGuard.HasRoom
    rw [hlimit, hdepth]
    exact h.level n.succ_pos

/-- What is recorded of rounds after the first `done`, of which each matches a literal. -/
def roundEvents (id child : StateId) (token : TokenId) (done position : Nat) :
    List String → List Event
  | [] => []
  | literal :: literals =>
    [.beforeChild id done, .emitted child (tokenOver token position position literal),
      .afterChild id done 1, .beforeClear id, .afterClear id (done + 1)] ++
    roundEvents id child token (done + 1) (position + Text.size literal.toList) literals

/-- Scans of the child in rounds after the first `done`, of which each matches a literal. Unless the
rounds are over with that, there is one more scan, which matches nothing. -/
def scans (source : Source) (max : Option UInt32) (done position : Nat)
    (literals : List String) : Nat :=
  literals.length +
    if Over source max (done + literals.length) (position + sizeAll literals) then 0 else 1

theorem scans_cons (source : Source) (max : Option UInt32) (done position : Nat)
    (literal : String) (literals : List String) :
    scans source max done position (literal :: literals) =
      scans source max (done + 1) (position + Text.size literal.toList) literals + 1 := by
  have hcount : done + (literals.length + 1) = done + 1 + literals.length := by omega
  unfold scans
  rw [List.length_cons, sizeAll_cons, hcount, Nat.add_assoc position, Nat.add_right_comm]

/-- Where the rounds are not over, there is a scan at least. -/
theorem scans_pos {source : Source} {done position : Nat} (literals : List String)
    (hover : ¬ Over source max done position) : 0 < scans source max done position literals := by
  cases literals with
  | nil => simp [scans, hover]
  | cons literal literals => exact scans_cons .. ▸ Nat.succ_pos _

/-- What is recorded of a scan that matches nothing. -/
def missEvents (source : Source) (max : Option UInt32) (id : StateId) (done position : Nat) :
    List Event :=
  if Over source max done position then [] else [.beforeChild id done, .afterChild id done 0]

section Round

variable {scan : StateId → Scanning Bool} {done : Nat} {found : Bool}

/-- A round that emits nothing, or does not move forward, does not count. -/
theorem oneRound_missed (hgoes : ¬ (max.any (·.toNat ≤ done) || s.atEnd) = true)
    (hscan : scan child { s with events := s.events.push (.beforeChild id done) } = (.ok found, t))
    (hmissed : (decide (t.active.tokens.size = 0) || decide (t.position ≤ s.position)) = true) :
    oneRound scan id child max done s = (.ok false, { t with
      events := t.events.push (.afterChild id done t.active.tokens.size) }) := by
  unfold oneRound
  rw [Attempt.get_bind_apply, if_neg hgoes, Attempt.get_bind_apply]
  show ((orDrop (scan child) >>= _) _) = _
  rw [bind_apply, orDrop_of_ok hscan]
  exact congrFun (if_pos hmissed) _

/-- A round that emits a token and moves forward counts. -/
theorem oneRound_counted (hgoes : ¬ (max.any (·.toNat ≤ done) || s.atEnd) = true)
    (hscan : scan child { s with events := s.events.push (.beforeChild id done) } = (.ok found, t))
    (hcounts : ¬ (decide (t.active.tokens.size = 0) || decide (t.position ≤ s.position)) = true) :
    oneRound scan id child max done s = (.ok true, t.cleared id done) := by
  unfold oneRound
  rw [Attempt.get_bind_apply, if_neg hgoes, Attempt.get_bind_apply]
  show ((orDrop (scan child) >>= _) _) = _
  rw [bind_apply, orDrop_of_ok hscan]
  exact congrFun (if_neg hcounts) _

end Round

/-- What rounds after the first `done` come to that match some literals from a position on. -/
structure RoundsOf (id child : StateId) (token : TokenId) (max : Option UInt32) (done : Nat)
    (literals : List String) (s : Session) (answer : Except (Stop ScanError) Nat) (t : Session) :
    Prop where
  counted : answer = .ok (done + literals.length)
  position : t.position = s.position + sizeAll literals
  steps : t.steps = s.steps + scans s.scanner.source max done s.position literals
  events : t.events.toList = s.events.toList ++
    (roundEvents id child token done s.position literals ++
      missEvents s.scanner.source max id (done + literals.length) (s.position + sizeAll literals))

theorem RoundsOf.over {done : Nat} (h : Over s.scanner.source max done s.position) :
    RoundsOf id child token max done [] s (.ok done) s where
  counted := rfl
  position := rfl
  steps := by simp [scans, h]
  events := by simp [roundEvents, missEvents, h]

theorem over_iff (hs : Sound g s) (max : Option UInt32) (done : Nat) :
    (max.any (·.toNat ≤ done) || s.atEnd) = true ↔ Over s.scanner.source max done s.position := by
  unfold Session.atEnd Scanner.atEnd
  rw [Bool.or_eq_true, decide_eq_true_iff, hs.synced]

/-- A round that matches nothing is the last. -/
theorem RoundsOf.missed {done : Nat} (hover : ¬ Over s.scanner.source max done s.position)
    (hposition : t.position = s.position) (hsteps : t.steps = s.steps + 1)
    (hevents : t.events.toList =
      s.events.toList ++ [.beforeChild id done, .afterChild id done 0]) :
    RoundsOf id child token max done [] s (.ok done) t where
  counted := rfl
  position := hposition
  steps := by simp [scans, hover, hsteps]
  events := by simp [roundEvents, missEvents, hover, hevents]

/-- A round that counts goes before those that follow it. -/
theorem RoundsOf.cons {done : Nat} {literal : String} {literals : List String}
    {answer : Except (Stop ScanError) Nat}
    (hsource : t.scanner.source = s.scanner.source)
    (hposition : t.position = s.position + Text.size literal.toList)
    (hsteps : t.steps = s.steps + 1)
    (hevents : t.events.toList = s.events.toList ++
      [.beforeChild id done, .emitted child (tokenOver token s.position s.position literal),
        .afterChild id done 1, .beforeClear id, .afterClear id (done + 1)])
    (h : RoundsOf id child token max (done + 1) literals t answer u) :
    RoundsOf id child token max done (literal :: literals) s answer u := by
  have hcount : done + (literals.length + 1) = done + 1 + literals.length := by omega
  have hstop : s.position + sizeAll (literal :: literals) = t.position + sizeAll literals := by
    rw [hposition, sizeAll_cons, Nat.add_assoc]
  constructor
  · rw [h.counted, List.length_cons, hcount]
  · rw [h.position, hstop]
  · rw [h.steps, hsource, scans_cons, ← hposition, hsteps, Nat.add_assoc, Nat.add_comm 1]
  · rw [h.events, hsource, hstop, List.length_cons, hcount, hevents, hposition]
    simp [roundEvents]

/-- A round of a bare terminal, in a frame that was begun at the position, where the rounds are not
over. It counts if a literal matches, and leaves a frame that is begun past the literal. -/
theorem oneRound_bare {done : Nat} (h : Bare g child rule token) (fuel : Nat) (hs : Sound g s)
    (hactive : s.active = .startingAt s.position)
    (hover : ¬ Over s.scanner.source max done s.position) (hstep : s.MayStep)
    (hroom : s.guard.HasRoom) :
    Ensures (oneRound (scanNested g (fuel + 1)) id child max done) s fun answer t =>
      t.steps = s.steps + 1 ∧
      match rule.choices.toList.find? (Scanner.startsWith s.scanner.remaining) with
      | none => answer = .ok false ∧ t.position = s.position ∧ t.events.toList =
          s.events.toList ++ [.beforeChild id done, .afterChild id done 0]
      | some literal =>
        let stop := s.position + Text.size literal.toList
        answer = .ok true ∧ Sound g t ∧ t.active = .startingAt stop ∧
          t.scanner.source = s.scanner.source ∧ t.settings = s.settings ∧
          t.guard.limit = s.guard.limit ∧ t.guard.depth = s.guard.depth ∧
          t.events.toList = s.events.toList ++ [.beforeChild id done,
            .emitted child (tokenOver token s.position s.position literal),
            .afterChild id done 1, .beforeClear id, .afterClear id (done + 1)] := by
  have hgoes : ¬ (max.any (·.toNat ≤ done) || s.atEnd) = true := fun hend =>
    hover ((over_iff hs max done).1 hend)
  have hend : s.atEnd = false := by
    cases hatEnd : s.atEnd with
    | false => rfl
    | true => exact absurd (by rw [hatEnd, Bool.or_true]) hgoes
  have hnoted := hs.note (.beforeChild id done)
  have hbare := scanNested_bare h fuel hnoted hend hstep hroom
  have hscanned := scanNested_scanned (fuel + 1) child _ hnoted
  unfold Ensures at hbare hscanned ⊢
  rcases hscan : scanNested g (fuel + 1) child
    { s with events := s.events.push (.beforeChild id done) } with ⟨answer, t⟩
  rw [hscan] at hbare hscanned
  obtain ⟨hbare, hsteps⟩ := hbare
  unfold BareScan at hbare
  have hremaining : Scanner.remaining
      { s with events := s.events.push (.beforeChild id done) }.scanner = s.scanner.remaining := rfl
  rw [hremaining] at hbare
  cases hfind : rule.choices.toList.find? (Scanner.startsWith s.scanner.remaining) with
  | none =>
    rw [hfind] at hbare
    obtain ⟨rfl, hkept, hevents⟩ := hbare
    have hframe : t.active = .startingAt s.position := hkept.trans hactive
    have hmissed :
        (decide (t.active.tokens.size = 0) || decide (t.position ≤ s.position)) = true := by
      rw [hframe]
      rfl
    rw [oneRound_missed hgoes hscan hmissed]
    refine ⟨hsteps, rfl, congrArg Frame.current hkept, ?_⟩
    rw [hframe, hevents]
    simp [Frame.startingAt]
  | some literal =>
    rw [hfind] at hbare
    obtain ⟨rfl, hframe, hevents⟩ := hbare
    have hpos := h.size_pos hfind
    have htokens : t.active.tokens = #[tokenOver token s.position s.position literal] := by
      rw [hframe]
      show s.active.tokens.push _ = _
      rw [hactive]
      rfl
    have hposition : t.position = s.position + Text.size literal.toList :=
      congrArg Frame.current hframe
    have hcounts :
        ¬ (decide (t.active.tokens.size = 0) || decide (t.position ≤ s.position)) = true := by
      rw [htokens, hposition]
      simp
      omega
    rw [oneRound_counted hgoes hscan hcounts]
    refine ⟨hsteps, rfl, hscanned.sound.cleared id done, ?_, hscanned.covers.source,
      hscanned.covers.settings, hscanned.covers.limit, hscanned.covers.depth, ?_⟩
    · show { t.active with tokens := #[] } = _
      rw [hframe]
      rfl
    · show (((t.events.push _).push _).push _).toList = _
      rw [htokens, hevents]
      rw [hactive]
      simp [Frame.startingAt, Session.position]

/-- **The rounds of a bare terminal are its matches, one after another**, up to the maximum. -/
theorem rounds_bare (h : Bare g child rule token) (id : StateId) (fuel bound done : Nat)
    (hs : Sound g s)
    (hactive : s.active = .startingAt s.position) (hbound : s.scanner.bytesLeft ≤ bound)
    {literals : List String} (hliterals : counting rule max done s.scanner.remaining = literals)
    (hadmits : s.Admits (scans s.scanner.source max done s.position literals)) :
    Ensures (rounds (scanNested g (fuel + 1)) id child max bound done) s
      (RoundsOf id child token max done literals s) := by
  induction bound generalizing done s literals with
  | zero =>
    have hend := atEnd_of_bytesLeft (Nat.le_zero.1 hbound)
    have hover : Over s.scanner.source max done s.position :=
      (over_iff hs max done).1 (by rw [hend, Bool.or_true])
    rw [counting_of_none (h.find?_atEnd hend)] at hliterals
    subst hliterals
    exact Ensures.pure (.over hover)
  | succ bound ih =>
    by_cases hover : Over s.scanner.source max done s.position
    · -- at the maximum no match counts any more, and at the end there is none
      have hnone : counting rule max done s.scanner.remaining = [] := by
        rcases hover with hmax | hend
        · exact counting_of_reached hmax _
        · refine counting_of_none (h.find?_atEnd ?_) done
          exact decide_eq_true (hs.synced ▸ hend)
      rw [hnone] at hliterals
      subst hliterals
      unfold Ensures
      rw [rounds_over _ ((over_iff hs max done).2 hover)]
      exact .over hover
    have hpos := scans_pos literals hover
    refine (oneRound_bare h fuel hs hactive hover (hadmits.mayStep hpos) (hadmits.level hpos)).bind
      ?_ ?_
    · rintro e t ⟨-, ht⟩
      split at ht
      · cases ht.1
      · cases ht.1
    rintro counts t ⟨hsteps, ht⟩
    cases hfind : rule.choices.toList.find? (Scanner.startsWith s.scanner.remaining) with
    | none =>
      rw [hfind] at ht
      obtain ⟨hfalse, hposition, hevents⟩ := ht
      obtain rfl := Except.ok.inj hfalse
      rw [counting_of_none hfind] at hliterals
      subst hliterals
      exact Ensures.pure (.missed hover hposition hsteps hevents)
    | some literal =>
      rw [hfind] at ht
      obtain ⟨htrue, hsound, hframe, hsource, hsettings, hlimit, hdepth, hevents⟩ := ht
      obtain rfl := Except.ok.inj htrue
      have hposition : t.position = s.position + Text.size literal.toList :=
        congrArg Frame.current hframe
      have hmax : ¬ max.any (·.toNat ≤ done) = true := fun hmax => hover (.inl hmax)
      rw [counting_of_some hfind (h.ne_of_find? hfind) hmax,
        ← remaining_past hs hsound hsource hfind hposition] at hliterals
      subst hliterals
      have hlt : s.position < t.position := by
        have hpos := h.size_pos hfind
        omega
      have hleft := bytesLeft_le_of_lt hs hsound hsource hlt hbound
      refine (ih (done + 1) hsound (hposition ▸ hframe) hleft rfl ?_).mono fun answer u hrest =>
        .cons hsource hposition hsteps hevents hrest
      rw [scans_cons, ← hposition] at hadmits
      rw [hsource]
      exact hadmits.next hsteps hsettings hlimit hdepth

/-! ## A repetition of a bare terminal -/

/-- What a repetition records of itself before it emits its token, if its rounds match some
literals. -/
def repetitionEvents (source : Source) (id child : StateId) (token : TokenId) (min : UInt32)
    (max : Option UInt32) (position : Nat) (literals : List String) : List Event :=
  .enter id min max :: (roundEvents id child token 0 position literals ++
    (missEvents source max id literals.length (position + sizeAll literals) ++
      [.beforePop id, .afterPop id, .exit id literals.length (min.toNat ≤ literals.length)]))

theorem runRounds_bare (h : Bare g child rule token) (id : StateId) (fuel : Nat) (hs : Sound g s)
    {literals : List String} (hliterals : counting rule max 0 s.scanner.remaining = literals)
    (hadmits : s.Admits (scans s.scanner.source max 0 s.position literals)) :
    Ensures (runRounds (scanNested g (fuel + 1)) id child max) s fun answer t =>
      answer = .ok literals.length ∧ t.outer = s.outer ∧
      t.active = { s.active with current := s.position + sizeAll literals } ∧
      t.events.toList = s.events.toList ++ (roundEvents id child token 0 s.position literals ++
        (missEvents s.scanner.source max id literals.length (s.position + sizeAll literals) ++
          [.beforePop id, .afterPop id])) := by
  have hbare := rounds_bare h id fuel s.pushed.scanner.bytesLeft 0 hs.pushed rfl
    (Nat.le_refl _) hliterals { hadmits with }
  have hroom : 0 + s.pushed.scanner.bytesLeft ≤ s.pushed.scanner.source.size := by
    rw [Nat.zero_add]
    exact Nat.sub_le ..
  have hframe := rounds_ensures (scanNested_scanned (fuel + 1)) id child max _ 0 hs.pushed
    (List.cons_ne_nil _ _) hroom
  refine Ensures.modify_bind (Ensures.get_bind ?_)
  refine (hbare.and hframe).bind ?_ ?_
  · rintro e t ⟨hrounds, -⟩
    cases hrounds.counted
  rintro counted t ⟨hrounds, ⟨-, honward⟩, -⟩
  obtain rfl : counted = 0 + literals.length := Except.ok.inj hrounds.counted
  have hpop := pop_apply (s := { t with events := t.events.push (.beforePop id) }) honward.outer false
  refine Ensures.modify_bind ?_
  unfold Ensures
  rw [bind_apply, hpop]
  have hevents := hrounds.events
  rw [Nat.zero_add] at hevents ⊢
  refine ⟨rfl, rfl, ?_, ?_⟩
  · exact congrArg (fun current => { s.active with current }) hrounds.position
  · show ((t.events.push _).push _).toList = _
    rw [Array.toList_push, Array.toList_push, hevents]
    simp only [List.append_assoc]
    rfl

/-- Where a repetition comes to rest whose rounds ended at `stop`. If it fell short it goes back to
where it began, or stays. -/
def resting (shortfall : Shortfall) (satisfied : Bool) (entry stop : Nat) : Nat :=
  if satisfied then stop
  else match shortfall with
    | .rewind => entry
    | .keep => stop

theorem fallBack_rests {entry : Nat} (hok : s.scanner.source.IsBoundary entry) :
    Ensures (fallBack entry) s fun answer u => answer = .ok ⟨⟩ ∧ u.outer = s.outer ∧
      u.events = s.events ∧ u.active = { s.active with
        current := resting s.settings.shortfall false entry s.position } := by
  unfold Ensures resting
  rw [fallBack_apply hok]
  cases s.settings.shortfall <;> exact ⟨rfl, rfl, rfl, rfl⟩

/-- The own match of a repetition, before its token. -/
theorem matchRepetition_bare (h : Bare g child rule token) (id : StateId) (fuel : Nat)
    (hs : Sound g s)
    {literals : List String} (hliterals : counting rule max 0 s.scanner.remaining = literals)
    (hadmits : s.Admits (scans s.scanner.source max 0 s.position literals)) (min : UInt32) :
    Ensures (matchRepetition (scanNested g (fuel + 1)) id child min max) s fun answer u =>
      answer = .ok (decide (min.toNat ≤ literals.length)) ∧ u.outer = s.outer ∧
      u.active = { s.active with
        current := resting s.settings.shortfall (min.toNat ≤ literals.length) s.position
          (s.position + sizeAll literals) } ∧
      u.events.toList = s.events.toList ++
        repetitionEvents s.scanner.source id child token min max s.position literals := by
  have hnoted := hs.note (.enter id min max)
  have hruns := (runRounds_bare h id fuel hnoted hliterals { hadmits with }).and
    (runRounds_ensures (scanNested_scanned (fuel + 1)) id child max hnoted)
  refine Ensures.modify_bind (Ensures.get_bind (hruns.bind ?_ ?_))
  · rintro e t ⟨⟨hcounted, -⟩, -⟩
    cases hcounted
  rintro counted t ⟨⟨hcounted, houter, hframe, hevents⟩, hworks, -⟩
  obtain rfl : counted = literals.length := Except.ok.inj hcounted
  have hrecord : (t.events.push (.exit id literals.length (min.toNat ≤ literals.length))).toList =
      s.events.toList ++
        repetitionEvents s.scanner.source id child token min max s.position literals := by
    rw [Array.toList_push, hevents, Array.toList_push]
    simp only [List.append_assoc]
    rfl
  refine Ensures.modify_bind ?_
  cases hsatisfied : decide (min.toNat ≤ literals.length) with
  | true =>
    rw [hsatisfied] at hrecord
    exact Ensures.pure ⟨rfl, houter, hframe, hrecord⟩
  | false =>
    rw [hsatisfied] at hrecord
    -- the source is the same, so the repetition can go back to where it began
    have hok : t.scanner.source.IsBoundary s.position := by
      rw [hworks.covers.source]
      exact hs.active.current_ok
    have hback := fallBack_rests (s := { t with
      events := t.events.push (.exit id literals.length false) }) hok
    show Ensures (fallBack s.position >>= fun _ => pure false) _ _
    refine hback.bind ?_ ?_
    · rintro e u ⟨hanswer, -⟩
      cases hanswer
    rintro _ u ⟨-, houter', hevents', hframe'⟩
    refine Ensures.pure ⟨rfl, houter'.trans houter, ?_, hevents' ▸ hrecord⟩
    have hposition : t.position = s.position + sizeAll literals := congrArg Frame.current hframe
    have hsettings : t.settings = s.settings := hworks.covers.settings
    rw [hframe', ← hsettings, ← hposition]
    exact congrArg (fun f : Frame => { f with
      current := resting t.settings.shortfall false s.position t.position }) hframe

theorem emitOwn_labelled (id : StateId) (label : Option TokenId) (s : Session) :
    ∃ t, emitOwn id label s = (.ok ⟨⟩, t) ∧ t.active = s.active.labelled label ∧
      t.outer = s.outer := by
  cases label with
  | none => exact ⟨s, rfl, rfl, rfl⟩
  | some token =>
    unfold Frame.labelled
    by_cases h : s.active.start < s.active.current
    · exact ⟨_, emit_pending h, (if_pos h).symm, rfl⟩
    · exact ⟨s, emit_nothing h, (if_neg h).symm, rfl⟩

/-- There is room for a scan and, inside it, for `n` scans one after another. -/
structure Affords (s : Session) (n : Nat) : Prop where
  step : s.MayStep
  room : s.guard.HasRoom
  inside : s.stepped.deeper.Admits n

/-- A scan that has a step and a level may nest. -/
theorem exists_nesting {n : Nat} (hs : Steady g s) (h : s.Affords n) {node : Node}
    (hnode : g.graph.node? id = some node) :
    ∃ fuel, scan g id s = scanNested g (fuel + 2) id s := by
  have hbound : 1 < nestingBound g s.settings s.scanner.source.size := by
    by_cases hlimits : s.settings.maxDepth.isSome ∨ s.settings.maxSteps.isSome
    · obtain ⟨more, hmore, hroom⟩ := exists_nestingBound_eq (g := g) hlimits s.scanner.source.size
      -- if it may not nest, a limit is met already
      cases more with
      | zero =>
        rcases (hroom s ⟨rfl, hs.limit⟩).near with ⟨limit, hlimit, hle⟩ | ⟨limit, hlimit, hle⟩
        · exact absurd (h.room limit (hs.limit ▸ hlimit)) (Nat.not_lt.2 hle)
        · exact absurd (h.step limit hlimit) (Nat.not_lt.2 hle)
      | succ more => exact hmore ▸ Nat.succ_lt_succ (Nat.succ_pos _)
    · have hsize := size_lt_nestingBound hlimits g s.scanner.source.size
      exact Nat.lt_of_le_of_lt (Nat.zero_lt_of_lt (Graph.lt_size_of_node? hnode)) hsize
  obtain ⟨fuel, hfuel⟩ := Nat.exists_eq_add_of_le' hbound
  exact ⟨fuel, by rw [scan_eq_scanNested, hfuel]⟩

/-- A scan of a repetition is its match, what follows from that, and the way back. -/
theorem scanNested_repetition {node : Node} {least : UInt32} {matched : Bool} {own : Session}
    {fuel : Nat} (hs : Sound g s) (hnode : g.graph.node? id = some node)
    (hkind : node.kind = .repetition child least max) (hstep : s.MayStep)
    (hroom : s.guard.HasRoom)
    (hmatch : matchRepetition (scanNested g (fuel + 1)) id child least max s.stepped.deeper =
      (.ok matched, own)) :
    scanNested g (fuel + 2) id s =
      (let (answer, t) := followUp g (scanNested g (fuel + 1)) id matched own
       (answer, t.backAt s.guard.depth)) := by
  have hinner : Sound g s.stepped.deeper := { hs with }
  have hdepth := (visit_ensures (scanNested_scanned (fuel + 1)) id hinner).covers.depth
  have hvisit : visit g (scanNested g (fuel + 1)) id s.stepped.deeper =
      followUp g (scanNested g (fuel + 1)) id matched own := by
    unfold visit
    rw [Graph.node_eq_ok_iff.2 hnode, ofResult_bind]
    dsimp only
    rw [hkind]
    dsimp only
    rw [scanRepetition_eq hnode hkind, bind_apply, hmatch]
  show (step >>= fun _ => nested _ _) s = _
  rw [bind_apply, step_of_mayStep hstep]
  dsimp only
  have hroom : s.stepped.guard.HasRoom := hroom
  rw [nested_apply hroom hdepth, hvisit]
  rfl

/-- What a repetition that matched does is to emit its token and to go on. -/
theorem followUp_matched {scan : StateId → Scanning Bool} {node : Node} {least : UInt32}
    {own u : Session} (hnode : g.graph.node? id = some node)
    (hkind : node.kind = .repetition child least max)
    (hemit : emitOwn id node.token own = (.ok ⟨⟩, u)) :
    followUp g scan id true own =
      (let (answer, t) := goOn scan node u
       (answer.map fun _ => true, t)) := by
  have hlabel := Grammar.labelOf?_own hnode (by simp [hkind])
  unfold followUp
  rw [if_pos rfl, hlabel, goOnFrom_eq hnode (by simp [hkind]), bind_apply, hemit]
  dsimp only
  rw [bind_apply]
  rcases goOn scan node u with ⟨_ | _, t⟩ <;> rfl

/-- **A repetition of a bare terminal takes as many matches as it may.** From the position on, the
terminal matches one literal after another until none matches or nothing is left. The rounds that
count are these matches, or as many of them as the maximum allows, and the record shows no other. If
they are enough, the position is past them before the branches of the repetition are tried, and its
token covers all that is pending, without any token of the terminal left in the frame. Else no token
is emitted and no branch is tried, and the position is where it was, or past the matches if the
session stays where a repetition falls short.

Every session that operations lead to is sound, and so is every session in which a scan scans
another state. The limits have to leave room for the repetition and for its scans of the terminal. -/
theorem repetition_greedy (hs : Sound g s) {node : Node} {least : UInt32}
    (hnode : g.graph.node? id = some node) (hkind : node.kind = .repetition child least max)
    (hchild : Bare g child rule token) :
    let run := rule.streak s.scanner.remaining
    let k := max.elim run.length fun max => min run.length max.toNat
    let taken := run.take k
    let stop := s.position + sizeAll taken
    s.Affords (scans s.scanner.source max 0 s.position taken) →
    (∀ fuel, ∃ own : Session, own.outer = s.outer ∧
      own.events.toList = s.events.toList ++
        repetitionEvents s.scanner.source id child token least max s.position taken ∧
      (least.toNat ≤ k → own.active = { s.active with current := stop } ∧
        ∃ u, emitOwn id node.token own = (.ok ⟨⟩, u) ∧ u.outer = s.outer ∧
          u.active = Frame.labelled { s.active with current := stop } node.token ∧
          scanNested g (fuel + 2) id s =
            (let (answer, t) := goOn (scanNested g (fuel + 1)) node u
             (answer.map fun _ => true, t.backAt s.guard.depth))) ∧
      (k < least.toNat → scanNested g (fuel + 2) id s = (.ok false, own.backAt s.guard.depth) ∧
        own.active = { s.active with current := match s.settings.shortfall with
          | .rewind => s.position
          | .keep => stop })) ∧
    (Reached g s → ∃ fuel, scan g id s = scanNested g (fuel + 2) id s) := by
  intro run k taken stop haffords
  have htaken : counting rule max 0 s.scanner.remaining = taken := by
    cases max <;> rfl
  have hk : taken.length = k := by
    rw [← htaken, length_counting]
    cases max <;> rfl
  refine ⟨fun fuel => ?_, fun hreached => exists_nesting hreached.steady haffords hnode⟩
  have hinner : Sound g s.stepped.deeper := { hs with }
  have hown := matchRepetition_bare hchild id fuel hinner htaken haffords.inside least
  unfold Ensures at hown
  rcases hmatch : matchRepetition (scanNested g (fuel + 1)) id child least max s.stepped.deeper with
    ⟨answer, own⟩
  rw [hmatch] at hown
  obtain ⟨rfl, houter, hactive, hevents⟩ := hown
  rw [hk] at hmatch hactive
  have hscan := scanNested_repetition hs hnode hkind haffords.step haffords.room hmatch
  refine ⟨own, houter, hevents, fun henough => ?_, fun hfew => ?_⟩
  · have henough : decide (least.toNat ≤ k) = true := decide_eq_true henough
    rw [henough] at hscan hactive
    obtain ⟨u, hemit, hu, huouter⟩ := emitOwn_labelled id node.token own
    refine ⟨hactive, u, hemit, huouter.trans houter, hactive ▸ hu, hscan.trans ?_⟩
    rw [followUp_matched hnode hkind hemit]
    rcases goOn (scanNested g (fuel + 1)) node u with ⟨answer, t⟩
    rfl
  · have hshort : decide (least.toNat ≤ k) = false := decide_eq_false (Nat.not_le.2 hfew)
    rw [hshort] at hscan hactive
    exact ⟨hscan, hactive⟩

end Session

/-- Syllables that begin one another, two or three of them, and four at least. -/
def Grammar.syllables : Grammar where
  tokens := { names := #["syllable", "word", "phrase"], distinct := by decide }
  rules := { rules := #[{ token := ⟨0⟩, choices := { first := "a", others := ["ab", "é"] } }] }
  graph := { nodes := #[
    { kind := .terminal ⟨0⟩ },
    { kind := .repetition ⟨0⟩ 2 (some 3), token := some ⟨1⟩ },
    { kind := .repetition ⟨0⟩ 4 (some 3), token := some ⟨2⟩ }] }

namespace Session

theorem syllables_reached : Reached .syllables (.start "aéaab" { shortfall := .keep }) :=
  .start "aéaab" { shortfall := .keep }

theorem syllables_bare : Bare .syllables ⟨0⟩
    { token := ⟨0⟩, choices := { first := "a", others := ["ab", "é"] } } ⟨0⟩ where
  terminal := ⟨_, _, rfl, rfl, rfl, rfl, rfl⟩
  nonempty := by decide

theorem syllables_affords (n : Nat) :
    (Session.start "aéaab" { shortfall := .keep }).Affords n where
  step := nofun
  room := by
    rintro _ ⟨⟩
    decide
  inside := ⟨nofun, fun _ => by
    rintro _ ⟨⟩
    decide⟩

/-- Of the four matches three count. They are enough for a word, which is emitted as one token, and
too few for a phrase, which stays after them. -/
theorem repetition_greedy_syllables :
    (∃ (u : Session) (fuel : Nat), u.active = ⟨4, 4, #[⟨⟨1⟩, 0, 4⟩]⟩ ∧
      scan .syllables ⟨1⟩ (.start "aéaab" { shortfall := .keep }) =
        (let (answer, t) := goOn (scanNested .syllables (fuel + 1))
          { kind := .repetition ⟨0⟩ 2 (some 3), token := some ⟨1⟩ } u
         (answer.map fun _ => true, t.backAt 0))) ∧
    ∃ own : Session, own.active = ⟨0, 4, #[]⟩ ∧
      scan .syllables ⟨2⟩ (.start "aéaab" { shortfall := .keep }) = (.ok false, own.backAt 0) := by
  have hs := syllables_reached.steady.toSound
  constructor
  · have hnode : Grammar.syllables.graph.node? ⟨1⟩ =
        some { kind := .repetition ⟨0⟩ 2 (some 3), token := some ⟨1⟩ } := rfl
    obtain ⟨hscans, hnests⟩ :=
      repetition_greedy hs hnode rfl syllables_bare (syllables_affords _)
    obtain ⟨fuel, hfuel⟩ := hnests syllables_reached
    obtain ⟨own, -, -, henough, -⟩ := hscans fuel
    obtain ⟨-, u, -, -, hu, hscan⟩ := henough (by decide +kernel)
    refine ⟨u, fuel, hu.trans ?_, hfuel.trans hscan⟩
    decide +kernel
  · have hnode : Grammar.syllables.graph.node? ⟨2⟩ =
        some { kind := .repetition ⟨0⟩ 4 (some 3), token := some ⟨2⟩ } := rfl
    obtain ⟨hscans, hnests⟩ :=
      repetition_greedy hs hnode rfl syllables_bare (syllables_affords _)
    obtain ⟨fuel, hfuel⟩ := hnests syllables_reached
    obtain ⟨own, -, -, -, hfew⟩ := hscans fuel
    obtain ⟨hscan, hown⟩ := hfew (by decide +kernel)
    refine ⟨own, hown.trans ?_, hfuel.trans hscan⟩
    decide +kernel

end Session

end Lexigraph
