/-
# Lexigraph.Proofs.Session.Shift -- two scans, one of them further on

What is said of a scan must not depend on where in a text it takes place. Here two scans go side
by side: one in a session that has some text behind it, and frames, tokens and results that came
of it, and one in a session whose source begins where the first one stands. A `Lead` is what the
first session has behind it. It is `Ahead` of the second when it has the same text left and its
frames are those of the second, further on in the text and on top of the lead.

Scans of one state keep a session ahead, whatever they answer: they succeed alike or stop for the
same reason, told with offsets further on (`scanNested_carries`). A repetition works in a frame
of its own, which is gone when a round stops; so it is said how many frames there are before an
attempt, after a success and after a stop. There is one lemma for each part of a scan.
-/

import Lexigraph.Proofs.Session.Scanned

namespace Lexigraph

/-! ## Offsets further on -/

/-- A text with another one before it goes on as it does alone. -/
theorem Text.after?_size_append_add (a b : List Char) (n : Nat) :
    after? (a ++ b) (size a + n) = after? b n := by
  induction a with
  | nil => rw [List.nil_append, size_nil, Nat.zero_add]
  | cons c cs ih => rw [List.cons_append, size_cons, Nat.add_assoc, after?_cons, ih]

/-- The span, `n` bytes further on. -/
def Span.shift (n : Nat) (s : Span) : Span := ⟨n + s.start, n + s.stop⟩

/-- The same category, `n` bytes further on. -/
def Token.shift (n : Nat) (t : Token) : Token := { t with span := t.span.shift n }

/-- The same result, `n` bytes further on. -/
def MatchResult.shift (n : Nat) : MatchResult → MatchResult
  | .success span => .success (span.shift n)
  | .failure position => .failure (n + position)

/-- The same error, `n` bytes further on. -/
def ScanError.shift (n : Nat) : ScanError → ScanError
  | .unexpectedEnd position => .unexpectedEnd (n + position)
  | .nothingMatched furthest => .nothingMatched (n + furthest)
  | .depthLimit limit => .depthLimit limit
  | .stepLimit limit => .stepLimit limit
  | .grammar e => .grammar e

/-- The same fault; one that tells a position tells it `n` bytes further on. -/
def Fault.shift (n : Nat) : Fault → Fault
  | .outOfBounds position size => .outOfBounds (n + position) (n + size)
  | .splitsCharacter position => .splitsCharacter (n + position)
  | f => f

/-- The same stop, `n` bytes further on. -/
def Stop.shift (n : Nat) : Stop ScanError → Stop ScanError
  | .error e => .error (e.shift n)
  | .fault f => .fault (f.shift n)
  | .endless => .endless

theorem Stop.shift_eq_endless {n : Nat} {stop : Stop ScanError} :
    stop.shift n = .endless ↔ stop = .endless := by
  cases stop <;> simp [Stop.shift]

/-- A rule comes out the same where the same is left. -/
theorem Rule.outcome_shift (rule : Rule) (rest : List Char) (n position : Nat) :
    rule.outcome rest (n + position) = (rule.outcome rest position).shift n := by
  unfold outcome
  split
  · simp only [MatchResult.shift, Span.shift, Nat.add_assoc]
  · rfl

theorem MatchResult.stop_shift (n : Nat) (result : MatchResult) :
    (result.shift n).stop = n + result.stop := by
  cases result <;> rfl

/-! ## What a session has behind it -/

/-- The text before a position, and what a session made of it: the tokens of its active frame, and
the frames around that one. -/
structure Lead where
  text : List Char
  tokens : Array Token
  frames : List Frame

namespace Lead

/-- Number of bytes of the text. -/
def size (l : Lead) : Nat := Text.size l.text

/-- The frame, further on, with some tokens before its own. -/
def frame (l : Lead) (before : Array Token) (f : Frame) : Frame where
  start := l.size + f.start
  current := l.size + f.current
  tokens := before ++ f.tokens.map (Token.shift l.size)

/-- The tokens behind a frame that has some frames around it: those of the lead behind the root
frame, none behind any other. -/
def before (l : Lead) : List Frame → Array Token
  | [] => l.tokens
  | _ :: _ => #[]

/-- The frames, further on, the root frame on top of the lead. -/
def onto (l : Lead) : List Frame → List Frame
  | [] => l.frames
  | f :: outer => l.frame (l.before outer) f :: l.onto outer

end Lead

namespace Session

/-- The session `s` has the lead behind it, and then goes on as `t` does, which has `level` frames
around the active one. Events and counts do not matter, nor does what is remembered, as long as it
is right. -/
structure Ahead (g : Grammar) (l : Lead) (level : Nat) (s t : Session) : Prop where
  chars : s.scanner.source.chars = l.text ++ t.scanner.source.chars
  position : s.scanner.position = l.size + t.scanner.position
  settings : s.settings = t.settings
  unlimited : t.settings.maxSteps = none
  limit : s.guard.limit = t.guard.limit
  depth : s.guard.depth = t.guard.depth
  active : s.active = l.frame (l.before t.outer) t.active
  outer : s.outer = l.onto t.outer
  level : t.outer.length = level
  memo_left : s.memo.Coherent g.rules s.scanner.source
  memo_right : t.memo.Coherent g.rules t.scanner.source

variable {g : Grammar} {l : Lead} {m n k level : Nat} {s t : Session} {α β γ δ : Type}

namespace Ahead

theorem rest?_eq (h : Ahead g l level s t) (position : Nat) :
    s.scanner.source.rest? (l.size + position) = t.scanner.source.rest? position := by
  rw [Source.rest?_eq, Source.rest?_eq, h.chars]
  exact Text.after?_size_append_add ..

theorem isBoundary_iff (h : Ahead g l level s t) (position : Nat) :
    s.scanner.source.IsBoundary (l.size + position) ↔ t.scanner.source.IsBoundary position := by
  unfold Source.IsBoundary
  rw [h.rest?_eq]

theorem size_eq (h : Ahead g l level s t) :
    s.scanner.source.size = l.size + t.scanner.source.size := by
  rw [Source.size_eq, Source.size_eq, h.chars, Text.size_append]
  rfl

theorem remaining_eq (h : Ahead g l level s t) : s.scanner.remaining = t.scanner.remaining := by
  have hs := s.scanner.remaining_eq
  rw [h.position, h.rest?_eq, t.scanner.remaining_eq] at hs
  exact (Option.some.inj hs).symm

theorem current (h : Ahead g l level s t) : s.position = l.size + t.position :=
  congrArg Frame.current h.active

theorem atEnd (h : Ahead g l level s t) : s.atEnd = t.atEnd := by
  unfold Session.atEnd Scanner.atEnd
  rw [h.size_eq, h.position]
  exact decide_eq_decide.2 (Nat.add_le_add_iff_left ..)

theorem bytesLeft (h : Ahead g l level s t) : s.scanner.bytesLeft = t.scanner.bytesLeft := by
  unfold Scanner.bytesLeft
  rw [h.size_eq, h.position, Nat.add_sub_add_left]

/-- Inside a frame of its own, an attempt has as many tokens as without a lead. -/
theorem tokens_size (h : Ahead g l (level + 1) s t) :
    s.active.tokens.size = t.active.tokens.size := by
  obtain ⟨parent, outer, houter⟩ := List.exists_cons_of_length_eq_add_one h.level
  rw [h.active, houter]
  simp [Lead.frame, Lead.before]

end Ahead

/-! ## Attempts side by side -/

/-- How two attempts came out: both succeed, with values as `rel` says and `n` frames around the
active one, or both stop for the same reason, with `k` of them. -/
inductive Carried (g : Grammar) (l : Lead) (n k : Nat) (rel : α → β → Prop) :
    Except (Stop ScanError) α × Session → Except (Stop ScanError) β × Session → Prop
  | ok {a : α} {b : β} {s t : Session} (hab : rel a b) (hst : Ahead g l n s t) :
      Carried g l n k rel (.ok a, s) (.ok b, t)
  | stop (stop : Stop ScanError) {s t : Session} (hst : Ahead g l k s t) :
      Carried g l n k rel (.error (stop.shift l.size), s) (.error stop, t)

/-- Attempts that keep a session ahead: with `m` frames around the active one before, `n` after a
success and `k` after a stop. -/
def Carries (g : Grammar) (l : Lead) (m n k : Nat) (rel : α → β → Prop) (x : Scanning α)
    (y : Scanning β) : Prop :=
  ∀ s t, Ahead g l m s t → Carried g l n k rel (x s) (y t)

namespace Carries

variable {rel : α → β → Prop} {post : γ → δ → Prop} {n' : Nat}

theorem bind {x : Scanning α} {y : Scanning β} {f : α → Scanning γ} {f' : β → Scanning δ}
    (hx : Carries g l m n k rel x y)
    (hf : ∀ a b, rel a b → Carries g l n n' k post (f a) (f' b)) :
    Carries g l m n' k post (x >>= f) (y >>= f') := by
  intro s t hst
  have h := hx s t hst
  rw [Attempt.bind_apply, Attempt.bind_apply]
  revert h
  rcases x s with ⟨answer, s'⟩
  rcases y t with ⟨answer', t'⟩
  intro h
  cases h with
  | ok hab hst' => exact hf _ _ hab s' t' hst'
  | stop stop hst' => exact .stop stop hst'

theorem pure {a : α} {b : β} (h : rel a b) : Carries g l m m k rel (pure a) (pure b) :=
  fun _ _ hst => .ok h hst

theorem throw (stop : Stop ScanError) :
    Carries g l m n m rel (throw (stop.shift l.size)) (throw stop) :=
  fun _ _ hst => .stop stop hst

/-- Both read their session: they go on from two sessions that are known. -/
theorem get_bind {f : Session → Scanning γ} {f' : Session → Scanning δ}
    (h : ∀ s t, Ahead g l m s t → Carries g l m n k post (f s) (f' t)) :
    Carries g l m n k post (get >>= f) (get >>= f') :=
  fun s t hst => h s t hst s t hst

theorem modify {change change' : Session → Session}
    (h : ∀ s t, Ahead g l m s t → Ahead g l n (change s) (change' t)) :
    Carries g l m n k Eq (modify change : Scanning PUnit) (modify change') :=
  fun s t hst => .ok rfl (h s t hst)

end Carries

/-! ## The steps of a scan -/

theorem note_carries (event event' : Event) :
    Carries g l m m k Eq (note event) (note event') :=
  Carries.modify fun _ _ hst => { hst with }

theorem noteFailure_carries (position position' : Nat) :
    Carries g l m m k Eq (noteFailure position) (noteFailure position') :=
  Carries.modify fun _ _ hst => { hst with }

theorem push_carries : Carries g l m (m + 1) k Eq push push := by
  refine Carries.modify fun s t hst => { hst with active := ?_, outer := ?_, level := ?_ }
  · show Frame.startingAt s.position = _
    rw [hst.current]
    simp [Frame.startingAt, Lead.frame, Lead.before]
  · show s.active :: s.outer = _
    rw [hst.active, hst.outer]
    rfl
  · exact congrArg (· + 1) hst.level

/-- A frame that is dropped hands on its position; the frame around it is on top of the lead as it
was. -/
theorem pop_carries : Carries g l (m + 1) m k Eq (pop false) (pop false) := by
  intro s t hst
  obtain ⟨parent, outer, houter⟩ := List.exists_cons_of_length_eq_add_one hst.level
  have houter' : s.outer = l.frame (l.before outer) parent :: l.onto outer := by
    rw [hst.outer, houter]
    rfl
  rw [pop_apply houter, pop_apply houter']
  refine .ok rfl { hst with active := ?_, outer := rfl, level := ?_ }
  · have hcurrent : s.active.current = l.size + t.active.current := hst.current
    simp only [Lead.frame, hcurrent, Bool.false_eq_true, if_false]
  · have hlevel := hst.level
    rw [houter] at hlevel
    exact Nat.succ.inj hlevel

/-- A stop drops the frame in which it came up. -/
theorem orDrop_carries {rel : α → β → Prop} {x : Scanning α} {y : Scanning β}
    (h : Carries g l (m + 1) (m + 1) (m + 1) rel x y) :
    Carries g l (m + 1) (m + 1) m rel (orDrop x) (orDrop y) := by
  intro s t hst
  have h' := h s t hst
  unfold orDrop
  revert h'
  rcases x s with ⟨answer, s'⟩
  rcases y t with ⟨answer', t'⟩
  intro h'
  cases h' with
  | ok hab hst' => exact .ok hab hst'
  | stop stop hst' =>
    have hdrop : Carries g l (m + 1) (m + 1) m rel (do pop false; throw (stop.shift l.size))
        (do pop false; throw stop) :=
      Carries.bind pop_carries fun _ _ _ => Carries.throw stop
    exact hdrop s' t' hst'

theorem emit_carries (id : StateId) (token : TokenId) :
    Carries g l m m k Eq (emit id token) (emit id token) := by
  intro s t hst
  have hstart : s.active.start = l.size + t.active.start := congrArg Frame.start hst.active
  have hcurrent : s.active.current = l.size + t.active.current := hst.current
  by_cases hpending : t.active.start < t.active.current
  · have hpending' : s.active.start < s.active.current := by
      rw [hstart, hcurrent]
      exact Nat.add_lt_add_left hpending _
    have hspan : s.active.pending = t.active.pending.shift l.size := by
      unfold Frame.pending
      rw [hstart, hcurrent]
      rfl
    rw [emit_pending hpending, emit_pending hpending', hspan]
    refine .ok rfl { hst with active := ?_ }
    show ({ s.active with start := _, tokens := _ } : Frame) = _
    rw [hst.active]
    simp only [Lead.frame, Array.map_push, Array.append_push]
    rfl
  · have hnothing : ¬ s.active.start < s.active.current := by
      rw [hstart, hcurrent]
      exact fun h => hpending (Nat.lt_of_add_lt_add_left h)
    rw [emit_nothing hpending, emit_nothing hnothing]
    exact .ok rfl hst

theorem moveTo_carries (position : Nat) :
    Carries g l m m m Eq (moveTo (l.size + position)) (moveTo position) := by
  intro s t hst
  rw [moveTo_apply, moveTo_apply]
  unfold Scanner.moveTo
  rw [hst.size_eq]
  by_cases hout : t.scanner.source.size < position
  · rw [if_pos hout, if_pos (Nat.add_lt_add_left hout _)]
    exact .stop (.fault (.outOfBounds position t.scanner.source.size)) hst
  rw [if_neg hout, if_neg fun h => hout (Nat.lt_of_add_lt_add_left h)]
  by_cases hin : t.scanner.source.IsBoundary position
  · rw [dif_pos hin, dif_pos ((hst.isBoundary_iff position).2 hin)]
    refine .ok rfl { hst with position := rfl, active := ?_ }
    rw [hst.active]
    rfl
  · rw [dif_neg hin, dif_neg fun h => hin ((hst.isBoundary_iff position).1 h)]
    exact .stop (.fault (.splitsCharacter position)) hst

/-- The frame follows the scanner. -/
theorem advance_carries (position : Nat) :
    Carries g l m m k Eq
      (modify fun s => { s with active := { s.active with current := l.size + position } } :
        Scanning PUnit)
      (modify fun s => { s with active := { s.active with current := position } }) := by
  refine Carries.modify fun s t hst => { hst with active := ?_ }
  rw [hst.active]
  rfl

theorem clearTokens_carries : Carries g l (m + 1) (m + 1) k Eq clearTokens clearTokens := by
  refine Carries.modify fun s t hst => { hst with active := ?_ }
  obtain ⟨parent, outer, houter⟩ := List.exists_cons_of_length_eq_add_one hst.level
  rw [hst.active, houter]
  simp [Lead.frame, Lead.before]

theorem checkSynced_carries : Carries g l m m m Eq checkSynced checkSynced := by
  refine Carries.get_bind fun s t hst => ?_
  rw [hst.position, hst.current]
  by_cases hsync : t.scanner.position = t.position
  · rw [if_pos hsync, if_pos (congrArg (l.size + ·) hsync)]
    exact Carries.pure rfl
  · rw [if_neg hsync, if_neg fun h => hsync (Nat.add_left_cancel h)]
    exact Carries.throw (.fault .positionsDiffer)

theorem ofResult_carries (x : Except GrammarError α) :
    Carries g l m m m (fun a b => a = b ∧ x = .ok b)
      (Action.ofResult (x.mapError .grammar) : Scanning α) (Action.ofResult (x.mapError .grammar)) := by
  cases x with
  | ok a => exact Carries.pure ⟨rfl, rfl⟩
  | error e => exact Carries.throw (.error (.grammar e))

/-- A rule comes out the same, further on, whatever the two sessions remember. -/
theorem evaluate_carries {rule : Rule} {id : RuleId} (hrule : g.rules.get? id = some rule) :
    Carries g l m m m (fun a b => a = b.shift l.size) (evaluate rule id) (evaluate rule id) := by
  intro s t hst
  cases hend : t.scanner.atEnd with
  | true =>
    have hend' : s.scanner.atEnd = true := hst.atEnd.trans hend
    rw [evaluate_atEnd hend, evaluate_atEnd hend', hst.position]
    exact .stop (.error (.unexpectedEnd t.scanner.position)) hst
  | false =>
    have hend' : s.scanner.atEnd = false := hst.atEnd.trans hend
    obtain ⟨scanner, memo, he, -, hmemo, hleaves⟩ := evaluate_eq_outcome hend hrule hst.memo_right
    obtain ⟨scanner', memo', he', -, hmemo', hleaves'⟩ :=
      evaluate_eq_outcome hend' hrule hst.memo_left
    have houtcome : rule.outcome s.scanner.remaining s.scanner.position =
        (rule.outcome t.scanner.remaining t.scanner.position).shift l.size := by
      rw [hst.remaining_eq, hst.position, Rule.outcome_shift]
    rw [he, he', houtcome]
    refine .ok rfl { hst with
      chars := ?_
      position := ?_
      memo_left := hleaves'.source ▸ hmemo'
      memo_right := hleaves.source ▸ hmemo }
    · show scanner'.source.chars = l.text ++ scanner.source.chars
      rw [hleaves.source, hleaves'.source, hst.chars]
    · show scanner'.position = l.size + scanner.position
      rw [hleaves.position, hleaves'.position, houtcome, MatchResult.stop_shift]

/-! ## Going on and the kinds of states -/

section Visit

variable {scan scan' : StateId → Scanning Bool}

/-- Scans of a state keep a session ahead, however many frames there are. -/
def ScansCarry (g : Grammar) (l : Lead) (scan scan' : StateId → Scanning Bool) : Prop :=
  ∀ id level, Carries g l level level level Eq (scan id) (scan' id)

theorem firstOf_carries (hscan : ScansCarry g l scan scan') (ids : List StateId) :
    Carries g l m m m Eq (firstOf scan ids) (firstOf scan' ids) := by
  induction ids with
  | nil => exact Carries.pure rfl
  | cons id ids ih =>
    refine Carries.bind (hscan id m) ?_
    rintro found _ rfl
    cases found with
    | true => exact Carries.pure rfl
    | false => exact ih

theorem goOn_carries (hscan : ScansCarry g l scan scan') (node : Node) :
    Carries g l m m m Eq (goOn scan node) (goOn scan' node) := by
  refine Carries.get_bind fun s t hst => ?_
  rw [hst.atEnd]
  by_cases hend : t.atEnd = true
  · rw [if_pos hend, if_pos hend]
    exact Carries.pure rfl
  · rw [if_neg hend, if_neg hend]
    exact Carries.bind (firstOf_carries hscan node.branches) fun _ _ _ => Carries.pure rfl

theorem scanTerminal_carries (hscan : ScansCarry g l scan scan') (id : StateId) (node : Node)
    (ruleId : RuleId) :
    Carries g l m m m Eq (scanTerminal g scan id node ruleId)
      (scanTerminal g scan' id node ruleId) := by
  refine Carries.bind (ofResult_carries (g.rules.get ruleId)) ?_
  rintro rule _ ⟨rfl, hrule⟩
  refine Carries.bind checkSynced_carries fun _ _ _ => ?_
  refine Carries.bind (evaluate_carries (RuleTable.get_eq_ok_iff.1 hrule)) ?_
  rintro _ result rfl
  cases result with
  | success span =>
    refine Carries.bind (advance_carries span.stop) fun _ _ _ => ?_
    refine Carries.bind (emit_carries id _) fun _ _ _ => ?_
    exact Carries.bind (goOn_carries hscan node) fun _ _ _ => Carries.pure rfl
  | failure position =>
    exact Carries.bind (noteFailure_carries _ position) fun _ _ _ => Carries.pure rfl

/-- The frame of the rounds is there after a round that came to an end, and gone after a stop. -/
theorem oneRound_carries (hscan : ScansCarry g l scan scan') (id child : StateId)
    (max : Option UInt32) (done : Nat) :
    Carries g l (m + 1) (m + 1) m Eq (oneRound scan id child max done)
      (oneRound scan' id child max done) := by
  refine Carries.get_bind fun s t hst => ?_
  rw [hst.atEnd]
  by_cases hover : (max.any (·.toNat ≤ done) || t.atEnd) = true
  · rw [if_pos hover, if_pos hover]
    exact Carries.pure rfl
  rw [if_neg hover, if_neg hover]
  refine Carries.get_bind fun s t hst => ?_
  refine Carries.bind (note_carries _ _) fun _ _ _ => ?_
  refine Carries.bind (orDrop_carries (hscan child (m + 1))) fun _ _ _ => ?_
  refine Carries.get_bind fun s' t' hst' => ?_
  rw [hst'.tokens_size]
  refine Carries.bind (note_carries _ _) fun _ _ _ => ?_
  refine Carries.get_bind fun s'' t'' hst'' => ?_
  -- both positions are further on by the same number of bytes
  have hmoved : decide (s''.position ≤ s.position) = decide (t''.position ≤ t.position) := by
    rw [hst.current, hst''.current]
    exact decide_eq_decide.2 (Nat.add_le_add_iff_left ..)
  rw [hmoved]
  by_cases hlast : (decide (t'.active.tokens.size = 0) ||
      decide (t''.position ≤ t.position)) = true
  · rw [if_pos hlast]
    exact Carries.pure rfl
  · rw [if_neg hlast]
    refine Carries.bind (note_carries _ _) fun _ _ _ => ?_
    refine Carries.bind clearTokens_carries fun _ _ _ => ?_
    exact Carries.bind (note_carries _ _) fun _ _ _ => Carries.pure rfl

theorem rounds_carries (hscan : ScansCarry g l scan scan') (id child : StateId)
    (max : Option UInt32) (fuel done : Nat) :
    Carries g l (m + 1) (m + 1) m Eq (rounds scan id child max fuel done)
      (rounds scan' id child max fuel done) := by
  induction fuel generalizing done with
  | zero => exact Carries.pure rfl
  | succ fuel ih =>
    refine Carries.bind (oneRound_carries hscan id child max done) ?_
    rintro counts _ rfl
    cases counts with
    | false => exact Carries.pure rfl
    | true => exact ih (done + 1)

theorem runRounds_carries (hscan : ScansCarry g l scan scan') (id child : StateId)
    (max : Option UInt32) :
    Carries g l m m m Eq (runRounds scan id child max) (runRounds scan' id child max) := by
  refine Carries.bind push_carries fun _ _ _ => ?_
  refine Carries.get_bind fun s t hst => ?_
  rw [hst.bytesLeft]
  refine Carries.bind (rounds_carries hscan id child max _ 0) ?_
  rintro counted _ rfl
  refine Carries.bind (note_carries _ _) fun _ _ _ => ?_
  refine Carries.bind pop_carries fun _ _ _ => ?_
  exact Carries.bind (note_carries _ _) fun _ _ _ => Carries.pure rfl

theorem emitOwn_carries (id : StateId) (token : Option TokenId) :
    Carries g l m m m Eq (emitOwn id token) (emitOwn id token) := by
  cases token with
  | none => exact Carries.pure rfl
  | some token => exact emit_carries id token

theorem fallBack_carries (entry : Nat) :
    Carries g l m m m Eq (fallBack (l.size + entry)) (fallBack entry) := by
  refine Carries.get_bind fun s t hst => ?_
  rw [hst.settings]
  by_cases hrewind : t.settings.shortfall = .rewind
  · rw [if_pos hrewind, if_pos hrewind]
    exact moveTo_carries entry
  · rw [if_neg hrewind, if_neg hrewind]
    exact Carries.pure rfl

theorem conclude_carries (hscan : ScansCarry g l scan scan') (id : StateId) (node : Node)
    (entry : Nat) (satisfied : Bool) :
    Carries g l m m m Eq (conclude scan id node (l.size + entry) satisfied)
      (conclude scan' id node entry satisfied) := by
  cases satisfied with
  | true => exact Carries.bind (emitOwn_carries id node.token) fun _ _ _ => goOn_carries hscan node
  | false => exact fallBack_carries entry

theorem scanRepetition_carries (hscan : ScansCarry g l scan scan') (id : StateId) (node : Node)
    (child : StateId) (min : UInt32) (max : Option UInt32) :
    Carries g l m m m Eq (scanRepetition scan id node child min max)
      (scanRepetition scan' id node child min max) := by
  refine Carries.bind (note_carries _ _) fun _ _ _ => ?_
  refine Carries.get_bind fun s t hst => ?_
  rw [hst.current]
  refine Carries.bind (runRounds_carries hscan id child max) ?_
  rintro counted _ rfl
  refine Carries.bind (note_carries _ _) fun _ _ _ => ?_
  exact Carries.bind (conclude_carries hscan id node t.position _) fun _ _ _ => Carries.pure rfl

theorem scanChoice_carries (hscan : ScansCarry g l scan scan') (id : StateId) (node : Node) :
    Carries g l m m m Eq (scanChoice scan id node) (scanChoice scan' id node) := by
  refine Carries.bind (firstOf_carries hscan node.branches) ?_
  rintro found _ rfl
  cases found with
  | false => exact Carries.pure rfl
  | true => exact Carries.bind (emitOwn_carries id node.token) fun _ _ _ => Carries.pure rfl

theorem visit_carries (hscan : ScansCarry g l scan scan') (id : StateId) :
    Carries g l m m m Eq (visit g scan id) (visit g scan' id) := by
  refine Carries.bind (ofResult_carries (g.graph.node id)) ?_
  rintro node _ ⟨rfl, -⟩
  cases hkind : node.kind with
  | terminal ruleId => exact scanTerminal_carries hscan id node ruleId
  | repetition child min max => exact scanRepetition_carries hscan id node child min max
  | choice => exact scanChoice_carries hscan id node

end Visit

/-! ## Scans -/

/-- Without a limit for steps, to count one always succeeds. -/
theorem step_carries : Carries g l m m m Eq step step := by
  have hcount : Carries g l m m m Eq
      (modify fun s => { s with steps := s.steps + 1 } : Scanning PUnit)
      (modify fun s => { s with steps := s.steps + 1 }) :=
    Carries.modify fun _ _ hst => { hst with }
  refine Carries.bind hcount fun _ _ _ => ?_
  refine Carries.get_bind fun s t hst => ?_
  rw [hst.settings, hst.unlimited]
  exact Carries.pure rfl

theorem nested_carries {body body' : Scanning Bool}
    (h : Carries g l m m m Eq body body') :
    Carries g l m m m Eq (nested (fun e => .depthLimit e.limit) body)
      (nested (fun e => .depthLimit e.limit) body') := by
  intro s t hst
  cases henter : t.guard.enter with
  | error e =>
    have henter' : s.guard.enter = .error e := by
      rw [DepthGuard.enter_eq_error_iff] at henter ⊢
      rwa [hst.limit, hst.depth]
    rw [nested_refused henter, nested_refused henter']
    exact .stop (.error (.depthLimit e.limit)) hst
  | ok inner =>
    obtain ⟨hroom, -⟩ := DepthGuard.enter_eq_ok_iff.1 henter
    have hroom' : s.guard.HasRoom := by
      unfold DepthGuard.HasRoom
      rwa [hst.limit, hst.depth]
    have hdeeper : Ahead g l m s.deeper t.deeper :=
      { hst with depth := congrArg (· + 1) hst.depth }
    have hbody := h _ _ hdeeper
    rw [nested_entered hroom, nested_entered hroom']
    revert hbody
    rcases body s.deeper with ⟨answer, s'⟩
    rcases body' t.deeper with ⟨answer', t'⟩
    intro hbody
    -- the bodies come back at the same depth, and from there both come up or both are at the top
    have hback : ∀ hst' : Ahead g l m s' t', ∀ depth, Ahead g l m (s'.backAt depth)
        (t'.backAt depth) := fun hst' depth => { hst' with depth := rfl }
    cases hbody with
    | ok hab hst' =>
      dsimp only
      rw [hst'.depth]
      split
      · exact .stop (.fault .unpairedExit) hst'
      · exact .ok hab (hback hst' _)
    | stop stop hst' =>
      dsimp only
      rw [hst'.depth]
      split
      · exact .stop (.fault .unpairedExit) hst'
      · exact .stop stop (hback hst' _)

/-- **Scans keep a session ahead**, however deep they may nest. -/
theorem scanNested_carries (fuel : Nat) :
    ScansCarry g l (scanNested g fuel) (scanNested g fuel) := by
  induction fuel with
  | zero => exact fun _ _ => Carries.throw .endless
  | succ fuel ih =>
    exact fun id _ => Carries.bind step_carries fun _ _ _ => nested_carries (visit_carries ih id)

end Session

end Lexigraph
