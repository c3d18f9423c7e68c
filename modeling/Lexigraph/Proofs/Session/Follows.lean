/-
# Lexigraph.Proofs.Session.Follows -- scans do what the evaluator says

A scan in a session and an evaluation without one go side by side: nested equally deep, from
the beginning and the position of the active frame, the scan answers what the evaluator
answers, and leaves the active frame where the passage ends, with the tokens of the passage
after those that it had (`scanNested_follows`). Only a limit of the session can cut a scan
off that the evaluator goes on with. Nothing else of a session has a say in this: not the
tokens emitted before, nor the frames below, nor the memo.

There is one lemma for each part of a scan, beside the part of the evaluator that it follows.
-/

import Lexigraph.Proofs.Passage
import Lexigraph.Proofs.Session.Ending

namespace Lexigraph.Session

open Attempt (Ensures)

variable {g : Grammar} {s t u : Session} {p : Passage} {α β γ δ : Type}

/-! ## A session beside a passage -/

/-- A limit of the session stops a scan. -/
def CutOff (s : Session) (stop : Stop ScanError) : Prop :=
  (∃ limit ∈ s.settings.maxSteps, stop = .error (.stepLimit limit)) ∨
    ∃ limit ∈ s.guard.limit, stop = .error (.depthLimit limit)

theorem CutOff.of_onward {stop : Stop ScanError} (h : Onward s t) (hcut : CutOff t stop) :
    CutOff s stop := by
  unfold CutOff at hcut
  rwa [h.settings, h.limit] at hcut

/-- A session that stands where a passage from `s` on ends. -/
structure Stands (g : Grammar) (s : Session) (p : Passage) (t : Session) : Prop where
  sound : Sound g t
  covers : Covers s t
  start_eq : t.active.start = p.start
  position_eq : t.position = p.position
  tokens_eq : t.active.tokens.toList = s.active.tokens.toList ++ p.emitted

theorem Stands.after {q : Passage} (hp : Stands g s p t) (hq : Stands g t q u) :
    Stands g s (q.after p) u where
  sound := hq.sound
  covers := hp.covers.trans hq.covers
  start_eq := hq.start_eq
  position_eq := hq.position_eq
  tokens_eq := by
    rw [hq.tokens_eq, hp.tokens_eq, List.append_assoc]
    rfl

/-- Nothing was passed over yet. -/
theorem Stands.refl (hs : Sound g s) (matched : Bool) :
    Stands g s { matched, start := s.active.start, position := s.position } s :=
  ⟨hs, .refl s, rfl, rfl, (List.append_nil _).symm⟩

/-- Whether a passage counts as a match makes no difference to where it ends. -/
theorem Stands.withMatched (h : Stands g s p t) (matched : Bool) :
    Stands g s { p with matched } t := { h with }

/-- An answer is the one that was expected, in a session as `rel` says, unless a limit cut the
attempt off. -/
def Tracks (s : Session) (rel : α → β → Session → Prop) (expected : Except (Stop ScanError) β)
    (answer : Except (Stop ScanError) α) (t : Session) : Prop :=
  match answer with
  | .ok a => ∃ b, expected = .ok b ∧ rel a b t
  | .error stop => CutOff s stop ∨ expected = .error stop

theorem Tracks.bind {x : Scanning α} {f : α → Scanning γ} {expected : Except (Stop ScanError) β}
    {k : β → Except (Stop ScanError) δ} {rel : α → β → Session → Prop}
    {rel' : γ → δ → Session → Prop} (hx : Ensures x t (Tracks s rel expected))
    (hf : ∀ a b u, rel a b u → Ensures (f a) u (Tracks s rel' (k b))) :
    Ensures (x >>= f) t (Tracks s rel' (expected >>= k)) := by
  refine Ensures.bind hx ?_ ?_
  · rintro stop u (hcut | rfl)
    · exact .inl hcut
    · exact .inr rfl
  · rintro a u ⟨b, rfl, h⟩
    exact hf a b u h

/-- An attempt that began further on, where the same limits hold. -/
theorem Tracks.of_onward {expected : Except (Stop ScanError) β} {rel : α → β → Session → Prop}
    {answer : Except (Stop ScanError) α} (h : Onward s t)
    (htracks : Tracks t rel expected answer u) : Tracks s rel expected answer u := by
  cases answer with
  | ok a => exact htracks
  | error stop => exact htracks.imp (CutOff.of_onward h) id

/-- What else is known of the session after a success. -/
theorem Tracks.and {expected : Except (Stop ScanError) β} {rel : α → β → Session → Prop}
    {known : α → Session → Prop} {answer : Except (Stop ScanError) α}
    (htracks : Tracks s rel expected answer t) (h : ∀ a, answer = .ok a → known a t) :
    Tracks s (fun a b t => rel a b t ∧ known a t) expected answer t := by
  cases answer with
  | ok a =>
    obtain ⟨b, hexpected, hb⟩ := htracks
    exact ⟨b, hexpected, hb, h a rfl⟩
  | error stop => exact htracks

/-- What is made of a result changes no stop. -/
theorem Tracks.map {expected : Except (Stop ScanError) β} {rel : α → β → Session → Prop}
    {rel' : α → δ → Session → Prop} {k : β → δ} {answer : Except (Stop ScanError) α}
    (htracks : Tracks s rel expected answer t) (h : ∀ a b, rel a b t → rel' a (k b) t) :
    Tracks s rel' (expected >>= fun b => pure (k b)) answer t := by
  cases answer with
  | ok a =>
    obtain ⟨b, rfl, hb⟩ := htracks
    exact ⟨k b, rfl, h a b hb⟩
  | error stop =>
    refine htracks.imp id ?_
    rintro rfl
    rfl

/-- A scan from `s` answers whether the state matched, and ends where the passage does. -/
abbrev Follows (g : Grammar) (s : Session) (expected : Except (Stop ScanError) Passage)
    (answer : Except (Stop ScanError) Bool) (t : Session) : Prop :=
  Tracks s (fun found p t => p.matched = found ∧ Stands g s p t) expected answer t

/-- Work after a match from `s` on ends where the passage does, which stays a match. -/
abbrev FollowsOn (g : Grammar) (s : Session) (expected : Except (Stop ScanError) Passage)
    (answer : Except (Stop ScanError) Unit) (t : Session) : Prop :=
  Tracks s (fun _ p t => p.matched = true ∧ Stands g s p t) expected answer t

/-- A sound session over a source, with a policy for repetitions that fall short. -/
structure Ready (g : Grammar) (source : Source) (shortfall : Shortfall) (s : Session) : Prop
    extends Sound g s where
  source_eq : s.scanner.source = source
  shortfall_eq : s.settings.shortfall = shortfall

variable {source : Source} {shortfall : Shortfall}

theorem Ready.onward (hs : Ready g source shortfall s) (ht : Sound g t) (h : Onward s t) :
    Ready g source shortfall t where
  toSound := ht
  source_eq := h.source.trans hs.source_eq
  shortfall_eq := by rw [h.settings, hs.shortfall_eq]

theorem Ready.stands (hs : Ready g source shortfall s) (h : Stands g s p t) :
    Ready g source shortfall t := hs.onward h.sound h.covers.toOnward

/-- Nothing is left to scan when the position is at the end of the source. -/
theorem Ready.atEnd_iff (hs : Ready g source shortfall s) :
    s.atEnd = true ↔ source.size ≤ s.position := by
  unfold Session.atEnd Scanner.atEnd
  rw [decide_eq_true_iff, hs.source_eq, hs.synced]

/-! ## Steps -/

theorem emit_stands (h : Stands g s p t) (id : StateId) (token : TokenId) :
    Ensures (emit id token) t fun answer u => answer = .ok ⟨⟩ ∧ Stands g s (p.emit token) u := by
  have hworks := (emit_ensures h.sound id token).1
  unfold Passage.emit
  rw [← h.start_eq, ← h.position_eq]
  unfold Ensures
  by_cases hpending : t.active.start < t.active.current
  · rw [emit_pending hpending] at hworks ⊢
    rw [if_pos (show t.active.start < t.position from hpending)]
    refine ⟨rfl, hworks.sound, h.covers.trans hworks.covers, rfl, rfl, ?_⟩
    show (t.active.tokens.push _).toList = _
    rw [Array.toList_push, h.tokens_eq, List.append_assoc]
    rfl
  · rw [emit_nothing hpending]
    rw [if_neg (show ¬ t.active.start < t.position from hpending)]
    exact ⟨rfl, h⟩

theorem emitOwn_stands (h : Stands g s p t) (id : StateId) (token : Option TokenId) :
    Ensures (emitOwn id token) t fun answer u =>
      answer = .ok ⟨⟩ ∧ Stands g s (p.emitOwn token) u := by
  cases token with
  | none => exact Ensures.pure ⟨rfl, h⟩
  | some token => exact emit_stands h id token

theorem matched_emit (token : TokenId) : (p.emit token).matched = p.matched := by
  unfold Passage.emit
  split <;> rfl

theorem matched_emitOwn (token : Option TokenId) : (p.emitOwn token).matched = p.matched := by
  cases token with
  | none => rfl
  | some token => exact matched_emit token

section Visit

variable {scan : StateId → Scanning Bool} {eval : Passage.Evaluator}

/-- What is assumed of the scans and evaluations that a scan and an evaluation use. -/
structure ScansFollow (g : Grammar) (source : Source) (shortfall : Shortfall)
    (eval : Passage.Evaluator) (scan : StateId → Scanning Bool) : Prop where
  scans : Scans g scan
  follows : ∀ id s, Ready g source shortfall s →
    Ensures (scan id) s (Follows g s (eval id s.active.start s.position))

/-! ## Going on -/

theorem firstOf_follows (hscan : ScansFollow g source shortfall eval scan) (ids : List StateId)
    (hs : Ready g source shortfall s) :
    Ensures (firstOf scan ids) s
      (Follows g s (Passage.firstOf eval ids s.active.start s.position)) := by
  induction ids generalizing s with
  | nil => exact Ensures.pure ⟨_, rfl, rfl, .refl hs.toSound _⟩
  | cons id ids ih =>
    refine Tracks.bind (hscan.follows id s hs) ?_
    rintro found p t ⟨rfl, hp⟩
    cases hmatched : p.matched with
    | true => exact Ensures.pure ⟨p, rfl, hmatched, hp⟩
    | false =>
      -- the next state begins where this one came to nothing
      have hnext := ih (hs.stands hp)
      rw [hp.start_eq, hp.position_eq] at hnext
      refine hnext.mono fun found u h => (h.of_onward hp.covers.toOnward).map ?_
      exact fun _ q hq => ⟨hq.1, hp.after hq.2⟩

theorem goOn_follows (hscan : ScansFollow g source shortfall eval scan) (node : Node)
    (hs : Ready g source shortfall s) (hp : Stands g s p t) (hmatched : p.matched = true) :
    Ensures (goOn scan node) t
      (FollowsOn g s (Passage.goOn source eval node.branches p)) := by
  have ht := hs.stands hp
  refine Ensures.get_bind ?_
  unfold Passage.goOn
  rw [← hp.position_eq, ← hp.start_eq]
  by_cases hend : t.atEnd = true
  · rw [if_pos hend, if_pos (ht.atEnd_iff.1 hend)]
    exact Ensures.pure ⟨p, rfl, hmatched, hp⟩
  · rw [if_neg hend, if_neg fun h => hend (ht.atEnd_iff.2 h)]
    refine Tracks.bind ((firstOf_follows hscan node.branches ht).mono fun _ _ h =>
      h.of_onward hp.covers.toOnward) ?_
    rintro found q u ⟨-, hq⟩
    exact Ensures.pure ⟨_, rfl, rfl, (hp.after hq).withMatched true⟩

/-! ## Terminals -/

/-- Before the end of the source a rule comes out as the text that is left says, and the frame can
follow the scanner. -/
theorem evaluate_outcome {rule : Rule} {id : RuleId} (hs : Ready g source shortfall s)
    (hrule : g.rules.get? id = some rule) (hleft : ¬ source.size ≤ s.position) :
    Ensures (evaluate rule id) s fun answer t =>
      answer = .ok (rule.outcome ((source.rest? s.position).getD []) s.position) ∧
        t.active = s.active ∧ ∀ result, answer = .ok result → ∀ matched,
          Stands g s { matched, start := s.active.start, position := result.stop }
            (t.advance result.stop) := by
  have hend : s.scanner.atEnd = false := by
    rw [← Bool.not_eq_true]
    exact fun h => hleft (hs.atEnd_iff.1 h)
  obtain ⟨scanner, memo, he, -, hmemo, hleaves⟩ := evaluate_eq_outcome hend hrule hs.memo
  have hadvance := hs.toSound.advance hmemo hleaves
  rw [hleaves.position] at hadvance
  have hrest : (source.rest? s.position).getD [] = s.scanner.remaining := by
    rw [← hs.source_eq, ← hs.synced, s.scanner.remaining_eq]
    rfl
  unfold Ensures
  rw [he, hrest, ← hs.synced]
  refine ⟨rfl, rfl, fun result hresult matched => ?_⟩
  rw [← Except.ok.inj hresult]
  exact ⟨hadvance.1, hadvance.2, rfl, rfl, (List.append_nil _).symm⟩

theorem ofResult_bind (result : Except GrammarError α) (f : α → Scanning γ) :
    (Action.ofResult (result.mapError .grammar) >>= f) = match result with
      | .ok a => f a
      | .error e => Action.fail (.grammar e) := by
  cases result <;> rfl

theorem scanTerminal_follows (hscan : ScansFollow g source shortfall eval scan) (id : StateId)
    (node : Node) (ruleId : RuleId) (hs : Ready g source shortfall s) :
    Ensures (scanTerminal g scan id node ruleId) s
      (Follows g s (Passage.ofTerminal g source eval node ruleId s.active.start s.position)) := by
  unfold scanTerminal Passage.ofTerminal
  rw [ofResult_bind]
  cases hrule : g.rules.get ruleId with
  | error e => exact .inr rfl
  | ok rule =>
    refine (checkSynced_ensures hs.toSound).bind (by simp) ?_
    rintro _ s ⟨-, rfl⟩
    dsimp only
    by_cases hend : source.size ≤ s.position
    · have hstop : evaluate rule ruleId s = _ := evaluate_atEnd (hs.atEnd_iff.2 hend)
      rw [if_pos hend, ← hs.synced]
      unfold Ensures
      rw [Attempt.bind_apply, hstop]
      exact .inr rfl
    rw [if_neg hend]
    refine (evaluate_outcome hs (RuleTable.get_eq_ok_iff.1 hrule) hend).bind (by simp) ?_
    rintro result t ⟨he, hactive, hstands⟩
    rw [← Except.ok.inj he]
    have hframe := hstands result rfl
    cases result with
    | success span =>
      refine Ensures.modify_bind ?_
      refine (emit_stands (hframe true) id (node.token.getD rule.token)).bind (by simp) ?_
      rintro _ u ⟨-, hq⟩
      exact (goOn_follows hscan node hs hq (matched_emit _)).bind (fun _ _ h => h)
        fun _ _ h => Ensures.pure h
    | failure position =>
      have hposition : position = s.position := by
        rw [← rule.outcome_position ((source.rest? s.position).getD []) s.position,
          ← Except.ok.inj he]
        rfl
      subst hposition
      -- a failure leaves the frame where it was, so to follow the scanner is to stay
      have hp := advance_of_active_eq hactive ▸ hframe false
      exact Ensures.modify_bind (Ensures.pure ⟨_, rfl, rfl, { hp with
        sound := { hp.sound with }, covers := { hp.covers with } }⟩)

/-! ## Repetitions -/

/-- A frame that is dropped at a stop makes no difference to the stop. -/
theorem orDrop_tracks {x : Scanning α} {rel : α → β → Session → Prop}
    {expected : Except (Stop ScanError) β} (h : Ensures x t (Tracks s rel expected))
    (hin : (x t).2.outer ≠ []) : Ensures (orDrop x) t (Tracks s rel expected) := by
  unfold Ensures at h ⊢
  rcases hanswer : x t with ⟨stop | a, u⟩
  · rw [hanswer] at h hin
    rw [orDrop_of_error hanswer hin]
    exact h
  · rw [hanswer] at h
    rw [orDrop_of_ok hanswer]
    exact h

/-- A round counts in a session if it counts beside it. -/
theorem counts_iff (before : Nat) (htokens : t.active.tokens.toList = p.emitted)
    (hposition : t.position = p.position) :
    ¬ (decide (t.active.tokens.size = 0) || decide (t.position ≤ before)) = true ↔
      p.emitted ≠ [] ∧ before < p.position := by
  rw [Bool.or_eq_true, decide_eq_true_iff, decide_eq_true_iff, not_or, Nat.not_le, hposition,
    ← htokens, Array.size_eq_zero_iff, ne_eq, Array.toList_eq_nil_iff]

/-- A round in a frame without tokens does what a round beside it does. If it counts, it leaves the
frame without tokens. -/
theorem oneRound_follows (hscan : ScansFollow g source shortfall eval scan) (id child : StateId)
    (max : Option UInt32) (done : Nat) (hs : Ready g source shortfall s)
    (hempty : s.active.tokens = #[]) (hin : s.outer ≠ [])
    (hover : ¬ (max.any (·.toNat ≤ done) || s.atEnd) = true)
    (hroom : done + 1 ≤ s.scanner.source.size) :
    Ensures (oneRound scan id child max done) s
      (Tracks s (fun counts p t => (counts = true ↔ p.emitted ≠ [] ∧ s.position < p.position) ∧
          t.active.start = p.start ∧ t.position = p.position ∧
          (counts = true → t.active.tokens = #[]))
        (eval child s.active.start s.position)) := by
  refine Ensures.get_bind ?_
  rw [if_neg hover]
  refine Ensures.get_bind (Ensures.modify_bind ?_)
  have hnote : Onward s { s with events := s.events.push (.beforeChild id done) } :=
    (Onward.refl s).note _ fun n hn => Option.some.inj hn ▸ Nat.le_of_succ_le hroom
  have hchild := hscan.follows child _ (hs.onward (hs.note _) hnote)
  have hworks := hscan.scans child _ (hs.note (.beforeChild id done))
  have hkept : (scan child _).2.outer ≠ [] := fun h => hin (hworks.covers.outer.symm.trans h)
  rw [← bind_pure (eval child s.active.start s.position)]
  refine Tracks.bind (orDrop_tracks (hchild.mono fun _ _ h => h.of_onward hnote) hkept) ?_
  rintro found p t ⟨-, hp⟩
  refine Ensures.get_bind (Ensures.modify_bind (Ensures.get_bind ?_))
  have htokens : t.active.tokens.toList = p.emitted := by
    rw [hp.tokens_eq]
    show s.active.tokens.toList ++ _ = _
    rw [hempty]
    rfl
  have hcounts := counts_iff s.position htokens hp.position_eq
  split
  · next hstops =>
    refine Ensures.pure ⟨p, rfl, ⟨nofun, fun h => absurd hstops (hcounts.2 h)⟩, hp.start_eq,
      hp.position_eq, nofun⟩
  · next hgoes =>
    refine Ensures.modify_bind (Ensures.modify_bind (Ensures.modify_bind (Ensures.pure ?_)))
    exact ⟨p, rfl, ⟨fun _ => hcounts.1 hgoes, fun _ => rfl⟩, hp.start_eq, hp.position_eq,
      fun _ => rfl⟩

theorem rounds_follows (hscan : ScansFollow g source shortfall eval scan) (id child : StateId)
    (max : Option UInt32) (fuel done : Nat) (hs : Ready g source shortfall s)
    (hempty : s.active.tokens = #[]) (hin : s.outer ≠ []) (hfuel : s.scanner.bytesLeft ≤ fuel)
    (hroom : done + fuel ≤ s.scanner.source.size) :
    Ensures (rounds scan id child max fuel done) s
      (Tracks s (fun counted r t => r = (counted, t.position))
        (Passage.rounds source eval child max done s.active.start s.position)) := by
  have hover : ∀ {s done}, Ready g source shortfall s →
      ((max.any (·.toNat ≤ done) || s.atEnd) = true ↔
        max.any (·.toNat ≤ done) = true ∨ source.size ≤ s.position) := by
    intro s done hs
    rw [Bool.or_eq_true, hs.atEnd_iff]
  induction fuel generalizing s done with
  | zero =>
    have hend : s.atEnd = true := atEnd_of_bytesLeft (Nat.le_zero.1 hfuel)
    rw [Passage.rounds_over (.inr (hs.atEnd_iff.1 hend))]
    exact Ensures.pure ⟨_, rfl, rfl⟩
  | succ fuel ih =>
    by_cases hlast : max.any (·.toNat ≤ done) = true ∨ source.size ≤ s.position
    · unfold Ensures
      rw [rounds_over _ ((hover hs).2 hlast), Passage.rounds_over hlast]
      exact ⟨_, rfl, rfl⟩
    have hgoes := fun h => hlast ((hover hs).1 h)
    have hroom' : done + 1 ≤ s.scanner.source.size := by omega
    rw [Passage.rounds_goes hlast]
    refine Tracks.bind (((oneRound_follows hscan id child max done hs hempty hin hgoes hroom').and
      (oneRound_ensures hscan.scans id child max done hs.toSound hin fun _ => hroom')).mono
      fun answer t h => h.1.and fun counts hok => hok ▸ h.2.1) ?_
    rintro counts p t ⟨⟨hcounts, hstart, hposition, hcleared⟩, ht, honward⟩
    cases counts with
    | false =>
      rw [if_neg fun h => Bool.false_ne_true (hcounts.2 h)]
      exact Ensures.pure ⟨_, rfl, congrArg _ hposition.symm⟩
    | true =>
      have hmoved := hcounts.1 rfl
      rw [if_pos hmoved, ← hstart, ← hposition]
      -- the next round begins where this one ended, in a frame that is cleared
      have hlt : s.position < t.position := hposition ▸ hmoved.2
      have hleft := bytesLeft_le_of_lt hs.toSound ht honward.source hlt hfuel
      rw [← honward.source] at hroom
      exact Ensures.mono (ih (done + 1) (hs.onward ht honward) (hcleared rfl) (honward.outer ▸ hin)
        hleft (by omega)) fun _ _ h => h.of_onward honward

/-- The position goes on when a frame ends. -/
theorem pop_position {parent : Frame} {outer : List Frame} (h : s.outer = parent :: outer)
    (publish : Bool) :
    Ensures (pop publish) s fun answer t => answer = .ok ⟨⟩ ∧ t.position = s.position := by
  unfold Ensures
  rw [pop_apply h]
  exact ⟨rfl, rfl⟩

/-- What rounds in a frame of their own come to, once it is dropped. -/
theorem runRounds_follows (hscan : ScansFollow g source shortfall eval scan) (id child : StateId)
    (max : Option UInt32) (hs : Ready g source shortfall s) :
    Ensures (runRounds scan id child max) s
      (Tracks s (fun counted r t => r = (counted, t.position) ∧
          Sound g t ∧ Covers s t ∧ SameFrame s t ∧ counted ≤ s.scanner.source.size)
        (Passage.rounds source eval child max 0 s.position s.position)) := by
  have hreached : Ensures (runRounds scan id child max) s
      (Tracks s (fun counted r t => r = (counted, t.position))
        (Passage.rounds source eval child max 0 s.position s.position)) := by
    have hpushed : Ready g source shortfall s.pushed := ⟨hs.pushed, hs.source_eq, hs.shortfall_eq⟩
    have hroom : 0 + s.pushed.scanner.bytesLeft ≤ s.pushed.scanner.source.size := by
      rw [Nat.zero_add]
      exact Nat.sub_le ..
    refine Ensures.modify_bind (Ensures.get_bind ?_)
    have hin : s.pushed.outer ≠ [] := List.cons_ne_nil _ _
    refine ((rounds_follows hscan id child max _ 0 hpushed rfl hin (Nat.le_refl _) hroom).and
      (rounds_ensures hscan.scans id child max _ 0 hs.pushed hin hroom)).bind (fun _ _ h => h.1) ?_
    rintro counted t ⟨⟨_, hexpected, rfl⟩, ⟨-, honward⟩, -⟩
    refine Ensures.modify_bind ?_
    refine (pop_position (honward.note (.beforePop id) nofun).outer false).bind (by simp) ?_
    rintro _ u ⟨-, hposition⟩
    exact Ensures.modify_bind (Ensures.pure ⟨_, hexpected, congrArg _ hposition.symm⟩)
  refine (hreached.and (runRounds_ensures hscan.scans id child max hs.toSound)).mono ?_
  rintro answer t ⟨hanswer, hworks, hframe, hcounted⟩
  exact hanswer.and fun counted h => ⟨hworks.sound, hworks.covers, hframe, hcounted counted h⟩

theorem conclude_follows (hscan : ScansFollow g source shortfall eval scan) (id : StateId)
    (node : Node) (satisfied : Bool) (hs : Ready g source shortfall s) (ht : Sound g t)
    (hcovers : Covers s t) (hframe : SameFrame s t) :
    Ensures (conclude scan id node s.position satisfied) t
      (Tracks s (fun _ p u => p.matched = satisfied ∧ Stands g s p u)
        (Passage.conclude source shortfall eval node satisfied s.active.start s.position
          t.position)) := by
  have hstands : ∀ {u : Session} (matched : Bool), Sound g u → Covers s u → SameFrame s u →
      Stands g s { matched, start := s.active.start, position := u.position } u := by
    intro u matched hu hcovers hframe
    refine ⟨hu, hcovers, hframe.start, rfl, ?_⟩
    rw [hframe.tokens, List.append_nil]
  cases satisfied with
  | true =>
    refine (emitOwn_stands (hstands true ht hcovers hframe) id node.token).bind (by simp) ?_
    rintro _ u ⟨-, hp⟩
    exact goOn_follows hscan node hs hp (matched_emitOwn _)
  | false =>
    have hback := fallBack_ensures hs.toSound ht hcovers hframe
    have hok : t.scanner.source.IsBoundary s.position := by
      rw [hcovers.source]
      exact hs.active.current_ok
    have happly := fallBack_apply hok
    rw [hcovers.settings, hs.shortfall_eq] at happly
    show Ensures (fallBack s.position) t _
    unfold Ensures at hback ⊢
    rw [happly] at hback ⊢
    obtain ⟨hworks, hframe', -⟩ := hback
    have hp := hstands false hworks.sound hworks.covers hframe'
    cases shortfall with
    | rewind => exact ⟨_, rfl, rfl, hp⟩
    | keep => exact ⟨_, rfl, rfl, hp⟩

theorem scanRepetition_follows (hscan : ScansFollow g source shortfall eval scan) (id : StateId)
    (node : Node) (child : StateId) (min : UInt32) (max : Option UInt32)
    (hs : Ready g source shortfall s) :
    Ensures (scanRepetition scan id node child min max) s
      (Follows g s (Passage.ofRepetition source shortfall eval node child min max s.active.start
        s.position)) := by
  refine Ensures.modify_bind (Ensures.get_bind ?_)
  have hnote : Covers s { s with events := s.events.push (.enter id min max) } :=
    (Covers.refl s).note _ nofun
  have hrounds := runRounds_follows hscan id child max
    (hs.onward (hs.note (.enter id min max)) hnote.toOnward)
  refine Tracks.bind (hrounds.mono fun _ _ h => h.of_onward hnote.toOnward) ?_
  rintro counted _ t ⟨rfl, ht, hcovers, hframe, hcounted⟩
  refine Ensures.modify_bind ?_
  have hst : Covers s t := hnote.trans hcovers
  have hexit : Covers s { t with
      events := t.events.push (.exit id counted (decide (min.toNat ≤ counted))) } :=
    hst.note _ fun n hn => Option.some.inj hn ▸ hst.source ▸ hcounted
  refine (conclude_follows hscan id node (decide (min.toNat ≤ counted)) hs (ht.note _) hexit
    ⟨hframe.start, hframe.tokens⟩).bind (fun _ _ h => h) ?_
  exact fun _ _ h => Ensures.pure h

/-! ## Choices, states and scans -/

theorem scanChoice_follows (hscan : ScansFollow g source shortfall eval scan) (id : StateId)
    (node : Node) (hs : Ready g source shortfall s) :
    Ensures (scanChoice scan id node) s
      (Follows g s (Passage.ofChoice eval node s.active.start s.position)) := by
  refine Tracks.bind (firstOf_follows hscan node.branches hs) ?_
  rintro found p t ⟨rfl, hp⟩
  cases hmatched : p.matched with
  | false => exact Ensures.pure ⟨_, rfl, hmatched, hp⟩
  | true =>
    refine (emitOwn_stands hp id node.token).bind (by simp) ?_
    rintro _ u ⟨-, hq⟩
    exact Ensures.pure ⟨_, rfl, (matched_emitOwn _).trans hmatched, hq⟩

theorem visit_follows (hscan : ScansFollow g source shortfall eval scan) (id : StateId)
    (hs : Ready g source shortfall s) :
    Ensures (visit g scan id) s
      (Follows g s (Passage.ofState g source shortfall eval id s.active.start s.position)) := by
  unfold visit Passage.ofState
  rw [ofResult_bind]
  cases g.graph.node id with
  | error e => exact .inr rfl
  | ok node =>
    dsimp only
    cases node.kind with
    | terminal ruleId => exact scanTerminal_follows hscan id node ruleId hs
    | repetition child min max => exact scanRepetition_follows hscan id node child min max hs
    | choice => exact scanChoice_follows hscan id node hs

end Visit

/-- A step is only refused if there are too many. -/
theorem step_refused (s : Session) :
    Ensures step s fun answer _ => ∀ stop, answer = .error stop → CutOff s stop := by
  refine Ensures.modify_bind (Ensures.get_bind ?_)
  split
  · next limit hlimit =>
    split
    · exact fun stop h => .inl ⟨limit, hlimit, (Except.error.inj h).symm⟩
    · nofun
  · nofun

theorem nested_follows {body : Scanning Bool} {expected : Except (Stop ScanError) Passage}
    (hscanned : Ensures body s.deeper (Scanned g s.deeper))
    (hbody : Ensures body s.deeper (Follows g s.deeper expected)) :
    Ensures (nested (fun e => .depthLimit e.limit) body) s (Follows g s expected) := by
  unfold Ensures at hscanned hbody ⊢
  cases henter : s.guard.enter with
  | error e =>
    rw [nested_refused henter]
    exact .inl (.inr ⟨e.limit, DepthGuard.limit_of_enter_eq_error henter, rfl⟩)
  | ok inner =>
    obtain ⟨hroom, -⟩ := DepthGuard.enter_eq_ok_iff.1 henter
    rw [nested_apply hroom hscanned.covers.depth]
    generalize (body s.deeper).1 = answer at hbody ⊢
    generalize (body s.deeper).2 = t at hbody ⊢
    cases answer with
    | error stop => exact hbody
    | ok found =>
      obtain ⟨p, rfl, hmatched, hp⟩ := hbody
      exact ⟨p, rfl, hmatched, { hp with
        sound := { hp.sound with }, covers := { hp.covers with depth := rfl } }⟩

/-- **A scan does what the evaluator says**, nested equally deep. -/
theorem scanNested_follows (fuel : Nat) :
    ScansFollow g source shortfall (Passage.evaluate g source shortfall fuel)
      (scanNested g fuel) where
  scans := scanNested_scanned fuel
  follows := by
    induction fuel with
    | zero => exact fun _ _ _ => .inr rfl
    | succ fuel ih =>
      intro id s hs
      refine ((step_ensures hs.toSound).and (step_refused s)).bind ?_ ?_
      · rintro stop t ⟨-, hrefused⟩
        exact .inl (hrefused stop rfl)
      rintro _ t ⟨⟨hworks, hactive⟩, -⟩
      have honward := hworks.covers.toOnward
      have ht : Ready g source shortfall t := hs.onward hworks.sound honward
      have hscan : ScansFollow g source shortfall (Passage.evaluate g source shortfall fuel)
          (scanNested g fuel) := ⟨scanNested_scanned fuel, ih⟩
      have hdeeper : Ready g source shortfall t.deeper :=
        ⟨{ ht.toSound with }, ht.source_eq, ht.shortfall_eq⟩
      -- the step moved nothing, so what follows from `t` follows from `s`
      have hsame : Stands g s ⟨false, t.active.start, t.position, []⟩ t := by
        refine ⟨hworks.sound, hworks.covers, rfl, rfl, ?_⟩
        rw [hactive, List.append_nil]
      have hstart : s.active.start = t.active.start := by rw [hactive]
      have hposition : s.position = t.position := congrArg Frame.current hactive.symm
      rw [hstart, hposition]
      refine (nested_follows (visit_ensures hscan.scans id hdeeper.toSound)
        (visit_follows hscan id hdeeper)).mono fun answer u h => ?_
      cases answer with
      | error stop => exact h.imp_left (CutOff.of_onward honward)
      | ok found =>
        obtain ⟨p, hp, hmatched, hstands⟩ := h
        exact ⟨p, hp, hmatched, hsame.after hstands⟩

end Lexigraph.Session
