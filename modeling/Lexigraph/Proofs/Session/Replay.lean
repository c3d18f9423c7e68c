/-
# Lexigraph.Proofs.Session.Replay -- records played back

The record of a scan says when lists of tokens were begun, added to, emptied and dropped. Played
back on a stack of lists it does this over again (`replay`). What is played back does not look at
the lists below those that it begins (`replay_under`), nor at what the entries of the lists are
(`replay_map`).

A record is `Nested` if each repetition in it is told from its beginning to its end: its rounds in
order, each with what was scanned inside and with the length that the topmost list has then.
-/

import Lexigraph.Session

namespace Lexigraph

variable {α β : Type}

/-! ## Playing back -/

/-- What an event does to a stack of lists, the topmost first. A token is added as what `entry`
makes of it. The last list is never dropped, and without a list nothing can be added or emptied. -/
def Event.replay (entry : StateId → Token → α) (event : Event) (stack : List (List α)) :
    Option (List (List α)) :=
  match event, stack with
  | .enter .., stack => some ([] :: stack)
  | .emitted state token, top :: below => some ((top ++ [entry state token]) :: below)
  | .afterClear .., _ :: below => some ([] :: below)
  | .afterPop _, _ :: next :: below => some (next :: below)
  | .emitted .., [] | .afterClear .., [] | .afterPop _, [] | .afterPop _, [_] => none
  | .beforeChild .., stack | .afterChild .., stack | .beforeClear _, stack | .beforePop _, stack
  | .exit .., stack => some stack

/-- Plays events back on a stack, one after another. -/
def replay (entry : StateId → Token → α) (events : List Event) (stack : List (List α)) :
    Option (List (List α)) :=
  events.foldlM (fun stack event => event.replay entry stack) stack

/-- Plays events back on lists of tokens. -/
abbrev replayTokens (events : List Event) (stack : List (List Token)) : Option (List (List Token)) :=
  replay (fun _ token => token) events stack

variable {entry : StateId → Token → α} {events more : List Event} {stack mid done : List (List α)}

@[simp] theorem replay_nil (entry : StateId → Token → α) (stack : List (List α)) :
    replay entry [] stack = some stack := rfl

@[simp] theorem replay_cons (entry : StateId → Token → α) (event : Event) (events : List Event)
    (stack : List (List α)) :
    replay entry (event :: events) stack = (event.replay entry stack).bind (replay entry events) :=
  List.foldlM_cons ..

theorem replay_append (entry : StateId → Token → α) (events more : List Event)
    (stack : List (List α)) :
    replay entry (events ++ more) stack = (replay entry events stack).bind (replay entry more) :=
  List.foldlM_append ..

/-- Played back one after the other. -/
theorem replay_append_of_eq (h : replay entry events stack = some mid)
    (h' : replay entry more mid = some done) : replay entry (events ++ more) stack = some done := by
  rw [replay_append, h]
  exact h'

theorem Event.replay_under {event : Event} (h : event.replay entry stack = some done)
    (below : List (List α)) : event.replay entry (stack ++ below) = some (done ++ below) := by
  cases event with
  | enter | beforeChild | afterChild | beforeClear | beforePop | exit =>
    obtain rfl := Option.some.inj h
    rfl
  | emitted state token =>
    cases stack with
    | nil => cases h
    | cons top rest =>
      obtain rfl := Option.some.inj h
      rfl
  | afterClear state rounds =>
    cases stack with
    | nil => cases h
    | cons top rest =>
      obtain rfl := Option.some.inj h
      rfl
  | afterPop state =>
    match stack, h with
    | _ :: next :: rest, h =>
      obtain rfl := Option.some.inj h
      rfl

/-- What can be played back on some lists can be played back on them with others below, and leaves
those as they are. -/
theorem replay_under (h : replay entry events stack = some done) (below : List (List α)) :
    replay entry events (stack ++ below) = some (done ++ below) := by
  induction events generalizing stack with
  | nil =>
    obtain rfl := Option.some.inj h
    rfl
  | cons event events ih =>
    rw [replay_cons] at h ⊢
    obtain ⟨mid, hmid, hdone⟩ := Option.bind_eq_some_iff.1 h
    rw [Event.replay_under hmid below]
    exact ih hdone

theorem Event.replay_map (f : α → β) (event : Event) (stack : List (List α)) :
    event.replay (fun state token => f (entry state token)) (stack.map (List.map f)) =
      (event.replay entry stack).map (List.map (List.map f)) := by
  cases event with
  | enter | beforeChild | afterChild | beforeClear | beforePop | exit => rfl
  | emitted state token =>
    cases stack with
    | nil => rfl
    | cons top below => simp [Event.replay]
  | afterClear state rounds =>
    cases stack with
    | nil => rfl
    | cons top below => rfl
  | afterPop state =>
    match stack with
    | [] | [_] => rfl
    | _ :: next :: below => rfl

/-- Entries may be changed before they are entered or afterwards. -/
theorem replay_map (f : α → β) (events : List Event) (stack : List (List α)) :
    replay (fun state token => f (entry state token)) events (stack.map (List.map f)) =
      (replay entry events stack).map (List.map (List.map f)) := by
  induction events generalizing stack with
  | nil => rfl
  | cons event events ih =>
    rw [replay_cons, replay_cons, Event.replay_map]
    cases event.replay entry stack with
    | none => rfl
    | some mid => exact ih mid

/-- The length that an event tells, if it tells one, is that of the topmost list. -/
def Event.Measures (event : Event) (stack : List (List Token)) : Prop :=
  match event, stack with
  | .afterChild _ _ produced, top :: _ => produced = top.length
  | .afterChild .., [] => False
  | _, _ => True

/-- Played back on a stack, the events tell the lengths that the topmost list has each time. -/
def Measured : List Event → List (List Token) → Prop
  | [], _ => True
  | event :: events, stack => event.Measures stack ∧
      ∀ next, event.replay (fun _ token => token) stack = some next → Measured events next

theorem measured_cons_of_eq {event : Event} {events : List Event} {stack next : List (List Token)}
    (h : event.Measures stack) (hnext : event.replay (fun _ token => token) stack = some next)
    (hrest : Measured events next) : Measured (event :: events) stack := by
  refine ⟨h, fun next' hnext' => ?_⟩
  obtain rfl := Option.some.inj (hnext.symm.trans hnext')
  exact hrest

theorem measured_append_of_eq {events more : List Event} {stack mid : List (List Token)}
    (h : Measured events stack) (hmid : replayTokens events stack = some mid)
    (hmore : Measured more mid) : Measured (events ++ more) stack := by
  induction events generalizing stack with
  | nil =>
    obtain rfl := Option.some.inj hmid
    exact hmore
  | cons event events ih =>
    rw [replayTokens, replay_cons] at hmid
    obtain ⟨next, hnext, hmid⟩ := Option.bind_eq_some_iff.1 hmid
    exact measured_cons_of_eq h.1 hnext (ih (h.2 next hnext) hmid)

/-! ## Records in which repetitions nest -/

mutual

/-- Tokens are emitted, and repetitions are told from beginning to end. -/
inductive Nested : List Event → Prop
  | nil : Nested []
  | emitted (state : StateId) (token : Token) {events : List Event} (rest : Nested events) :
      Nested (.emitted state token :: events)
  | repetition {state : StateId} (min : UInt32) {max : Option UInt32} {counted : Nat}
      {inner events : List Event} (rounds : Rounds state 0 inner counted)
      (bounded : ∀ m ∈ max, counted ≤ m.toNat) (rest : Nested events) :
      Nested (.enter state min max :: (inner ++ .beforePop state :: .afterPop state ::
        .exit state counted (decide (min.toNat ≤ counted)) :: events))

/-- The rounds of a repetition from a round on, with how many counted in all. A round tells what
was scanned in it and how long the topmost list was then; a round that counts empties that list,
and after one that does not there is no other. -/
inductive Rounds : StateId → Nat → List Event → Nat → Prop
  | over (state : StateId) (done : Nat) : Rounds state done [] done
  | last {state : StateId} {done : Nat} {events : List Event} {top : List Token}
      (child : Nested events) (produced : replayTokens events [[]] = some [top]) :
      Rounds state done (.beforeChild state done :: (events ++ [.afterChild state done top.length]))
        done
  | counts {state : StateId} {done counted : Nat} {events more : List Event} {top : List Token}
      (child : Nested events) (produced : replayTokens events [[]] = some [top])
      (rest : Rounds state (done + 1) more counted) :
      Rounds state done (.beforeChild state done :: (events ++ .afterChild state done top.length ::
        .beforeClear state :: .afterClear state (done + 1) :: more)) counted

end

theorem Nested.append {events more : List Event} (h : Nested events) (h' : Nested more) :
    Nested (events ++ more) := by
  match h with
  | .nil => exact h'
  | .emitted state token rest => exact .emitted state token (rest.append h')
  | .repetition min rounds bounded rest =>
    have hmore := Nested.repetition min rounds bounded (rest.append h')
    simpa only [List.cons_append, List.append_assoc] using hmore

mutual

/-- A nested record changes the topmost list alone. -/
theorem Nested.replay {events : List Event} (h : Nested events) (top : List Token) :
    ∃ top', replayTokens events [top] = some [top'] := by
  match h with
  | .nil => exact ⟨top, rfl⟩
  | .emitted state token rest => exact rest.replay (top ++ [token])
  | .repetition min rounds bounded rest =>
    obtain ⟨inner, hinner⟩ := rounds.replay
    obtain ⟨top', htop'⟩ := rest.replay top
    exact ⟨top', replay_append_of_eq (replay_under hinner [top]) htop'⟩

theorem Rounds.replay {state : StateId} {done counted : Nat} {events : List Event}
    (h : Rounds state done events counted) : ∃ top, replayTokens events [[]] = some [top] := by
  match h with
  | .over state done => exact ⟨[], rfl⟩
  | .last child produced => exact ⟨_, replay_append_of_eq produced rfl⟩
  | .counts child produced rest =>
    obtain ⟨top, htop⟩ := rest.replay
    exact ⟨top, replay_append_of_eq produced htop⟩

end

mutual

/-- A nested record tells the lengths of the lists that are there when it is played back, on
whatever stack. -/
theorem Nested.measured {events : List Event} (h : Nested events) (top : List Token)
    (below : List (List Token)) : Measured events (top :: below) := by
  match h with
  | .nil => exact trivial
  | .emitted state token rest => exact measured_cons_of_eq trivial rfl (rest.measured _ below)
  | .repetition min rounds bounded rest =>
    obtain ⟨inner, hinner⟩ := rounds.replay
    have hrest := rest.measured top below
    refine measured_cons_of_eq trivial rfl (measured_append_of_eq (rounds.measured (top :: below))
      (replay_under hinner (top :: below)) ?_)
    exact measured_cons_of_eq trivial rfl (measured_cons_of_eq trivial rfl
      (measured_cons_of_eq trivial rfl hrest))

theorem Rounds.measured {state : StateId} {done counted : Nat} {events : List Event}
    (h : Rounds state done events counted) (below : List (List Token)) :
    Measured events ([] :: below) := by
  match h with
  | .over state done => exact trivial
  | .last child produced =>
    refine measured_cons_of_eq trivial rfl (measured_append_of_eq (child.measured [] below)
      (replay_under produced below) ?_)
    exact measured_cons_of_eq rfl rfl trivial
  | .counts child produced rest =>
    refine measured_cons_of_eq trivial rfl (measured_append_of_eq (child.measured [] below)
      (replay_under produced below) ?_)
    exact measured_cons_of_eq rfl rfl (measured_cons_of_eq trivial rfl
      (measured_cons_of_eq trivial rfl (rest.measured below)))

end

end Lexigraph
