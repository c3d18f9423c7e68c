/-
# Lexigraph.Proofs.Session.Labels -- labels and annotations never steer a scan

To annotate a state makes no difference to any scan or run. To give it another token makes a
difference to the tokens that are emitted for it and to nothing else
(`Grammar.labels_never_steer`).

Which tokens are emitted for a state is told by the record: played back with the state of each
token, it leaves the tokens of the frame together with what they were emitted for
(`View.Relabelled`).
-/

import Lexigraph.Proofs.Grammar.Annotate
import Lexigraph.Proofs.Grammar.RoundTrip
import Lexigraph.Proofs.Grammar.WellFormed
import Lexigraph.Proofs.Session.Relabel
import Lexigraph.Proofs.Session.Record

namespace Lexigraph

/-! ## Other tokens for one state -/

/-- A token emitted for a state `id`, if those for `state` are to be called `new`. -/
def Token.relabel (state : StateId) (new : TokenId) (id : StateId) (token : Token) : Token :=
  if id = state then { token with id := new } else token

/-- The event, if tokens emitted for `state` are to be called `new`. -/
def Event.relabel (state : StateId) (new : TokenId) : Event → Event
  | .emitted id token => .emitted id (token.relabel state new id)
  | event => event

namespace Session

variable {g h : Grammar} {allowed allowed' : GrammarError → Prop} {state : StateId} {new : TokenId}
  {s : Session} {α : Type}

/-- To play relabelled events back is to relabel the tokens when they are added. -/
theorem replay_relabel (events : List Event) (stack : List (List Token)) :
    replayTokens (events.map (Event.relabel state new)) stack =
      replay (fun id token => token.relabel state new id) events stack := by
  unfold replayTokens replay
  rw [List.foldlM_map]
  congr 1
  funext stack event
  cases event with
  | enter | beforeChild | afterChild | beforeClear | beforePop | exit => rfl
  | emitted | afterClear => cases stack <;> rfl
  | afterPop id =>
    match stack with
    | [] | [_] | _ :: _ :: _ => rfl

/-- The second view is the first one but for the names of the tokens that were emitted for `state`,
which are called `new`. The record tells what the tokens of the frame were emitted for. -/
structure View.Relabelled (state : StateId) (new : TokenId) (v w : View) : Prop where
  position : w.position = v.position
  marks : w.marks = v.marks
  steps : w.steps = v.steps
  furthest : w.furthest = v.furthest
  events : w.events = v.events.map (Event.relabel state new)
  frames : ∃ start current others emitted,
    replay Prod.mk v.events.toList [[]] = some (others ++ [emitted]) ∧
    v.frames = [⟨start, current, (emitted.map fun e => e.2).toArray⟩] ∧
    w.frames = [⟨start, current, (emitted.map fun e => e.2.relabel state new e.1).toArray⟩]

/-! ## What the record tells -/

/-- In a fresh session the record of a computation tells all its tokens, and there is one frame. -/
theorem Logs.of_fresh {x : Scanning α} (hx : Logs g allowed x) (hs : Fresh s) :
    (∀ event ∈ (x s).2.events.toList, g.Tells event) ∧ (x s).2.outer = [] ∧
      ∃ above, replayTokens (x s).2.events.toList [[]] =
        some (above ++ [(x s).2.active.tokens.toList]) := by
  have hevents : s.events = #[] := by cases hs <;> rfl
  have houter : s.outer = [] := by cases hs <;> rfl
  have htokens : s.active.tokens = #[] := by cases hs <;> rfl
  obtain ⟨-, events, above, hrecorded, -⟩ := hx s
  have hall : (x s).2.events.toList = events := by
    rw [hrecorded.appended, hevents]
    rfl
  have hreplayed := hrecorded.replayed
  rw [htokens] at hreplayed
  rw [hall]
  exact ⟨hrecorded.told, hrecorded.outer.trans houter, above, hreplayed⟩

/-- Tokens can be played back together with the states that they were emitted for. -/
theorem exists_emitted {events : List Event} {above : List (List Token)} {tokens : List Token}
    (h : replayTokens events [[]] = some (above ++ [tokens])) :
    ∃ others emitted, replay Prod.mk events [[]] = some (others ++ [emitted]) ∧
      emitted.map (fun e => e.2) = tokens := by
  have hmap := @replay_map _ _ Prod.mk (fun e : StateId × Token => e.2) events [[]]
  have hforget : replay (fun _ token => token) events [[]] = _ := hmap
  rw [show replay (fun _ token => token) events [[]] = _ from h] at hforget
  obtain ⟨stack, hstack, hsplit⟩ := Option.map_eq_some_iff.1 hforget.symm
  obtain ⟨others, last, rfl, -, hlast⟩ := List.map_eq_append_iff.1 hsplit
  obtain ⟨emitted, rfl, hemitted⟩ := List.map_eq_singleton_iff.1 hlast
  exact ⟨others, emitted, hstack, hemitted⟩

/-- Events of the same state of two grammars are the same but for the token of that state. -/
theorem eq_relabel_of_tells {c : Correspondence} (hc : c.state = Eq)
    (hlabel : h.labelOf? state = some new)
    (hothers : ∀ id, id ≠ state → h.labelOf? id = g.labelOf? id) {e e' : Event}
    (halike : e.Alike c e') (he : g.Tells e) (he' : h.Tells e') : e.relabel state new = e' := by
  cases halike with
  | @emitted i j hij t t' ht =>
    obtain rfl : i = j := by rwa [hc] at hij
    have hid : g.labelOf? i = some t.id := he
    have hid' : h.labelOf? i = some t'.id := he'
    have hspan := ht.span
    rcases t with ⟨id, span⟩
    rcases t' with ⟨id', span'⟩
    obtain rfl : span = span' := hspan
    show Event.emitted i (Token.relabel state new i ⟨id, span⟩) = _
    unfold Token.relabel
    by_cases hi : i = state
    · rw [hi, hlabel] at hid'
      obtain rfl := Option.some.inj hid'
      rw [if_pos hi]
    · rw [hothers i hi, hid] at hid'
      obtain rfl := Option.some.inj hid'
      rw [if_neg hi]
  | enter hij | beforeChild hij | afterChild hij | beforeClear hij | afterClear hij | beforePop hij
  | afterPop hij | exit hij =>
    rw [hc] at hij
    subst hij
    rfl

/-- Where scans go alike, and states but for one have the same token, the tokens of that one are
called otherwise and nothing else is. -/
theorem relabelled_of_sameFrom {c : Correspondence} (hc : c.state = Eq) {x y : Scanning α}
    (hs : Fresh s) (hx : Logs g allowed x) (hy : Logs h allowed' y) (hxy : SameFrom c x y s)
    (hlabel : h.labelOf? state = some new)
    (hothers : ∀ id, id ≠ state → h.labelOf? id = g.labelOf? id) :
    View.Relabelled state new (x s).2.view (y s).2.view := by
  obtain ⟨htold, houter, above, hreplayed⟩ := hx.of_fresh hs
  obtain ⟨htold', houter', above', hreplayed'⟩ := hy.of_fresh hs
  have hview := hxy.2
  have hframe : (x s).2.active.Alike c (y s).2.active := (List.forall₂_cons.1 hview.frames).1
  have hevents : (y s).2.events.toList =
      (x s).2.events.toList.map (Event.relabel state new) := by
    have hboth : List.Forall₂ (fun e e' => e.relabel state new = e') (x s).2.events.toList
        (y s).2.events.toList := by
      refine List.forall₂_iff_get.2 ⟨hview.events.length_eq, fun i hi hi' => ?_⟩
      exact eq_relabel_of_tells hc hlabel hothers (hview.events.get hi hi')
        (htold _ (List.get_mem ..)) (htold' _ (List.get_mem ..))
    exact (eq_of_forall₂ (fun _ _ he => he) (List.forall₂_map_left_iff.2 hboth)).symm
  obtain ⟨others, emitted, hemitted, htokens⟩ := exists_emitted hreplayed
  have htokens' : (y s).2.active.tokens.toList =
      emitted.map fun e => e.2.relabel state new e.1 := by
    have hmap := @replay_map _ _ Prod.mk (fun e : StateId × Token => e.2.relabel state new e.1)
      (x s).2.events.toList [[]]
    rw [hemitted] at hmap
    rw [hevents, replay_relabel] at hreplayed'
    have hsame := hreplayed'.symm.trans hmap
    simp only [Option.map_some, List.map_append, Option.some.injEq] at hsame
    exact List.singleton_inj.1 (List.append_inj_right' hsame rfl)
  refine ⟨hview.position.symm, hview.marks.symm, hview.steps.symm, hview.furthest.symm,
    Array.toList_inj.1 (hevents.trans Array.toList_map.symm), (x s).2.active.start,
    (x s).2.active.current, others, emitted, hemitted, ?_, ?_⟩
  · show (x s).2.active :: (x s).2.outer = _
    rw [houter, htokens]
  · show (y s).2.active :: (y s).2.outer = _
    rw [houter', ← htokens', hframe.start, hframe.current]

/-! ## Grammars that behave alike -/

/-- Scans and runs of the same states in fresh sessions answer the same, and leave sessions that
look as `rel` says. -/
def Behaves (rel : View → View → Prop) (g h : Grammar) : Prop :=
  ∀ r s, Fresh s →
    ((scan h r s).1 = (scan g r s).1 ∧ rel (scan g r s).2.view (scan h r s).2.view) ∧
    ((run h r s).1 = (run g r s).1 ∧ rel (run g r s).2.view (run h r s).2.view)

theorem behaves_of_retokens {token : TokenId → TokenId → Prop} {rel : View → View → Prop}
    (hgh : g.Retokens token h)
    (hrel : ∀ {α : Type} {x y : Scanning α} {r s}, Fresh s → Logs g (g.Lacks r) x →
      Logs h (h.Lacks r) y → SameFrom (relabelling g s.scanner.source token) x y s →
      rel (x s).2.view (y s).2.view) : Behaves rel g h := by
  intro r s hs
  have hscan := scan_sameFrom hgh r hs
  have hrun := run_sameFrom hgh r hs
  exact ⟨⟨hscan.1, hrel hs (scan_logs r) (scan_logs r) hscan⟩,
    ⟨hrun.1, hrel hs (run_logs r) (run_logs r) hrun⟩⟩

end Session

namespace Grammar

open Attempt (SameAnswer)
open Session (Behaves View.Relabelled)

variable {g h : Grammar} {state : StateId} {node : Node}

/-! ## Annotations -/

/-- A state is like itself, if its rule is. -/
theorem retokened_self {token : TokenId → TokenId → Prop} (hrefl : ∀ id, token id id)
    (hrule : ∀ ruleId, node.kind = .terminal ruleId → h.rules.get ruleId = g.rules.get ruleId) :
    Retokened token g h node node := by
  have hown : ∀ own : Option TokenId, Option.Rel token own own := by
    intro own
    cases own with
    | none => exact .none
    | some id => exact .some (hrefl id)
  rcases node with ⟨kind, own, annotations, branches⟩
  cases kind with
  | terminal ruleId =>
    refine .terminal ?_
    rw [hrule ruleId rfl]
    cases g.rules.get ruleId with
    | error e => exact .error e
    | ok rule => exact .ok ⟨rfl, hrefl _⟩
  | repetition child min max => exact .repetition (hown own)
  | choice => exact .choice (hown own)

/-- Where one state differs, all states are like what they were if that one is. -/
theorem retokens_of_others {token : TokenId → TokenId → Prop} (hrefl : ∀ id, token id id)
    (hg : g.Closed) (hothers : ∀ id, id ≠ state → h.graph.node? id = g.graph.node? id)
    (hsize : h.graph.size = g.graph.size)
    (hrules : ∀ id rule, g.rules.get? id = some rule → h.rules.get? id = some rule)
    (hstate : SameAnswer (Retokened token g h) (g.graph.node state) (h.graph.node state)) :
    g.Retokens token h where
  nodes id := by
    by_cases hid : id = state
    · rw [hid]
      exact hstate
    rw [Graph.node_congr (hothers id hid)]
    cases hfound : g.graph.node id with
    | error e => exact .error e
    | ok node =>
      have hbounded := hg id node (Graph.node_eq_ok_iff.1 hfound)
      exact .ok (retokened_self hrefl fun ruleId hkind =>
        get_eq_of_lt hrules (hbounded.rule ruleId hkind))
  size := hsize.symm

/-- The rule that a terminal gets with its annotations has the same token and the same literals. -/
theorem Annotated.retokens (hg : g.Closed) {annotations : Annotations}
    (h' : g.Annotated state annotations h) : g.Retokens Eq h := by
  have hdiffers := h'.differsAt
  refine retokens_of_others (fun _ => rfl) hg hdiffers.others hdiffers.size hdiffers.rules ?_
  cases h' with
  | @terminal node ruleId rule hnode hkind hrule =>
    rw [Graph.node_eq_ok_iff.2 hnode, Graph.node_eq_ok_iff.2 (reruled_node hnode _)]
    rcases node with ⟨kind, own, annotations, branches⟩
    obtain rfl : kind = .terminal ruleId := hkind
    refine .ok (.terminal ?_)
    rw [RuleTable.get_eq_ok_iff.2 hrule, RuleTable.get_eq_ok_iff.2 (reruled_rule _ _ _)]
    exact .ok ⟨rfl, rfl⟩
  | @own node hnode hkind =>
    rw [Graph.node_eq_ok_iff.2 hnode, Graph.node_eq_ok_iff.2 (marked_node hnode _)]
    rcases node with ⟨kind, own, annotations, branches⟩
    cases kind with
    | terminal ruleId => exact absurd rfl (hkind ruleId)
    | repetition child min max => exact .ok (.repetition (Session.optionRel_eq_refl own))
    | choice => exact .ok (.choice (Session.optionRel_eq_refl own))

theorem Annotated.behaves (hg : g.Closed) {annotations : Annotations}
    (h' : g.Annotated state annotations h) : Behaves Eq g h :=
  Session.behaves_of_retokens (h'.retokens hg) fun _ _ _ hsame => hsame.2.eq rfl rfl

/-! ## Tokens -/

/-- What a state stands for does not depend on other states. -/
theorem labelOf?_eq {id : StateId} (hnode : h.graph.node? id = g.graph.node? id)
    (hrules : h.rules = g.rules) : h.labelOf? id = g.labelOf? id := by
  unfold labelOf?
  rw [hnode, hrules]

/-- A call that gives a state another token has found the state, and changes nothing else of the
states and nothing of the rules. -/
theorem retoken_ok {token : Option String} (hok : retoken state token g = (.ok ⟨⟩, h)) :
    ∃ own, Option.Rel h.Calls own token ∧ h.rules = g.rules ∧
      h.graph = (Graph.edit state (fun n => { n with token := own }) g.graph).2 := by
  have hset : ∀ {own} {k : Grammar}, onGraph (Graph.setToken state own) k = (.ok ⟨⟩, h) →
      h = { k with graph := (Graph.edit state (fun n => { n with token := own }) k.graph).2 } := by
    intro own k hset
    have hanswer : (Graph.setToken state own k.graph).1 = .ok ⟨⟩ := congrArg Prod.fst hset
    have hgraph : { k with graph := (Graph.setToken state own k.graph).2 } = h :=
      congrArg Prod.snd hset
    have hchanged : (Graph.setToken state own k.graph).2 = _ :=
      Graph.update_of_ok (Prod.ext hanswer rfl)
    rw [← hgraph, hchanged]
  cases token with
  | none =>
    obtain rfl := hset hok
    exact ⟨none, .none, rfl, rfl⟩
  | some name =>
    obtain rfl := hset hok
    exact ⟨some (intern name g).1, .some (intern_calls name g), rfl, rfl⟩

/-- A match of the state stands for a token, and does so too when the state is given a token or
none: a terminal has that of its rule at least. -/
def KeepsLabel (node : Node) (token : Option String) : Prop :=
  (∃ ruleId, node.kind = .terminal ruleId) ∨ node.token.isSome ∧ token.isSome

variable {token : Option String} {own : Option TokenId}

theorem retokened_of_keepsLabel (hkeeps : KeepsLabel node token)
    (hcalls : Option.Rel h.Calls own token) (hrules : h.rules = g.rules) :
    Retokened (fun _ _ => True) g h node { node with token := own } := by
  have hown : (∀ ruleId, node.kind ≠ .terminal ruleId) →
      Option.Rel (fun _ _ => True) node.token own := by
    intro hkind
    obtain ⟨hhad, hgets⟩ := hkeeps.resolve_left fun ⟨ruleId, h⟩ => hkind ruleId h
    obtain ⟨old, hold⟩ := Option.isSome_iff_exists.1 hhad
    obtain ⟨name, rfl⟩ := Option.isSome_iff_exists.1 hgets
    rw [hold]
    cases hcalls with
    | some _ => exact .some trivial
  rcases node with ⟨kind, token, annotations, branches⟩
  cases kind with
  | terminal ruleId =>
    refine .terminal ?_
    rw [hrules]
    cases g.rules.get ruleId with
    | error e => exact .error e
    | ok rule => exact .ok ⟨rfl, trivial⟩
  | repetition child min max => exact .repetition (hown nofun)
  | choice => exact .choice (hown nofun)

theorem exists_label_of_keepsLabel (hwell : h.WellFormed) (hkeeps : KeepsLabel node token)
    (hcalls : Option.Rel h.Calls own token)
    (hnode : h.graph.node? state = some { node with token := own }) :
    ∃ new, h.labelOf? state = some new ∧ ∀ name ∈ token, h.Calls new name := by
  by_cases hkind : ∃ ruleId, node.kind = .terminal ruleId
  · obtain ⟨ruleId, hkind⟩ := hkind
    obtain ⟨rule, hrule, -⟩ := hwell.rules state _ ruleId hnode hkind
    refine ⟨_, labelOf?_terminal hnode hkind hrule, ?_⟩
    cases hcalls with
    | none => exact nofun
    | some hcalls => exact fun _ hname => Option.some.inj hname ▸ hcalls
  · obtain ⟨name, rfl⟩ := Option.isSome_iff_exists.1 (hkeeps.resolve_left hkind).2
    cases hcalls with
    | @some new _ hcalls =>
      refine ⟨new, labelOf?_own hnode fun ruleId h => hkind ⟨ruleId, h⟩, ?_⟩
      exact fun _ hname => Option.some.inj hname ▸ hcalls

/-- A state that is given another token emits that one, and nothing else changes. -/
theorem Built.behaves_of_retoken (hg : Built g) (hnode : g.graph.node? state = some node)
    (hkeeps : KeepsLabel node token) (hok : retoken state token g = (.ok ⟨⟩, h)) :
    ∃ new, h.labelOf? state = some new ∧ (∀ name ∈ token, h.Calls new name) ∧
      Behaves (View.Relabelled state new) g h := by
  have hwell : h.WellFormed := by
    have hafter : g.after (.retoken state token) = h := congrArg Prod.snd hok
    exact hafter ▸ (hg.after _).wellFormed
  obtain ⟨own, hcalls, hrules, hgraph⟩ := retoken_ok hok
  have hnode' : h.graph.node? state = some { node with token := own } := by
    rw [hgraph]
    exact Graph.node?_edit_self _ hnode
  have hothers : ∀ id, id ≠ state → h.graph.node? id = g.graph.node? id := by
    intro id hid
    rw [hgraph]
    exact Graph.node?_edit_of_ne _ hid.symm
  have hretokens : g.Retokens (fun _ _ => True) h := by
    refine retokens_of_others (fun _ => trivial) hg.closed hothers ?_ (by simp [hrules]) ?_
    · rw [hgraph]
      exact Graph.size_edit ..
    · rw [Graph.node_eq_ok_iff.2 hnode, Graph.node_eq_ok_iff.2 hnode']
      exact .ok (retokened_of_keepsLabel hkeeps hcalls hrules)
  obtain ⟨new, hlabel, hnames⟩ := exists_label_of_keepsLabel hwell hkeeps hcalls hnode'
  refine ⟨new, hlabel, hnames, Session.behaves_of_retokens hretokens fun hs hx hy hsame => ?_⟩
  exact Session.relabelled_of_sameFrom rfl hs hx hy hsame hlabel fun id hid =>
    labelOf?_eq (hothers id hid) hrules

/-- **Labels and annotations never steer a scan.** To annotate a state makes no difference to what
any state scans or runs, and no state but that one changes, so states that do not lead to it are
written as before; annotations may be added one after the other or merged before. To give a state
another token that keeps one makes a difference only to what the tokens are called that are emitted
for it. -/
theorem labels_never_steer (hg : Built g) (state : StateId) :
    (∀ annotations h, annotate state annotations g = (.ok ⟨⟩, h) →
      Behaves Eq g h ∧ DiffersAt state g h ∧
      (∀ r, ¬ g.graph.Reaches r state → h.textOf r = g.textOf r) ∧
      ∀ more, ∃ twice once, annotate state more h = (.ok ⟨⟩, twice) ∧
        annotate state (annotations.merged more) g = (.ok ⟨⟩, once) ∧
        ∀ r, twice.textOf r = once.textOf r) ∧
    ∀ node token h, g.graph.node? state = some node → KeepsLabel node token →
      retoken state token g = (.ok ⟨⟩, h) →
      ∃ new, h.labelOf? state = some new ∧ (∀ name ∈ token, h.Calls new name) ∧
        Behaves (View.Relabelled state new) g h := by
  refine ⟨fun annotations h hok => ?_, fun node token h => hg.behaves_of_retoken⟩
  have hannotated := annotated_of_annotate hok
  refine ⟨hannotated.behaves hg.closed, hannotated.differsAt, fun r hr => ?_, fun more => ?_⟩
  · exact hannotated.differsAt.textOf hg hr
  · exact annotate_twice hg.closed hok

/-- Words of the greeting may be transient, and they may be called nouns. -/
theorem labels_never_steer_greeting :
    (∃ h, annotate ⟨0⟩ { transient := true } greeting = (.ok ⟨⟩, h) ∧ Behaves Eq greeting h) ∧
    ∃ h new, retoken ⟨0⟩ (some "noun") greeting = (.ok ⟨⟩, h) ∧ h.labelOf? ⟨0⟩ = some new ∧
      h.Calls new "noun" ∧ Behaves (View.Relabelled ⟨0⟩ new) greeting h := by
  have hannotate : (annotate ⟨0⟩ { transient := true } greeting).1 = .ok ⟨⟩ := by decide +kernel
  have hretoken : (retoken ⟨0⟩ (some "noun") greeting).1 = .ok ⟨⟩ := by decide +kernel
  have hkind : (greeting.graph.node? ⟨0⟩).map Node.kind = some (.terminal ⟨1⟩) := by decide +kernel
  obtain ⟨node, hnode, hkind⟩ := Option.map_eq_some_iff.1 hkind
  obtain ⟨hannotated, hretokened⟩ := labels_never_steer (Built.empty.afterAll _ : Built greeting) ⟨0⟩
  obtain ⟨new, hlabel, hnames, hbehaves⟩ :=
    hretokened node (some "noun") _ hnode (.inl ⟨⟨1⟩, hkind⟩) (Prod.ext hretoken rfl)
  exact ⟨⟨_, Prod.ext hannotate rfl, (hannotated _ _ (Prod.ext hannotate rfl)).1⟩,
    _, new, Prod.ext hretoken rfl, hlabel, hnames _ rfl, hbehaves⟩

end Grammar

end Lexigraph
