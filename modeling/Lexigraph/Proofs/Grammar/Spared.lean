/-
# Lexigraph.Proofs.Grammar.Spared -- what is changed elsewhere makes no difference

A call changes the states that it is told to (`Call.edits`) and no other. Tokens, rules and
states that are there keep their numbers and their contents, whether or not the call succeeds
(`after_agreesOn`). So calls that spare all that a state reaches leave the state as it is: it
reaches the same states, and it scans, runs and reads as before (`unaffected_of_spared`).

A copy and its original reach different states. So neither is affected by what is done to
the other.
-/

import Lexigraph.Proofs.Grammar.Closed
import Lexigraph.Proofs.Grammar.Copy
import Lexigraph.Proofs.Grammar.RoundTrip

namespace Lexigraph

open Attempt

/-! ## Other states of a graph -/

namespace Graph

/-- The states of a set that are in the first graph are in the second one as they were. -/
def Spares (states : StateId → Prop) (g g' : Graph) : Prop :=
  ∀ id node, states id → g.node? id = some node → g'.node? id = some node

variable {states : StateId → Prop} {g₀ g : Graph} {id : StateId}

theorem Spares.alloc (hg : Spares states g₀ g) (node : Node) :
    Spares states g₀ (alloc node g).2 :=
  fun i n hi hn => node?_alloc node (hg i n hi hn)

theorem Spares.edit (hg : Spares states g₀ g) (hid : ¬ states id) (f : Node → Node) :
    Spares states g₀ (edit id f g).2 := by
  intro i n hi hn
  have hne : id ≠ i := fun heq => hid (heq ▸ hi)
  rw [node?_edit_of_ne f hne]
  exact hg i n hi hn

theorem update_spares (hid : ¬ states id) (f : Node → Node) :
    Keeps (Spares states g₀) (update id f) :=
  require_bind_keeps fun _ hg _ => hg.edit hid f

theorem repetition_spares (child : StateId) (min : UInt32) (max : Option UInt32) :
    Keeps (Spares states g₀) (repetition child min max) := by
  apply require_bind_keeps
  intro g hg _
  rw [bind_apply, ofExcept_apply]
  cases checkBounds min max with
  | error e => exact hg
  | ok bounds => exact hg.alloc _

theorem link_spares {source : StateId} (hsource : ¬ states source) (target : StateId) :
    Keeps (Spares states g₀) (link source target) :=
  require_bind_keeps fun g hg _ => (update_spares hsource _ g hg).2

theorem setToken_spares (hid : ¬ states id) (token : Option TokenId) :
    Keeps (Spares states g₀) (setToken id token) :=
  update_spares hid _

/-- A choice is added, and the added state alone gets branches. -/
theorem choice_spares (branches : List StateId) : Keeps (Spares states g₀) (choice branches) := by
  apply Stays.of_keeps
  intro g hg i n hi hn
  -- among the states that are there already, the added one is not
  have hthere : Spares (fun i => states i ∧ i.index < g.size) g₀ g :=
    fun i n hi hn => hg i n hi.1 hn
  have hnew : ¬ (states ⟨g.size⟩ ∧ g.size < g.size) := fun h => Nat.lt_irrefl _ h.2
  rw [choice_snd]
  apply (update_spares hnew _ _ (hthere.alloc _)).2 i n _ hn
  exact ⟨hi, lt_size_of_node? (hg i n hi hn)⟩

theorem copy_spares (root : StateId) : Keeps (Spares states g₀) (copy root) := by
  apply Stays.of_keeps
  intro g hg
  have hcopied := copy_copied g root
  revert hcopied
  generalize copy root g = outcome
  intro hcopied
  cases hcopied with
  | refused => exact hg
  | made _ isCopy =>
    intro i n hi hn
    rw [isCopy.old i (lt_size_of_node? (hg i n hi hn))]
    exact hg i n hi hn

end Graph

/-! ## Calls -/

namespace Grammar

/-- The states that a call changes, if it changes any that are there. -/
def Call.edits : Call → List StateId
  | .link source _ => [source]
  | .sequence states => states.dropLast
  | .retoken state _ | .annotate state _ => [state]
  | _ => []

variable {states : StateId → Prop} {g₀ g h : Grammar} {α : Type}

theorem AgreesOn.refl (states : StateId → Prop) (g : Grammar) : AgreesOn states g g :=
  ⟨fun _ _ _ hnode => hnode, fun _ _ hrule => hrule, fun _ _ htoken => htoken⟩

theorem AgreesOn.extends (hg : AgreesOn states g₀ g) (hh : Extends g h) :
    AgreesOn states g₀ h where
  nodes id node hid hnode := hh.nodes id node (hg.nodes id node hid hnode)
  rules id rule hrule := hh.rules id rule (hg.rules id rule hrule)
  tokens id name htoken := hh.tokens id name (hg.tokens id name htoken)

/-- Other states of the graph are other states of the grammar. -/
theorem onGraph_agreesOn {edit : Attempt GrammarError Graph α}
    (hedit : Keeps (Graph.Spares states g₀.graph) edit) :
    Keeps (AgreesOn states g₀) (onGraph edit) :=
  .of_keeps fun g hg => ⟨(hedit g.graph hg.nodes).2, hg.rules, hg.tokens⟩

theorem oneOf_agreesOn (token : String) (choices : List String) :
    Keeps (AgreesOn states g₀) (oneOf token choices) := by
  apply (Stays.lift fun g hg => hg.extends (intern_extends token g)).bind
  intro token
  apply Stays.ofExcept_bind fun _ _ => trivial
  intro rule _
  apply (Stays.lift fun g hg => hg.extends (addRule_extends rule g)).bind
  intro id
  exact .lift fun g hg => hg.extends (addNode_extends _ g)

theorem terminal_agreesOn (rule : RuleId) : Keeps (AgreesOn states g₀) (terminal rule) := by
  apply Stays.get_bind
  intro s _
  apply Stays.ofExcept_bind fun _ _ => trivial
  intro _ _
  exact .lift fun g hg => hg.extends (addNode_extends _ g)

/-- What has another one after it in a list is not the last. -/
theorem mem_dropLast_of_mem_zip {ids : List StateId} {pair : StateId × StateId}
    (h : pair ∈ ids.zip ids.tail) : pair.1 ∈ ids.dropLast := by
  rw [List.zip_eq_zip_take_min, List.length_tail, Nat.min_eq_right (Nat.sub_le ..),
    ← List.dropLast_eq_take] at h
  exact (List.of_mem_zip h).1

/-- Each link of a sequence changes a state that another one follows. -/
theorem sequence_agreesOn {ids : List StateId} (hids : ∀ id ∈ ids.dropLast, ¬ states id) :
    Keeps (AgreesOn states g₀) (sequence ids) := by
  refine (Stays.forM fun pair hpair => ?_).bind fun _ => .pure _
  apply onGraph_agreesOn
  exact Graph.link_spares (hids _ (mem_dropLast_of_mem_zip hpair)) _

theorem retoken_agreesOn {state : StateId} (hstate : ¬ states state) (token : Option String) :
    Keeps (AgreesOn states g₀) (retoken state token) := by
  have hset : ∀ token, Keeps (AgreesOn states g₀) (onGraph (Graph.setToken state token)) :=
    fun token => onGraph_agreesOn (Graph.setToken_spares hstate token)
  cases token with
  | none => exact hset none
  | some name => exact fun g hg => hset _ _ (hg.extends (intern_extends name g))

theorem editNode_agreesOn {state : StateId} (hstate : ¬ states state) (f : Node → Node)
    (hg : AgreesOn states g₀ g) : AgreesOn states g₀ (editNode state f g).2 :=
  ⟨Graph.Spares.edit hg.nodes hstate f, hg.rules, hg.tokens⟩

theorem annotate_agreesOn {state : StateId} (hstate : ¬ states state)
    (annotations : Annotations) : Keeps (AgreesOn states g₀) (annotate state annotations) := by
  apply Stays.get_bind
  intro _ _
  apply Stays.ofExcept_bind fun _ _ => trivial
  intro node _
  rcases node with ⟨kind, token, own, branches⟩
  cases kind with
  | terminal id =>
    apply Stays.get_bind
    intro _ _
    apply Stays.ofExcept_bind fun _ _ => trivial
    intro rule _
    apply (Stays.lift fun g hg => hg.extends (addRule_extends _ g)).bind
    intro id
    exact .lift fun g hg => editNode_agreesOn hstate _ hg
  | repetition child min max => exact .lift fun g hg => editNode_agreesOn hstate _ hg
  | choice => exact .lift fun g hg => editNode_agreesOn hstate _ hg

theorem read_agreesOn (text : String) : Keeps (AgreesOn states g₀) (read text) :=
  read_keeps_of_plant (fun p _ g hg => hg.extends (p.plant_sprouts g).toExtends) text

theorem setRoot_agreesOn (state : StateId) : Keeps (AgreesOn states g₀) (setRoot state) := by
  apply Stays.get_bind
  intro _ _
  apply Stays.ofExcept_bind fun _ _ => trivial
  intro _ _
  exact .modify fun g hg => ⟨hg.nodes, hg.rules, hg.tokens⟩

/-- **A call changes what it edits and nothing else**, also where it fails. -/
theorem AgreesOn.after {call : Call} (hcall : ∀ id ∈ call.edits, ¬ states id)
    (hg : AgreesOn states g₀ g) : AgreesOn states g₀ (g.after call) := by
  cases call with
  | intern name => exact hg.extends (intern_extends name g)
  | addRule rule => exact hg.extends (addRule_extends rule g)
  | oneOf token choices => exact (oneOf_agreesOn token choices g hg).2
  | terminal rule => exact (terminal_agreesOn rule g hg).2
  | repetition child min max =>
    exact (onGraph_agreesOn (Graph.repetition_spares child min max) g hg).2
  | choice branches => exact (onGraph_agreesOn (Graph.choice_spares branches) g hg).2
  | link source target =>
    have hsource : ¬ states source := hcall source List.mem_cons_self
    exact (onGraph_agreesOn (Graph.link_spares hsource target) g hg).2
  | sequence ids => exact (sequence_agreesOn hcall g hg).2
  | retoken state token =>
    exact (retoken_agreesOn (hcall state List.mem_cons_self) token g hg).2
  | annotate state annotations =>
    exact (annotate_agreesOn (hcall state List.mem_cons_self) annotations g hg).2
  | copy state => exact (onGraph_agreesOn (Graph.copy_spares state) g hg).2
  | read text => exact (read_agreesOn text g hg).2
  | setRoot state => exact (setRoot_agreesOn state g hg).2

theorem AgreesOn.afterAll {calls : List Call}
    (hcalls : ∀ call ∈ calls, ∀ id ∈ call.edits, ¬ states id)
    (hg : AgreesOn states g₀ g) : AgreesOn states g₀ (g.afterAll calls) := by
  induction calls generalizing g with
  | nil => exact hg
  | cons call calls ih =>
    rw [List.forall_mem_cons] at hcalls
    exact ih hcalls.2 (hg.after hcalls.1)

/-! ## What a state is -/

/-- The states that a state of a built grammar reaches are there. -/
theorem Built.exists_node?_of_reaches (hg : Built g) {root : StateId}
    (hroot : root.index < g.graph.size) {id : StateId} (hid : g.graph.Reaches root id) :
    ∃ node, g.graph.node? id = some node := by
  apply Graph.exists_node?_of_lt_size
  cases hid with
  | refl => exact hroot
  | tail _ hnames =>
    obtain ⟨node, hnode, hid⟩ := hnames
    exact (hg.closed _ node hnode).states id hid

/-- A grammar that agrees on all that a state reaches has the state as it was. -/
theorem Built.mirrors (hg : Built g) {root : StateId} (hroot : root.index < g.graph.size)
    (hagrees : AgreesOn (g.graph.Reaches root) g h) : g.Mirrors (g.graph.Reaches root) id h where
  closed _ node hid hnode j hj := hid.tail ⟨node, hnode, hj⟩
  there _ hid := hg.exists_node?_of_reaches hroot hid
  nodes i node hi hnode := by
    rw [Node.rename_id]
    exact hagrees.nodes i node hi hnode
  rules i node rule hi hnode hkind := by
    have hlt : rule.index < g.rules.size := (hg.closed i node hnode).rule rule hkind
    have hrule : g.rules.get? rule = some g.rules.rules[rule.index] := Array.getElem?_eq_getElem hlt
    rw [hrule]
    exact hagrees.rules rule _ hrule
  tokens := hagrees.tokens
  injOn := Set.injOn_id _

/-- The same states are reached in grammars that agree on them. -/
theorem Mirrors.reaches_iff {root i : StateId}
    (hm : g.Mirrors (g.graph.Reaches root) id h) :
    h.graph.Reaches root i ↔ g.graph.Reaches root i := by
  have hnode : ∀ j node, g.graph.Reaches root j → g.graph.node? j = some node →
      h.graph.node? j = some node := by
    intro j node hj hnode
    rw [← node.rename_id]
    exact hm.nodes j node hj hnode
  constructor
  · intro hi
    induction hi with
    | refl => exact .refl
    | @tail j k _ hnames ih =>
      obtain ⟨node', hnode', hk⟩ := hnames
      obtain ⟨node, hj⟩ := hm.there j ih
      rw [hnode j node ih hj] at hnode'
      obtain rfl := Option.some.inj hnode'
      exact ih.tail ⟨node, hj, hk⟩
  · intro hi
    induction hi with
    | refl => exact .refl
    | @tail j k hj hnames ih =>
      obtain ⟨node, hfound, hk⟩ := hnames
      exact ih.tail ⟨node, hnode j node hj hfound, hk⟩

open Session (Fresh scan run)

/-- State `root` does in the second grammar what it does in the first, and reaches the same. It may
read where it did not before, if for want of the name of a token. -/
structure Unaffected (g h : Grammar) (root : StateId) : Prop where
  reaches : ∀ id, h.graph.Reaches root id ↔ g.graph.Reaches root id
  reads : (∀ token, g.textOf root ≠ .error (.unknownToken token)) → h.textOf root = g.textOf root
  scans : ∀ s, Fresh s → scan h root s = scan g root s ∨
    (scan g root s).1 = .error .endless ∧ (scan h root s).1 = .error .endless
  runs : ∀ s, Fresh s → run h root s = run g root s ∨
    (run g root s).1 = .error .endless ∧ (run h root s).1 = .error .endless

theorem Mirrors.unaffected {root : StateId} (hm : g.Mirrors (g.graph.Reaches root) id h) :
    Unaffected g h root where
  reaches _ := hm.reaches_iff
  reads := by
    intro hknown
    have htext := hm.textOf .refl
    revert htext hknown
    generalize g.textOf root = answer
    show _ → Retells g h id answer (h.textOf root) → _
    generalize h.textOf root = answer'
    rintro hknown (_ | ⟨-, -⟩)
    · cases answer with
      | ok text => rfl
      | error e => exact congrArg Except.error e.rename_id
    · exact absurd rfl (hknown _)
  scans _ hs := (Session.scan_sameOutcome hm .refl hs).eq_or_endless
  runs _ hs := (Session.run_sameOutcome hm .refl hs).eq_or_endless

theorem unaffected_afterAll (hg : Built g) {root : StateId} (hroot : root.index < g.graph.size)
    {calls : List Call} (hcalls : ∀ call ∈ calls, ∀ id ∈ call.edits, ¬ g.graph.Reaches root id) :
    Unaffected g (g.afterAll calls) root :=
  (hg.mirrors hroot ((AgreesOn.refl _ g).afterAll hcalls)).unaffected

/-- **Only what is reached matters.** Calls that edit no state that a state of a built grammar
reaches do not affect it, whatever else they do and whether or not they succeed. It can be
copied; copy and original have no state in common, so edits of the one do not affect the other. -/
theorem unaffected_of_spared (hg : Built g) {root : StateId} (hroot : root.index < g.graph.size) :
    (∀ calls : List Call, (∀ call ∈ calls, ∀ id ∈ call.edits, ¬ g.graph.Reaches root id) →
      Unaffected g (g.afterAll calls) root) ∧
    ∃ twin g', copy root g = (.ok twin, g') ∧
      (∀ calls : List Call, (∀ call ∈ calls, ∀ id ∈ call.edits, g'.graph.Reaches twin id) →
        Unaffected g (g'.afterAll calls) root) ∧
      ∀ calls : List Call, (∀ call ∈ calls, ∀ id ∈ call.edits, g'.graph.Reaches root id) →
        Unaffected g' (g'.afterAll calls) twin := by
  refine ⟨fun calls => unaffected_afterAll hg hroot, ?_⟩
  have hthere : ∀ id, g.graph.Reaches root id → ∃ node, g.graph.node? id = some node :=
    fun id hid => hg.exists_node?_of_reaches hroot hid
  rcases copy_twin g.graph root with ⟨id, hid, hmissing, -⟩ | ⟨-, f, graph, -, hcopy, -, hgrammar⟩
  · obtain ⟨node, hnode⟩ := hthere id hid
    cases hmissing.symm.trans hnode
  have happly : copy root g = (.ok (f root), { g with graph }) := (hgrammar g).1
  have hafter : g.after (.copy root) = { g with graph } := congrArg Prod.snd happly
  -- what the copy reaches is new, and what the original reaches is as old as it was
  have hnew : ∀ id, graph.Reaches (f root) id → ¬ g.graph.Reaches root id := by
    intro id hid hold
    obtain ⟨node, hnode⟩ := hthere id hold
    have hle := hcopy.le_of_reaches hthere hid
    have hlt := Graph.lt_size_of_node? hnode
    omega
  refine ⟨f root, { g with graph }, happly, fun calls hcalls => ?_, fun calls hcalls => ?_⟩
  · have hspared : ∀ call ∈ Call.copy root :: calls, ∀ id ∈ call.edits,
        ¬ g.graph.Reaches root id := by
      rw [List.forall_mem_cons]
      exact ⟨nofun, fun call hcall id hid => hnew id (hcalls call hcall id hid)⟩
    have hunaffected := unaffected_afterAll hg hroot hspared
    rwa [show g.afterAll (.copy root :: calls) = (g.after (.copy root)).afterAll calls from rfl,
      hafter] at hunaffected
  · have hbuilt : Built { g with graph } := hafter ▸ hg.after (.copy root)
    apply unaffected_afterAll hbuilt (hcopy.bijOn.mapsTo .refl).2
    intro call hcall id hid htwin
    have hspared : ∀ call ∈ [Call.copy root], ∀ id ∈ call.edits, ¬ g.graph.Reaches root id := by
      simp [Call.edits]
    have hreaches := ((unaffected_afterAll hg hroot hspared).reaches id).1
    rw [show g.afterAll [.copy root] = g.after (.copy root) from rfl, hafter] at hreaches
    exact hnew id htwin (hreaches (hcalls call hcall id hid))

/-- Changes of all that the greeting has besides its words. -/
def elsewhere : List Call := [
  .annotate ⟨1⟩ { transient := true },
  .link ⟨1⟩ ⟨1⟩,
  .retoken ⟨1⟩ none,
  .link ⟨1⟩ ⟨9⟩,
  .read "(\"a\")->word.(",
  .setRoot ⟨1⟩]

/-- The words of the greeting reach themselves alone, and are spared. -/
theorem unaffected_of_spared_greeting :
    Unaffected greeting (greeting.afterAll elsewhere) ⟨0⟩ := by
  have hbuilt : Built greeting := Built.empty.afterAll _
  have hroot : 0 < greeting.graph.size := by decide +kernel
  have hleaf : (greeting.graph.node? ⟨0⟩).map Node.successors = some [] := by decide +kernel
  have hreaches : ∀ id, greeting.graph.Reaches ⟨0⟩ id → id = ⟨0⟩ := by
    intro id hid
    induction hid with
    | refl => rfl
    | tail _ hnames ih =>
      obtain ⟨node, hnode, hmem⟩ := hnames
      rw [ih] at hnode
      rw [hnode] at hleaf
      rw [Option.some.inj hleaf] at hmem
      cases hmem
  apply (unaffected_of_spared hbuilt hroot).1
  intro call hcall id hid hreached
  obtain rfl := hreaches id hreached
  revert hid hcall
  simp only [elsewhere, List.mem_cons, List.not_mem_nil, or_false]
  rintro (rfl | rfl | rfl | rfl | rfl | rfl) <;> simp [Call.edits]

end Grammar

end Lexigraph
