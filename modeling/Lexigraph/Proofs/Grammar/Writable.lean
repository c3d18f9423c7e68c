/-
# Lexigraph.Proofs.Grammar.Writable -- which states can be written

A state of a built grammar is written exactly if no state that it reaches leads back to itself
and every token on the way has a name. Otherwise the error says what is wrong: a state that leads
back to itself, or a token without a name (`textOf_ok_iff_acyclic`). That a state is named in
several places does no harm, as long as none of them is below it.

Unfolding counts its steps. `Unfolds` tells the same walk without counting: it turns back at a
state that is on the path, and else goes on to all that the state names. The states on a path are
different, so the steps that are counted are enough for the walk to end by itself
(`unfoldFrom_unfolds`), and what can go wrong on the way is read off the walk (`Unfolds.refuses`).
-/

import Lexigraph.Proofs.Grammar.RoundTrip
import Lexigraph.Proofs.Grammar.WellFormed
import Lexigraph.Proofs.Session.Record
import Lexigraph.Proofs.Session.Unlimited

namespace Lexigraph.Grammar

variable {g : Grammar} {path : List StateId} {id s : StateId} {e : GrammarError}
  {unfold unfold' : StateId → Except GrammarError Pattern}

/-! ## The walk down from a state -/

/-- The walk down from a state that was reached along `path`, with how it comes out. -/
inductive Unfolds (g : Grammar) : List StateId → StateId → Except GrammarError Pattern → Prop
  /-- The walk turns back at a state that is on the path. -/
  | back {path : List StateId} {id : StateId} (hmet : id ∈ path) :
    Unfolds g path id (.error (.cyclic id))
  /-- From a new state it goes on to what the state names. -/
  | on {path : List StateId} {id : StateId} {unfold : StateId → Except GrammarError Pattern}
    (hnew : id ∉ path) (hbelow : ∀ j, g.graph.Names id j → Unfolds g (id :: path) j (unfold j)) :
    Unfolds g path id (g.unfoldNode unfold id)

/-- What is made of a state depends on the states that it names alone. -/
theorem unfoldNode_congr (h : ∀ j, g.graph.Names id j → unfold j = unfold' j) :
    g.unfoldNode unfold id = g.unfoldNode unfold' id := by
  unfold unfoldNode
  refine bind_congr_ok fun node hnode => ?_
  have hnames : ∀ j ∈ node.successors, unfold j = unfold' j := fun j hj =>
    h j ⟨node, Graph.node_eq_ok_iff.1 hnode, hj⟩
  have hbranches : node.branches.mapM unfold = node.branches.mapM unfold' :=
    mapM_congr fun j hj => hnames j (Node.branch_mem_successors hj)
  cases hkind : node.kind with
  | terminal rule => simp only [hbranches]
  | repetition child min max =>
    simp only [hbranches, hnames child (Node.child_mem_successors hkind)]
  | choice => simp only [hbranches]

/-- The walk comes out in one way only. -/
theorem Unfolds.unique {r r' : Except GrammarError Pattern} (h : Unfolds g path id r)
    (h' : Unfolds g path id r') : r = r' := by
  induction h generalizing r' with
  | back hmet =>
    cases h' with
    | back => rfl
    | on hnew => exact absurd hmet hnew
  | on hnew hbelow ih =>
    cases h' with
    | back hmet => exact absurd hmet hnew
    | on _ hbelow' => exact unfoldNode_congr fun j hj => ih j hj (hbelow' j hj)

/-- **The steps are enough**: with each of them one more state of the graph is on the path. -/
theorem unfoldFrom_unfolds (fuel : Nat) (hnodup : path.Nodup)
    (hpath : ∀ i ∈ path, i.index < g.graph.size) (hfuel : g.graph.size < fuel + path.length) :
    Unfolds g path id (g.unfoldFrom fuel path id) := by
  induction fuel generalizing path id with
  | zero =>
    have hle := Graph.length_le_size hnodup hpath
    omega
  | succ fuel ih =>
    rw [unfoldFrom]
    by_cases hmet : id ∈ path
    · rw [if_pos (List.contains_iff_mem.2 hmet)]
      exact .back hmet
    rw [if_neg fun h => hmet (List.contains_iff_mem.1 h)]
    refine .on hmet fun j hj => ?_
    obtain ⟨node, hnode, -⟩ := hj
    apply ih (List.nodup_cons.2 ⟨hmet, hnodup⟩)
    · exact List.forall_mem_cons.2 ⟨Graph.lt_size_of_node? hnode, hpath⟩
    · rw [List.length_cons]
      omega

theorem unfold_unfolds (g : Grammar) (id : StateId) : Unfolds g [] id (g.unfold id) :=
  unfoldFrom_unfolds _ List.nodup_nil (by simp) (by simp)

/-! ## What is wrong with a state that is not written -/

/-- The tokens of all that a state reaches have names. -/
def Spells (g : Grammar) (root : StateId) : Prop :=
  ∀ id token, g.graph.Reaches root id → g.labelOf? id = some token → ∃ name, g.Calls token name

/-- What is wrong with a state that was reached along `path`: from it one comes back to the path or
to a state that leads to itself, or to a token without a name. -/
inductive Refuses (g : Grammar) (path : List StateId) (root : StateId) : GrammarError → Prop
  | cyclic {id : StateId} (reached : g.graph.Reaches root id)
      (back : id ∈ path ∨ Relation.TransGen g.graph.Names id id) : Refuses g path root (.cyclic id)
  | nameless {id : StateId} {token : TokenId} (reached : g.graph.Reaches root id)
      (label : g.labelOf? id = some token) (nameless : ∀ name, ¬ g.Calls token name) :
      Refuses g path root (.unknownToken token)

/-- What is wrong below a state is wrong with the state. -/
theorem Refuses.of_names {j : StateId} (h : g.Refuses (id :: path) j e)
    (hnames : g.graph.Names id j) : g.Refuses path id e := by
  cases h with
  | cyclic reached back =>
    refine .cyclic (reached.head hnames) ?_
    rcases back with hmem | hcycle
    · rcases List.mem_cons.1 hmem with rfl | hmem
      · exact .inr (.head' hnames reached)
      · exact .inl hmem
    · exact .inr hcycle
  | nameless reached label nameless => exact .nameless (reached.head hnames) label nameless

/-- A token that is written for a state is its label. -/
theorem refuses_of_tokenName {token : TokenId} (hlabel : g.labelOf? id = some token)
    (h : g.tokenName token = .error e) : g.Refuses path id e := by
  obtain ⟨rfl, hnameless⟩ := tokenName_eq_error_iff.1 h
  exact .nameless .refl hlabel hnameless

theorem refuses_of_optionTokenName {token : Option TokenId} (hlabel : g.labelOf? id = token)
    (h : token.mapM g.tokenName = .error e) : g.Refuses path id e := by
  cases token with
  | none => cases h
  | some token =>
    rcases bind_eq_error_iff.1 (show g.tokenName token >>= (fun name => pure (some name)) = _ from h)
      with h | ⟨name, -, h⟩
    · exact refuses_of_tokenName hlabel h
    · cases h

/-- In a well formed grammar a state is refused for its token or for what it names. -/
theorem refuses_of_unfoldNode (hg : g.WellFormed) {node : Node}
    (hnode : g.graph.node? id = some node)
    (hbelow : ∀ j, g.graph.Names id j → ∀ e, unfold j = .error e → g.Refuses (id :: path) j e)
    (h : g.unfoldNode unfold id = .error e) : g.Refuses path id e := by
  have hnames : ∀ j ∈ node.successors, unfold j = .error e → g.Refuses path id e := by
    intro j hj hje
    have hname : g.graph.Names id j := ⟨node, hnode, hj⟩
    exact (hbelow j hname e hje).of_names hname
  have hbranches : node.branches.mapM unfold = .error e → g.Refuses path id e := by
    intro he
    obtain ⟨j, hj, hje⟩ := mapM_eq_error he
    exact hnames j (Node.branch_mem_successors hj) hje
  unfold unfoldNode at h
  rw [Graph.node_eq_ok_iff.2 hnode] at h
  replace h := bind_eq_error_iff.1 h
  rcases h with h | ⟨node', hnode', h⟩
  · cases h
  obtain rfl := Except.ok.inj hnode'
  cases hkind : node.kind with
  | terminal ruleId =>
    rw [hkind] at h
    obtain ⟨rule, hrule, -⟩ := hg.rules id node ruleId hnode hkind
    rcases bind_eq_error_iff.1 h with h | ⟨rule', hrule', h⟩
    · obtain ⟨hmissing, -⟩ := RuleTable.get_eq_error_iff.1 h
      cases hmissing.symm.trans hrule
    rcases bind_eq_error_iff.1 h with h | ⟨token, -, h⟩
    · have hlabel := labelOf?_terminal hnode hkind (RuleTable.get_eq_ok_iff.1 hrule')
      exact refuses_of_tokenName hlabel h
    rcases bind_eq_error_iff.1 h with h | ⟨ps, -, h⟩
    · exact hbranches h
    · cases h
  | repetition child min max =>
    have hlabel := labelOf?_own hnode (by simp [hkind])
    rw [hkind] at h
    rcases bind_eq_error_iff.1 h with h | ⟨p, -, h⟩
    · exact hnames child (Node.child_mem_successors hkind) h
    rcases bind_eq_error_iff.1 h with h | ⟨token, -, h⟩
    · exact refuses_of_optionTokenName hlabel h
    rcases bind_eq_error_iff.1 h with h | ⟨ps, -, h⟩
    · exact hbranches h
    · cases h
  | choice =>
    have hlabel := labelOf?_own hnode (by simp [hkind])
    rw [hkind] at h
    rcases bind_eq_error_iff.1 h with h | ⟨token, -, h⟩
    · exact refuses_of_optionTokenName hlabel h
    rcases bind_eq_error_iff.1 h with h | ⟨ps, -, h⟩
    · exact hbranches h
    · cases h

/-- **A walk fails for a cycle or for want of a name.** -/
theorem Unfolds.refuses (hg : g.WellFormed) {r : Except GrammarError Pattern}
    (h : Unfolds g path id r) (hid : ∃ node, g.graph.node? id = some node) (hr : r = .error e) :
    g.Refuses path id e := by
  induction h generalizing e with
  | back hmet =>
    cases hr
    exact .cyclic .refl (.inl hmet)
  | @on path id unfold hnew hbelow ih =>
    obtain ⟨node, hnode⟩ := hid
    refine refuses_of_unfoldNode hg hnode (fun j hj e he => ?_) hr
    obtain ⟨namer, hnamer, hmem⟩ := hj
    exact ih j ⟨namer, hnamer, hmem⟩ (hg.states id namer hnamer j hmem) he

/-! ## States that are written -/

theorem Spells.of_names {j : StateId} (h : g.Spells id) (hnames : g.graph.Names id j) :
    g.Spells j :=
  fun i token hreaches hlabel => h i token (hreaches.head hnames) hlabel

theorem exists_depictsAll {ids : List StateId} (h : ∀ id ∈ ids, ∃ p, g.Depicts id p) :
    ∃ ps, g.DepictsAll ids ps := by
  induction ids with
  | nil => exact ⟨[], .nil⟩
  | cons id ids ih =>
    obtain ⟨p, hp⟩ := h id List.mem_cons_self
    obtain ⟨ps, hps⟩ := ih fun j hj => h j (List.mem_cons_of_mem _ hj)
    exact ⟨p :: ps, .cons hp hps⟩

theorem exists_optionCalls {token : Option TokenId}
    (h : ∀ id, token = some id → ∃ name, g.Calls id name) :
    ∃ name, Option.Rel g.Calls token name := by
  cases token with
  | none => exact ⟨none, .none⟩
  | some id =>
    obtain ⟨name, hname⟩ := h id rfl
    exact ⟨some name, .some hname⟩

/-- Where chains of names are bounded and tokens have names, a pattern can be put together from
below. -/
theorem exists_depicts_of_within (hg : g.WellFormed) (n : Nat) (hwithin : g.graph.Within n id)
    (hid : ∃ node, g.graph.node? id = some node) (hspells : g.Spells id) :
    ∃ p, g.Depicts id p := by
  induction n generalizing id with
  | zero => exact hwithin.elim
  | succ n ih =>
    obtain ⟨node, hnode⟩ := hid
    have hnext : ∀ j ∈ node.successors, ∃ p, g.Depicts j p := fun j hj =>
      ih (hwithin node hnode j hj) (hg.states id node hnode j hj)
        (hspells.of_names ⟨node, hnode, hj⟩)
    obtain ⟨ps, hps⟩ := exists_depictsAll fun j hj => hnext j (Node.branch_mem_successors hj)
    cases hkind : node.kind with
    | terminal ruleId =>
      obtain ⟨rule, hrule, -⟩ := hg.rules id node ruleId hnode hkind
      obtain ⟨name, hname⟩ := hspells id _ .refl (labelOf?_terminal hnode hkind hrule)
      have hplain := hg.plain id node ruleId hnode hkind
      exact ⟨_, .terminal hnode hkind hrule hplain rfl rfl hname hps⟩
    | repetition child min max =>
      have hlabel := labelOf?_own hnode (by simp [hkind])
      obtain ⟨name, hname⟩ := exists_optionCalls fun token htoken =>
        hspells id token .refl (hlabel.trans htoken)
      obtain ⟨p, hp⟩ := hnext child (Node.child_mem_successors hkind)
      exact ⟨_, .repetition hnode hkind rfl hp hname hps⟩
    | choice =>
      have hlabel := labelOf?_own hnode (by simp [hkind])
      obtain ⟨name, hname⟩ := exists_optionCalls fun token htoken =>
        hspells id token .refl (hlabel.trans htoken)
      exact ⟨_, .choice hnode hkind rfl hname hps⟩

theorem Depicts.exists_of_names {p : Pattern} {j : StateId} (h : g.Depicts id p)
    (hnames : g.graph.Names id j) : ∃ q, g.Depicts j q := by
  obtain ⟨node, hnode, hj⟩ := hnames
  have hall : ∀ {ids ps}, g.DepictsAll ids ps → j ∈ ids → ∃ q, g.Depicts j q := by
    intro ids ps hids hj
    obtain ⟨q, -, hq⟩ := hids.exists_pattern hj
    exact ⟨q, hq⟩
  unfold Node.successors Node.child? at hj
  cases h with
  | terminal hfound hkind _ _ _ _ _ hbranches =>
    obtain rfl := Option.some.inj (hfound.symm.trans hnode)
    rw [hkind] at hj
    exact hall hbranches hj
  | repetition hfound hkind _ hchild _ hbranches =>
    obtain rfl := Option.some.inj (hfound.symm.trans hnode)
    rw [hkind] at hj
    rcases List.mem_cons.1 hj with rfl | hj
    · exact ⟨_, hchild⟩
    · exact hall hbranches hj
  | choice hfound hkind _ _ hbranches =>
    obtain rfl := Option.some.inj (hfound.symm.trans hnode)
    rw [hkind] at hj
    exact hall hbranches hj

/-- The token of a state that depicts a pattern has a name. -/
theorem Depicts.exists_calls {p : Pattern} (h : g.Depicts id p) {token : TokenId}
    (hlabel : g.labelOf? id = some token) : ∃ name, g.Calls token name := by
  have hown : ∀ {own name}, Option.Rel g.Calls own name → own = some token →
      ∃ name, g.Calls token name := by
    rintro own name hrel rfl
    cases hrel with
    | some hname => exact ⟨_, hname⟩
  cases h with
  | terminal hnode hkind hrule _ _ _ hname =>
    rw [labelOf?_terminal hnode hkind hrule] at hlabel
    obtain rfl := Option.some.inj hlabel
    exact ⟨_, hname⟩
  | repetition hnode hkind _ _ hrel =>
    rw [labelOf?_own hnode (by simp [hkind])] at hlabel
    exact hown hrel hlabel
  | choice hnode hkind _ hrel =>
    rw [labelOf?_own hnode (by simp [hkind])] at hlabel
    exact hown hrel hlabel

theorem Depicts.spells {p : Pattern} (h : g.Depicts s p) : g.Spells s := by
  intro id token hreaches hlabel
  have hbelow : ∃ q, g.Depicts id q := by
    clear hlabel
    induction hreaches with
    | refl => exact ⟨p, h⟩
    | tail _ hnames ih =>
      obtain ⟨q, hq⟩ := ih
      exact hq.exists_of_names hnames
  obtain ⟨q, hq⟩ := hbelow
  exact hq.exists_calls hlabel

/-- A state depicts a pattern exactly if no chain of names from it closes and the tokens have
names. -/
theorem Built.exists_depicts_iff (hg : Built g) (hs : s.index < g.graph.size) :
    (∃ p, g.Depicts s p) ↔ g.graph.Acyclic s ∧ g.Spells s := by
  constructor
  · rintro ⟨p, hp⟩
    exact ⟨hp.acyclic, hp.spells⟩
  · rintro ⟨hacyclic, hspells⟩
    exact exists_depicts_of_within hg.wellFormed _ hacyclic.within
      (Graph.exists_node?_of_lt_size hs) hspells

theorem textOf_eq_error_iff : g.textOf s = .error e ↔ g.unfold s = .error e := by
  unfold textOf
  rw [bind_eq_error_iff]
  simp [pure, Except.pure]

/-- **A state is written exactly if nothing leads back and all tokens have names.** The walk down
from a state of a built grammar ends, and in one way only. There is a text exactly if no state that
is reached leads to itself and the tokens of all of them have names. If not, the error names a
state that is reached and leads to itself, or a token of a state that is reached, without a name;
where all tokens have names it is the former. -/
theorem textOf_ok_iff_acyclic (hg : Built g) (hs : s.index < g.graph.size) :
    (∀ r, Unfolds g [] s r ↔ g.unfold s = r) ∧
    ((∃ text, g.textOf s = .ok text) ↔ g.graph.Acyclic s ∧ g.Spells s) ∧
    (∀ c, g.textOf s = .error (.cyclic c) →
      g.graph.Reaches s c ∧ Relation.TransGen g.graph.Names c c) ∧
    (g.Spells s → ¬ g.graph.Acyclic s → ∃ c, g.textOf s = .error (.cyclic c)) ∧
    ∀ e, g.textOf s = .error e → g.Refuses [] s e := by
  have hwalk := unfold_unfolds g s
  have hrefuses : ∀ e, g.textOf s = .error e → g.Refuses [] s e := fun e he =>
    hwalk.refuses hg.wellFormed (Graph.exists_node?_of_lt_size hs) (textOf_eq_error_iff.1 he)
  have hok : (∃ text, g.textOf s = .ok text) ↔ g.graph.Acyclic s ∧ g.Spells s := by
    rw [← hg.exists_depicts_iff hs]
    constructor
    · rintro ⟨text, htext⟩
      obtain ⟨p, hp, -⟩ := (textOf_eq_ok_iff hg.proper).1 htext
      exact ⟨p, hp⟩
    · rintro ⟨p, hp⟩
      exact ⟨_, hp.textOf⟩
  refine ⟨fun r => ⟨hwalk.unique, fun h => h ▸ hwalk⟩, hok, fun c hc => ?_, ?_, hrefuses⟩
  · cases hrefuses _ hc with
    | cyclic reached back => exact ⟨reached, back.resolve_left List.not_mem_nil⟩
  · intro hspells hcyclic
    cases htext : g.textOf s with
    | ok text => exact absurd (hok.1 ⟨text, htext⟩).1 hcyclic
    | error e =>
      cases hrefuses e htext with
      | cyclic => exact ⟨_, rfl⟩
      | nameless reached label nameless =>
        obtain ⟨name, hname⟩ := hspells _ _ reached label
        exact absurd hname (nameless name)

/-- Two letters that go on with the same third one, and a letter that goes on with many of
itself. -/
def joined : Grammar := empty.afterAll [
  .oneOf "a" ["a"], .oneOf "b" ["b"], .oneOf "c" ["c"],
  .link ⟨0⟩ ⟨2⟩, .link ⟨1⟩ ⟨2⟩, .choice [⟨0⟩, ⟨1⟩],
  .oneOf "d" ["d"], .repetition ⟨4⟩ 1 none, .link ⟨4⟩ ⟨5⟩]

theorem textOf_ok_iff_acyclic_joined :
    (joined.graph.Acyclic ⟨3⟩ ∧ joined.Spells ⟨3⟩) ∧
      joined.textOf ⟨5⟩ = .error (.cyclic ⟨5⟩) ∧
      Relation.TransGen joined.graph.Names ⟨5⟩ ⟨5⟩ := by
  have hbuilt : Built joined := Built.empty.afterAll _
  have htext : joined.textOf ⟨3⟩ =
      .ok "().\x7b\n\t(\"a\")->a.(\"c\")->c,\n\t(\"b\")->b.(\"c\")->c\n\x7d" := by decide +kernel
  have hcyclic : joined.textOf ⟨5⟩ = .error (.cyclic ⟨5⟩) := by decide +kernel
  obtain ⟨-, hok, -⟩ := textOf_ok_iff_acyclic (s := ⟨3⟩) hbuilt (by decide +kernel)
  obtain ⟨-, -, hback, -⟩ := textOf_ok_iff_acyclic (s := ⟨5⟩) hbuilt (by decide +kernel)
  exact ⟨hok.1 ⟨_, htext⟩, hcyclic, (hback ⟨5⟩ hcyclic).2⟩

end Lexigraph.Grammar
