/-
# Lexigraph.Proofs.Grammar.SamePattern -- states of one pattern scan alike

What a scan does depends on the pattern that a state depicts and on nothing else: not on the
numbers of states, rules and tokens, and not on what is shared. Of the pattern, annotations do
not matter either. So two states of different grammars that depict the same pattern, whatever
its annotations, answer alike, and leave sessions that differ in numbers only
(`run_samePattern`).

The sessions are compared without memos, since what is remembered goes by the numbers of
rules; that memos change nothing is known. The bounds for the nesting may differ without
limits, but no pattern is higher than its grammar has states, so neither bound is met.
-/

import Lexigraph.Proofs.Grammar.Unfold
import Lexigraph.Proofs.Pattern.Named
import Lexigraph.Proofs.Session.Ending

namespace Lexigraph

open Attempt (Sim SameAnswer)

/-! ## Short chains -/

namespace Grammar

variable {g h : Grammar}

/-- Chains of names are no longer than the pattern is high. -/
theorem Depicts.within {n : Nat} {id : StateId} {p : Pattern} (hid : g.Depicts id p)
    (hn : p.height ≤ n) : g.graph.Within n id := by
  induction n generalizing id p with
  | zero => exact absurd p.height_pos (Nat.not_lt.2 hn)
  | succ n ih =>
    have hall : ∀ {ids ps}, g.DepictsAll ids ps → Pattern.heightAll ps ≤ n →
        ∀ j ∈ ids, g.graph.Within n j := by
      intro ids ps hids hps j hj
      obtain ⟨q, hq, hdepicts⟩ := hids.exists_pattern hj
      exact ih hdepicts (Nat.le_trans (Pattern.height_le_heightAll hq) hps)
    intro node hnode j hj
    cases hid with
    | terminal hnode' hkind _ _ _ _ _ hbranches =>
      obtain rfl := Option.some.inj (hnode'.symm.trans hnode)
      rw [Pattern.height] at hn
      unfold Node.successors Node.child? at hj
      rw [hkind] at hj
      exact hall hbranches (by omega) j hj
    | repetition hnode' hkind _ hchild _ hbranches =>
      obtain rfl := Option.some.inj (hnode'.symm.trans hnode)
      rw [Pattern.height] at hn
      unfold Node.successors Node.child? at hj
      rw [hkind] at hj
      rcases List.mem_cons.1 hj with rfl | hj
      · exact ih hchild (by omega)
      · exact hall hbranches (by omega) j hj
    | choice hnode' hkind _ _ hbranches =>
      obtain rfl := Option.some.inj (hnode'.symm.trans hnode)
      rw [Pattern.height] at hn
      unfold Node.successors Node.child? at hj
      rw [hkind] at hj
      exact hall hbranches (by omega) j hj

end Grammar

/-! ## One pattern -/

/-- States depict the same pattern, whatever its annotations, tokens have the same name, and
nothing is remembered. -/
def samePattern (g h : Grammar) : Correspondence where
  state := fun i j => ∃ p f, g.Depicts i p ∧ h.Depicts j (p.mapAnnotations f)
  token := fun a b => ∃ name, g.Calls a name ∧ h.Calls b name
  record := fun memo _ memo' _ => memo = .off ∧ memo' = .off

/-- Tokens of the same span, with categories of the same name. -/
def Token.SameNamed (g h : Grammar) (t u : Token) : Prop :=
  t.span = u.span ∧ ∃ name, g.Calls t.id name ∧ h.Calls u.id name

namespace Session

variable {g h : Grammar} {source : Source} {i j : StateId}

/-- Rules with the same literals come out alike, if nothing is remembered. -/
theorem evaluate_samePattern {rule rule' : Rule} {id id' : RuleId}
    (hrule : g.rules.get? id = some rule) (hrule' : h.rules.get? id' = some rule')
    (hchoices : rule.choices = rule'.choices) :
    Sim (Alike (samePattern g h) source) Eq (evaluate rule id) (evaluate rule' id') := by
  refine evaluate_sim hrule hrule' hchoices (fun s t hst => ?_) fun s t hst _ _ hoff _ hoff' => ?_
  · obtain ⟨hs, ht⟩ := hst.record
    exact ⟨hs ▸ Memo.coherent_off, ht ▸ Memo.coherent_off⟩
  · obtain ⟨hs, ht⟩ := hst.record
    exact ⟨hoff hs, hoff' ht⟩

theorem forall₂_samePattern {ids ids' : List StateId} {ps : List Pattern}
    {f : Annotations → Annotations} (hids : g.DepictsAll ids ps)
    (hids' : h.DepictsAll ids' (Pattern.mapAnnotationsAll f ps)) :
    List.Forall₂ (samePattern g h).state ids ids' := by
  induction ps generalizing ids ids' with
  | nil =>
    cases hids
    cases hids'
    exact .nil
  | cons p ps ih =>
    cases hids with
    | cons head tail =>
      cases hids' with
      | cons head' tail' => exact .cons ⟨p, f, head, head'⟩ (ih tail tail')

theorem optionRel_samePattern {a b : Option TokenId} {name : Option String}
    (ha : Option.Rel g.Calls a name) (hb : Option.Rel h.Calls b name) :
    Option.Rel (samePattern g h).token a b := by
  cases ha with
  | none =>
    cases hb
    exact .none
  | some ha =>
    cases hb with
    | some hb => exact .some ⟨_, ha, hb⟩

theorem fits_samePattern : Fits (samePattern g h) source g h := by
  rintro i j ⟨p, f, hi, hj⟩
  -- the pattern tells the kind of both states
  cases hi with
  | @terminal _ node ruleId rule _ _ _ _ hnode hkind hrule _ _ hc htoken hbranches =>
    rw [Pattern.mapAnnotations] at hj
    cases hj with
    | @terminal _ node' ruleId' rule' _ _ _ _ hnode' hkind' hrule' _ _ hc' htoken' hbranches' =>
      rw [Graph.node_eq_ok_iff.2 hnode, Graph.node_eq_ok_iff.2 hnode']
      rcases node with ⟨kind, own, annotations, ids⟩
      rcases node' with ⟨kind', own', annotations', ids'⟩
      obtain rfl : kind = _ := hkind
      obtain rfl : kind' = _ := hkind'
      refine .ok (.terminal ?_ (forall₂_samePattern hbranches hbranches'))
      rw [RuleTable.get_eq_ok_iff.2 hrule, RuleTable.get_eq_ok_iff.2 hrule']
      exact .ok ⟨⟨_, htoken, htoken'⟩, evaluate_samePattern hrule hrule' (hc.trans hc'.symm)⟩
  | @repetition _ node _ _ _ _ _ _ _ hnode hkind _ hchild htoken hbranches =>
    rw [Pattern.mapAnnotations] at hj
    cases hj with
    | @repetition _ node' _ _ _ _ _ _ _ hnode' hkind' _ hchild' htoken' hbranches' =>
      rw [Graph.node_eq_ok_iff.2 hnode, Graph.node_eq_ok_iff.2 hnode']
      rcases node with ⟨kind, own, annotations, ids⟩
      rcases node' with ⟨kind', own', annotations', ids'⟩
      obtain rfl : kind = _ := hkind
      obtain rfl : kind' = _ := hkind'
      exact .ok (.repetition ⟨_, f, hchild, hchild'⟩ (optionRel_samePattern htoken htoken')
        (forall₂_samePattern hbranches hbranches'))
  | @choice _ node _ _ _ hnode hkind _ htoken hbranches =>
    rw [Pattern.mapAnnotations] at hj
    cases hj with
    | @choice _ node' _ _ _ hnode' hkind' _ htoken' hbranches' =>
      rw [Graph.node_eq_ok_iff.2 hnode, Graph.node_eq_ok_iff.2 hnode']
      rcases node with ⟨kind, own, annotations, ids⟩
      rcases node' with ⟨kind', own', annotations', ids'⟩
      obtain rfl : kind = _ := hkind
      obtain rfl : kind' = _ := hkind'
      exact .ok (.choice (optionRel_samePattern htoken htoken')
        (forall₂_samePattern hbranches hbranches'))

/-! ## Scans and runs -/

theorem scan_samePattern (hij : (samePattern g h).state i j) :
    Sim (Alike (samePattern g h) source) Eq (scan g i) (scan h j) := by
  obtain ⟨p, f, hi, hj⟩ := hij
  refine Sim.get_bind fun s t hst => ?_
  rw [hst.settings, hst.source_left, hst.source_right]
  -- with a limit the bounds are the same; without one, neither is met
  by_cases hlimits : t.settings.maxDepth.isSome ∨ t.settings.maxSteps.isSome
  · rw [nestingBound_eq hlimits g h]
    exact scanNested_sim fits_samePattern _ i j ⟨p, f, hi, hj⟩
  · have hg := Nat.le_trans hi.height_le (size_lt_nestingBound hlimits g source.size).le
    have hh := Nat.le_trans hj.height_le (size_lt_nestingBound hlimits h source.size).le
    rw [p.height_mapAnnotations] at hh
    exact scanNested_sim_of_within fits_samePattern hg hh i j
      ⟨⟨p, f, hi, hj⟩, hi.within (Nat.le_refl _)⟩

/-! ## What is the same in the end -/

theorem forall₂_getLastD {α β : Type} {rel : α → β → Prop} {as : List α} {bs : List β}
    (h : List.Forall₂ rel as bs) {a : α} {b : β} (hab : rel a b) :
    rel (as.getLastD a) (bs.getLastD b) := by
  induction h generalizing a b with
  | nil => exact hab
  | cons h _ ih =>
    rw [List.getLastD_cons, List.getLastD_cons]
    exact ih h

/-- The tokens that alike sessions have found are alike. -/
theorem Alike.tokens {c : Correspondence} {s t : Session} (hst : s.Alike c source t) :
    List.Forall₂ (Token.Alike c) s.tokens.toList t.tokens.toList :=
  (forall₂_getLastD hst.outer hst.active).tokens

/-- Sessions that stand at the same place after the same number of steps, have failed at the
same place last, and have found tokens of the same spans and names. -/
structure EndsLike (g h : Grammar) (s t : Session) : Prop where
  source : s.scanner.source = t.scanner.source
  position : s.position = t.position
  steps : s.steps = t.steps
  furthest : s.furthest = t.furthest
  tokens : List.Forall₂ (Token.SameNamed g h) s.tokens.toList t.tokens.toList

/-- **Runs of states that depict the same pattern**, whatever its annotations, give the same answer
and end alike. -/
theorem run_samePattern (hij : (samePattern g h).state i j) (source : String)
    (settings : Settings) :
    (run g i (.start source settings)).1 = (run h j (.start source settings)).1 ∧
      EndsLike g h (run g i (.start source settings)).2
        (run h j (.start source settings)).2 := by
  -- each session is compared with one that remembers nothing, and these with each other
  obtain ⟨hleft, hs⟩ := run_sim (scan_remembering i) _ _ (start_remembering source settings)
  obtain ⟨hmid, hst⟩ := run_sim (scan_samePattern hij) _ _
    (start_alike source settings ⟨rfl, rfl⟩)
  obtain ⟨hright, ht⟩ := run_sim (scan_remembering j) _ _ (start_remembering source settings)
  refine ⟨hleft.eq.trans (hmid.eq.trans hright.eq.symm), ?_⟩
  have htokens := hst.tokens
  rw [← eq_of_forall₂ (fun _ _ h => h.eq rfl) hs.tokens,
    ← eq_of_forall₂ (fun _ _ h => h.eq rfl) ht.tokens] at htokens
  exact {
    source := hs.source_left.trans ht.source_left.symm
    position := hs.current.trans (hst.current.trans ht.current.symm)
    steps := hs.steps.trans (hst.steps.trans ht.steps.symm)
    furthest := hs.furthest.trans (hst.furthest.trans ht.furthest.symm)
    tokens := htokens.imp fun _ _ hab => ⟨hab.span, hab.id⟩ }

end Session

end Lexigraph
