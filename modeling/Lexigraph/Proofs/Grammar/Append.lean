/-
# Lexigraph.Proofs.Grammar.Append -- reading is appending

A text may be read into any grammar. What is there makes no difference to whether the text can
be read, to the error if it cannot, or to what is written of the state that it is read as
(`read_like_ofText`). Nor does reading make a difference to what is there: states, rules and
names are added at the ends of their tables, also by a text that turns out to be faulty half way
through, and a name that is known keeps its number.
-/

import Lexigraph.Proofs.Grammar.Canonical
import Lexigraph.Proofs.Grammar.Spared

namespace Lexigraph

namespace Grammar

variable {g g' : Grammar}

/-! ## What is appended to a grammar -/

/-- The second grammar is the first one with states, rules and names added at the ends. No name
that was known is added again, and the root is the same. -/
structure Appended (g g' : Grammar) : Prop where
  nodes : g.graph.nodes.toList <+: g'.graph.nodes.toList
  rules : g.rules.rules.toList <+: g'.rules.rules.toList
  names : ∃ added, g'.tokens.names.toList = g.tokens.names.toList ++ added ∧
    ∀ name ∈ added, g.tokens.get? name = none
  known : ∀ name id, g.tokens.get? name = some id → g'.tokens.get? name = some id
  root : g'.root = g.root

/-- A table is a beginning of another one if its entries are there under the same numbers. -/
theorem prefix_of_getElem? {α : Type} {xs ys : Array α}
    (h : ∀ (i : Nat) a, xs[i]? = some a → ys[i]? = some a) : xs.toList <+: ys.toList := by
  rw [List.prefix_iff_getElem?]
  intro i hi
  rw [Array.getElem?_toList]
  apply h
  rw [← Array.getElem?_toList, List.getElem?_eq_getElem hi]

/-- What extends a grammar was appended to it: an entry never gets another number, and a table of
names has no name twice. -/
theorem Extends.appended (h : Extends g g') : Appended g g' where
  nodes := prefix_of_getElem? fun i node hnode => h.nodes ⟨i⟩ node hnode
  rules := prefix_of_getElem? fun i rule hrule => h.rules ⟨i⟩ rule hrule
  names := by
    obtain ⟨added, hadded⟩ : g.tokens.names.toList <+: g'.tokens.names.toList :=
      prefix_of_getElem? fun i name hname => h.tokens ⟨i⟩ name hname
    refine ⟨added, hadded.symm, fun name hname => ?_⟩
    have hdistinct := g'.tokens.distinct
    rw [← hadded, List.nodup_append] at hdistinct
    cases hknown : g.tokens.get? name with
    | none => rfl
    | some id =>
      have hold := Array.mem_of_getElem? (TokenTable.get?_eq_some_iff.1 hknown)
      exact absurd rfl (hdistinct.2.2 name (Array.mem_toList_iff.2 hold) name hname)
  known name id hknown :=
    TokenTable.get?_eq_some_iff.2 (h.tokens id name (TokenTable.get?_eq_some_iff.1 hknown))
  root := h.root

/-! ## What reading appends -/

/-- Each pattern is planted after all that was there, and a text that cannot be read to its end
leaves patterns that were planted. -/
theorem read_extends (text : String) (g : Grammar) : Extends g (read text g).2 := by
  have hread : Attempt.Keeps (Extends g) (read text) :=
    read_keeps_of_plant (fun p _ h hg => hg.trans (p.plant_sprouts h).toExtends) text
  exact (hread g (.refl g)).2

theorem ofText_of_misread {text : String} {misread : Misread}
    (h : Pattern.ofText text.toList = .error misread) : ofText text = .error misread.error := by
  unfold ofText
  rw [read_of_misread h]

/-- **Reading does not depend on what a text is read into.** A text that denotes a grammar is read
as a new state, of which the same is written as of the root of that grammar; any other text is
refused with the same error. Read or refused, the text changes nothing that was there: it only
appends. -/
theorem read_like_ofText (text : String) (g : Grammar) :
    (match ofText text with
      | .ok parsed => ∃ root id written, parsed.root = some root ∧ (read text g).1 = .ok id ∧
          IsNew g (read text g).2 id ∧ parsed.textOf root = .ok written ∧
          (read text g).2.textOf id = .ok written
      | .error e => (read text g).1 = .error e) ∧
    Appended g (read text g).2 := by
  refine ⟨?_, (read_extends text g).appended⟩
  cases hpattern : Pattern.ofText text.toList with
  | error misread =>
    rw [ofText_of_misread hpattern]
    exact congrArg Prod.fst (read_of_misread hpattern g)
  | ok p =>
    have hnew : IsNew g (p.plant g).2 (p.plant g).1 :=
      (p.plant_sprouts g).fresh _ (List.mem_singleton.2 rfl)
    rw [ofText_eq_ok_iff.2 ⟨p, hpattern, rfl⟩, read_of_ofText hpattern]
    exact ⟨_, _, _, rfl, rfl, hnew, (ofPattern_depicts p).textOf, (plant_depicts p g).textOf⟩

end Grammar

end Lexigraph
