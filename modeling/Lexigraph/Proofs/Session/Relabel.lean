/-
# Lexigraph.Proofs.Session.Relabel -- grammars with the same states but for tokens

Two grammars whose states are the same but for annotations and tokens scan and run alike: fresh
sessions answer the same, and look the same but for the names of tokens (`scan_sameFrom`,
`run_sameFrom`). The rules may have other numbers, and with them what a memo knows. So the second
grammar is compared without a memo, and that makes no difference to it.
-/

import Lexigraph.Proofs.Session.Mirror

namespace Lexigraph

open Attempt (Sim SameAnswer)

/-! ## Grammars with the same states but for tokens -/

namespace Grammar

/-- Two states are the same but for their annotations and for tokens that `token` relates. A rule
may have another number, and tokens and annotations of its own. -/
inductive Retokened (token : TokenId → TokenId → Prop) (g h : Grammar) : Node → Node → Prop
  | terminal {id id' : RuleId} {own own' : Option TokenId} {a a' : Annotations}
      {ids : List StateId}
      (rule : SameAnswer (fun rule rule' => rule.choices = rule'.choices ∧
        token (own.getD rule.token) (own'.getD rule'.token)) (g.rules.get id) (h.rules.get id')) :
      Retokened token g h ⟨.terminal id, own, a, ids⟩ ⟨.terminal id', own', a', ids⟩
  | repetition {child : StateId} {min : UInt32} {max : Option UInt32} {own own' : Option TokenId}
      {a a' : Annotations} {ids : List StateId} (related : Option.Rel token own own') :
      Retokened token g h ⟨.repetition child min max, own, a, ids⟩
        ⟨.repetition child min max, own', a', ids⟩
  | choice {own own' : Option TokenId} {a a' : Annotations} {ids : List StateId}
      (related : Option.Rel token own own') :
      Retokened token g h ⟨.choice, own, a, ids⟩ ⟨.choice, own', a', ids⟩

/-- The states of two grammars are the same but for annotations and tokens. -/
structure Retokens (token : TokenId → TokenId → Prop) (g h : Grammar) : Prop where
  nodes : ∀ id, SameAnswer (Retokened token g h) (g.graph.node id) (h.graph.node id)
  size : g.graph.size = h.graph.size

end Grammar

namespace Session

variable {g h : Grammar} {token : TokenId → TokenId → Prop} {source : Source} {s t : Session}
  {α : Type}

/-- The same states on both sides, and tokens as `token` relates them. The memo on the left is
coherent, the one on the right is off. -/
def relabelling (g : Grammar) (source : Source) (token : TokenId → TokenId → Prop) :
    Correspondence where
  state := Eq
  token := token
  record := fun memo _ memo' _ => memo.Coherent g.rules source ∧ memo' = .off

theorem evaluate_relabelling {rule rule' : Rule} {id id' : RuleId}
    (hrule : g.rules.get? id = some rule) (hrule' : h.rules.get? id' = some rule')
    (hchoices : rule.choices = rule'.choices) :
    Sim (Alike (relabelling g source token) source) Eq (evaluate rule id) (evaluate rule' id') := by
  refine evaluate_sim hrule hrule' hchoices (fun s t hst => ?_) fun s t hst _ _ _ hmemo hoff => ?_
  · obtain ⟨hcoherent, hoff⟩ := hst.record
    exact ⟨hcoherent, hoff ▸ Memo.coherent_off⟩
  · exact ⟨hmemo, hoff hst.record.2⟩

theorem fits_relabelling (hgh : g.Retokens token h) :
    Fits (relabelling g source token) source g h := by
  rintro i _ rfl
  refine (hgh.nodes i).mono fun n m _ hnm => ?_
  cases hnm with
  | @terminal id id' own own' _ _ ids rule =>
    refine .terminal (rule.imp fun found found' hrule hrule' halike => ?_) (forall₂_eq_refl ids)
    exact ⟨halike.2, evaluate_relabelling (RuleTable.get_eq_ok_iff.1 hrule)
      (RuleTable.get_eq_ok_iff.1 hrule') halike.1⟩
  | @repetition child min max own own' _ _ ids related =>
    exact .repetition rfl related (forall₂_eq_refl ids)
  | @choice own own' _ _ ids related => exact .choice related (forall₂_eq_refl ids)

theorem scan_relabelling (hgh : g.Retokens token h) (i : StateId) :
    Sim (Alike (relabelling g source token) source) Eq (scan g i) (scan h i) := by
  refine Sim.get_bind fun s t hst => ?_
  -- as many states, so the same bound for the nesting
  have hbound : ∀ settings size, nestingBound g settings size = nestingBound h settings size := by
    intro settings size
    unfold nestingBound
    rw [hgh.size]
  rw [hst.settings, hst.source_left, hst.source_right, hbound]
  exact scanNested_sim (fits_relabelling hgh) _ i i rfl

/-! ## Fresh sessions -/

/-- Two computations in a session answer the same and leave sessions that look alike. -/
def SameFrom (c : Correspondence) (x y : Scanning α) (s : Session) : Prop :=
  (y s).1 = (x s).1 ∧ (x s).2.view.Alike c (y s).2.view

/-- Computations that go alike with a memo on the one side and without on the other do so with a
memo on both sides, since that makes no difference to the second. -/
theorem sameFrom_of_fresh {x y : Scanning α} (hs : Fresh s)
    (hxy : Sim (Alike (relabelling g s.scanner.source token) s.scanner.source) Eq x y)
    (hyy : Sim (Alike (remembering h s.scanner.source) s.scanner.source) Eq y y) :
    SameFrom (relabelling g s.scanner.source token) x y s := by
  cases hs with
  | remembering source settings =>
    obtain ⟨hanswer, hview⟩ := hxy _ (.start source settings .off)
      (start_alike source settings ⟨Memo.coherent_empty, rfl⟩)
    obtain ⟨hanswer', hview'⟩ := hyy _ _ (start_remembering source settings)
    refine ⟨hanswer'.eq.trans hanswer.eq.symm, ?_⟩
    rw [view_eq_of_alike hview']
    exact hview.view
  | plain source settings =>
    obtain ⟨hanswer, hview⟩ := hxy _ _ (start_alike source settings ⟨Memo.coherent_off, rfl⟩)
    exact ⟨hanswer.eq.symm, hview.view⟩

theorem scan_sameFrom (hgh : g.Retokens token h) (r : StateId) (hs : Fresh s) :
    SameFrom (relabelling g s.scanner.source token) (scan g r) (scan h r) s :=
  sameFrom_of_fresh hs (scan_relabelling hgh r) (scan_remembering r)

theorem run_sameFrom (hgh : g.Retokens token h) (r : StateId) (hs : Fresh s) :
    SameFrom (relabelling g s.scanner.source token) (run g r) (run h r) s :=
  sameFrom_of_fresh hs (run_sim (scan_relabelling hgh r)) (run_sim (scan_remembering r))

end Session

end Lexigraph
