/-
# Lexigraph.Proofs.Grammar.Unfold -- unfolding finds the pattern of a state

Unfolding a state answers a pattern exactly when the state depicts it (`unfold_eq_ok_iff`),
provided that terminals have their annotations in their rules alone. One half is read off
the function. For the other, a state further down depicts a smaller pattern, so no state
on the path can be met again, and a path without repetition is no longer than there are
states: the fuel lasts.
-/

import Mathlib.Data.Fintype.Card
import Mathlib.Tactic.Choose
import Lexigraph.Proofs.Attempt
import Lexigraph.Proofs.Grammar.Depicts
import Lexigraph.Proofs.Pattern.Height

namespace Lexigraph

/-! ## Chains of results -/

theorem mapM_eq_ok_iff {ε α β : Type} {f : α → Except ε β} {as : List α} {bs : List β} :
    as.mapM f = .ok bs ↔ List.Forall₂ (fun a b => f a = .ok b) as bs := by
  induction as generalizing bs with
  | nil =>
    rw [List.mapM_nil, List.forall₂_nil_left_iff]
    exact ⟨fun h => (Except.ok.inj h).symm, fun h => congrArg Except.ok h.symm⟩
  | cons a as ih =>
    rw [List.mapM_cons, bind_eq_ok_iff]
    constructor
    · rintro ⟨b, hb, h⟩
      obtain ⟨bs', hbs', h⟩ := bind_eq_ok_iff.1 h
      rw [← Except.ok.inj h]
      exact .cons hb (ih.1 hbs')
    · intro h
      cases h with
      | cons hb hbs => exact ⟨_, hb, bind_eq_ok_iff.2 ⟨_, ih.2 hbs, rfl⟩⟩

/-- A chain of results fails where one of them fails. -/
theorem mapM_eq_error {ε α β : Type} {f : α → Except ε β} {as : List α} {e : ε}
    (h : as.mapM f = .error e) : ∃ a ∈ as, f a = .error e := by
  induction as with
  | nil => cases h
  | cons a as ih =>
    rw [List.mapM_cons, bind_eq_error_iff] at h
    rcases h with h | ⟨b, -, h⟩
    · exact ⟨a, List.mem_cons_self, h⟩
    rcases bind_eq_error_iff.1 h with h | ⟨bs, -, h⟩
    · obtain ⟨a', ha', h⟩ := ih h
      exact ⟨a', List.mem_cons_of_mem _ ha', h⟩
    · cases h

theorem mapM_congr {ε α β : Type} {f f' : α → Except ε β} {as : List α}
    (h : ∀ a ∈ as, f a = f' a) : as.mapM f = as.mapM f' := by
  induction as with
  | nil => rfl
  | cons a as ih =>
    rw [List.mapM_cons, List.mapM_cons, h a List.mem_cons_self,
      ih fun b hb => h b (List.mem_cons_of_mem _ hb)]

namespace Grammar

variable {g : Grammar}

theorem tokenName_eq_ok_iff {id : TokenId} {name : String} :
    g.tokenName id = .ok name ↔ g.Calls id name := by
  unfold tokenName Calls
  cases g.tokens.name? id with
  | none => simp
  | some name' => simp

theorem tokenName_eq_error_iff {e : GrammarError} {token : TokenId} :
    g.tokenName token = .error e ↔ e = .unknownToken token ∧ ∀ name, ¬ g.Calls token name := by
  unfold tokenName Calls
  cases g.tokens.name? token with
  | none => simp [eq_comm]
  | some name => simp

theorem optionTokenName_eq_ok_iff {id : Option TokenId} {name : Option String} :
    id.mapM g.tokenName = .ok name ↔ Option.Rel g.Calls id name := by
  cases id with
  | none =>
    constructor
    · intro h
      rw [← Except.ok.inj h]
      exact .none
    · rintro ⟨⟩
      rfl
  | some id =>
    have happly : (some id).mapM g.tokenName = g.tokenName id >>= fun name => pure (some name) := rfl
    rw [happly, bind_eq_ok_iff]
    constructor
    · rintro ⟨name', hname, h⟩
      rw [← Except.ok.inj h]
      exact .some (tokenName_eq_ok_iff.1 hname)
    · intro h
      cases h with
      | some hname => exact ⟨_, tokenName_eq_ok_iff.2 hname, rfl⟩

/-! ## What unfolding answers -/

/-- Terminals of the grammar have no annotations besides those of their rules. -/
def PlainTerminals (g : Grammar) : Prop :=
  ∀ id node rule, g.graph.node? id = some node → node.kind = .terminal rule → node.annotations = {}

theorem merged_empty (a : Annotations) : a.merged {} = a := by
  rcases a with ⟨void, transient, pinned, unnamed, error⟩
  cases error <;> simp [Annotations.merged]

theorem depicts_of_unfoldFrom (hplain : g.PlainTerminals) (fuel : Nat) {path : List StateId}
    {id : StateId} {p : Pattern} (h : g.unfoldFrom fuel path id = .ok p) : g.Depicts id p := by
  induction fuel generalizing path id p with
  | zero => cases h
  | succ fuel ih =>
    rw [unfoldFrom] at h
    -- a state on the path to itself is refused
    by_cases hmet : path.contains id = true
    · rw [if_pos hmet] at h
      cases h
    rw [if_neg hmet] at h
    unfold unfoldNode at h
    obtain ⟨node, hnode, h⟩ := bind_eq_ok_iff.1 h
    rw [Graph.node_eq_ok_iff] at hnode
    have hall : ∀ {ps}, node.branches.mapM (g.unfoldFrom fuel (id :: path)) = .ok ps →
        g.DepictsAll node.branches ps := fun hps =>
      depictsAll_iff.2 ((mapM_eq_ok_iff.1 hps).imp fun _ _ => ih)
    rcases hkind : node.kind with ruleId | ⟨childId, min, max⟩ | _
    · rw [hkind] at h
      obtain ⟨rule, hrule, h⟩ := bind_eq_ok_iff.1 h
      obtain ⟨token, htoken, h⟩ := bind_eq_ok_iff.1 h
      obtain ⟨ps, hps, h⟩ := bind_eq_ok_iff.1 h
      have hnone := hplain id node ruleId hnode hkind
      rw [← Except.ok.inj h, hnone, merged_empty]
      exact .terminal hnode hkind (RuleTable.get_eq_ok_iff.1 hrule) hnone rfl rfl
        (tokenName_eq_ok_iff.1 htoken) (hall hps)
    · rw [hkind] at h
      obtain ⟨child, hchild, h⟩ := bind_eq_ok_iff.1 h
      obtain ⟨token, htoken, h⟩ := bind_eq_ok_iff.1 h
      obtain ⟨ps, hps, h⟩ := bind_eq_ok_iff.1 h
      rw [← Except.ok.inj h]
      exact .repetition hnode hkind rfl (ih hchild) (optionTokenName_eq_ok_iff.1 htoken) (hall hps)
    · rw [hkind] at h
      obtain ⟨token, htoken, h⟩ := bind_eq_ok_iff.1 h
      obtain ⟨ps, hps, h⟩ := bind_eq_ok_iff.1 h
      rw [← Except.ok.inj h]
      exact .choice hnode hkind rfl (optionTokenName_eq_ok_iff.1 htoken) (hall hps)

/-! ## How high a pattern is -/

theorem DepictsAll.exists_highest {ids : List StateId} {ps : List Pattern}
    (h : g.DepictsAll ids ps) (hpos : 0 < Pattern.heightAll ps) :
    ∃ j q, g.Depicts j q ∧ q.height = Pattern.heightAll ps := by
  obtain ⟨q, hq, hheight⟩ := Pattern.exists_height_eq_heightAll hpos
  obtain ⟨j, -, hj⟩ := h.exists_state hq
  exact ⟨j, q, hj, hheight⟩

/-- Below a state that depicts a pattern with something in it stands one that is lower by one. -/
theorem Depicts.exists_below {id : StateId} {p : Pattern} (h : g.Depicts id p)
    (hhigh : 1 < p.height) : ∃ j q, g.Depicts j q ∧ q.height + 1 = p.height := by
  cases h with
  | terminal _ _ _ _ _ _ _ hbranches =>
    rw [Pattern.height] at hhigh ⊢
    obtain ⟨j, q, hj, hq⟩ := hbranches.exists_highest (Nat.lt_of_succ_lt_succ hhigh)
    exact ⟨j, q, hj, by rw [hq]⟩
  | @repetition _ _ childId _ child _ _ _ branches _ _ _ hchild _ hbranches =>
    rw [Pattern.height] at hhigh ⊢
    by_cases hle : Pattern.heightAll branches ≤ child.height
    · exact ⟨childId, child, hchild, by omega⟩
    · obtain ⟨j, q, hj, hq⟩ := hbranches.exists_highest (by omega)
      exact ⟨j, q, hj, by omega⟩
  | choice _ _ _ _ hbranches =>
    rw [Pattern.height] at hhigh ⊢
    obtain ⟨j, q, hj, hq⟩ := hbranches.exists_highest (Nat.lt_of_succ_lt_succ hhigh)
    exact ⟨j, q, hj, by rw [hq]⟩

/-- All lower heights are the heights of states. -/
theorem Depicts.exists_of_le {id : StateId} {p : Pattern} (h : g.Depicts id p) {k : Nat}
    (hpos : 0 < k) (hk : k ≤ p.height) : ∃ j q, g.Depicts j q ∧ q.height = k := by
  obtain ⟨more, hmore⟩ := Nat.exists_eq_add_of_le hk
  induction more generalizing id p with
  | zero => exact ⟨id, p, h, hmore⟩
  | succ more ih =>
    obtain ⟨j, q, hj, hq⟩ := h.exists_below (by omega)
    exact ih hj (by omega) (by omega)

theorem Depicts.lt_size {id : StateId} {p : Pattern} (h : g.Depicts id p) :
    id.index < g.graph.size := by
  have hnode : ∃ node, g.graph.node? id = some node := by
    cases h with
    | terminal hnode => exact ⟨_, hnode⟩
    | repetition hnode => exact ⟨_, hnode⟩
    | choice hnode => exact ⟨_, hnode⟩
  obtain ⟨node, hnode⟩ := hnode
  exact (Array.getElem?_eq_some_iff.1 hnode).1

/-- **A pattern is no higher than there are states**, since states of different heights are
different. -/
theorem Depicts.height_le {id : StateId} {p : Pattern} (h : g.Depicts id p) :
    p.height ≤ g.graph.size := by
  have hstate : ∀ k : Fin p.height, ∃ j : Fin g.graph.size, ∃ q,
      g.Depicts ⟨j⟩ q ∧ q.height = k + 1 := by
    intro k
    obtain ⟨j, q, hj, hq⟩ := h.exists_of_le (Nat.succ_pos k) k.isLt
    exact ⟨⟨j.index, hj.lt_size⟩, q, hj, hq⟩
  choose state hstate using hstate
  -- a state depicts one pattern, so it has one height
  have hinjective : Function.Injective state := by
    intro k l hkl
    obtain ⟨q, hq, hk⟩ := hstate k
    obtain ⟨q', hq', hl⟩ := hstate l
    rw [hkl] at hq
    rw [hq.unique hq'] at hk
    exact Fin.ext (by omega)
  have hcard := Fintype.card_le_of_injective state hinjective
  rwa [Fintype.card_fin, Fintype.card_fin] at hcard

/-! ## That unfolding comes to an end -/

/-- States that are unfolded one by one are unfolded together. -/
theorem mapM_unfoldFrom_of_depictsAll {fuel n : Nat} {path : List StateId}
    (hlower : ∀ {j q}, g.Depicts j q → q.height < n → g.unfoldFrom fuel path j = .ok q)
    {ids : List StateId} {ps : List Pattern} (hids : g.DepictsAll ids ps)
    (hlt : Pattern.heightAll ps < n) : ids.mapM (g.unfoldFrom fuel path) = .ok ps := by
  rw [mapM_eq_ok_iff]
  induction ids generalizing ps with
  | nil =>
    cases hids
    exact .nil
  | cons j ids ih =>
    cases hids with
    | cons head tail =>
      rw [Pattern.heightAll] at hlt
      exact .cons (hlower head (by omega)) (ih tail (by omega))

/-- Along the path from the start stand ever lower patterns, so it never closes and `fuel`
lasts. -/
theorem unfoldFrom_of_depicts (fuel : Nat) {path : List StateId} {id : StateId} {p : Pattern}
    (h : g.Depicts id p) (hpath : ∀ i ∈ path, ∃ q, g.Depicts i q ∧ p.height < q.height)
    (hfuel : p.height ≤ fuel) : g.unfoldFrom fuel path id = .ok p := by
  induction fuel generalizing path id p with
  | zero => exact absurd p.height_pos (by omega)
  | succ fuel ih =>
    have hnew : ¬ path.contains id = true := by
      intro hmem
      obtain ⟨q, hq, hlt⟩ := hpath id (List.contains_iff_mem.1 hmem)
      rw [h.unique hq] at hlt
      exact Nat.lt_irrefl _ hlt
    -- what stands lower than `p` is found, and lies below the whole path and below `id`
    have hlower : ∀ {j q}, g.Depicts j q → q.height < p.height →
        g.unfoldFrom fuel (id :: path) j = .ok q := by
      intro j q hj hlt
      refine ih hj (fun i hi => ?_) (by omega)
      rcases List.mem_cons.1 hi with rfl | hi
      · exact ⟨p, h, hlt⟩
      · obtain ⟨r, hr, hlt'⟩ := hpath i hi
        exact ⟨r, hr, Nat.lt_trans hlt hlt'⟩
    have hall : ∀ {ids ps}, g.DepictsAll ids ps → Pattern.heightAll ps < p.height →
        ids.mapM (g.unfoldFrom fuel (id :: path)) = .ok ps :=
      fun hids hlt => mapM_unfoldFrom_of_depictsAll hlower hids hlt
    rw [unfoldFrom, if_neg hnew]
    unfold unfoldNode
    cases h with
    | terminal hnode hkind hrule hplain ha hc htoken hbranches =>
      rw [Pattern.height] at hall
      refine bind_eq_ok_iff.2 ⟨_, Graph.node_eq_ok_iff.2 hnode, ?_⟩
      rw [hkind, hplain]
      refine bind_eq_ok_iff.2 ⟨_, RuleTable.get_eq_ok_iff.2 hrule, ?_⟩
      refine bind_eq_ok_iff.2 ⟨_, tokenName_eq_ok_iff.2 htoken, ?_⟩
      refine bind_eq_ok_iff.2 ⟨_, hall hbranches (Nat.lt_succ_self _), ?_⟩
      rw [merged_empty, ha, hc]
      rfl
    | repetition hnode hkind ha hchild htoken hbranches =>
      rw [Pattern.height] at hall hlower
      refine bind_eq_ok_iff.2 ⟨_, Graph.node_eq_ok_iff.2 hnode, ?_⟩
      rw [hkind, ha]
      refine bind_eq_ok_iff.2 ⟨_, hlower hchild (by omega), ?_⟩
      refine bind_eq_ok_iff.2 ⟨_, optionTokenName_eq_ok_iff.2 htoken, ?_⟩
      exact bind_eq_ok_iff.2 ⟨_, hall hbranches (by omega), rfl⟩
    | choice hnode hkind ha htoken hbranches =>
      rw [Pattern.height] at hall
      refine bind_eq_ok_iff.2 ⟨_, Graph.node_eq_ok_iff.2 hnode, ?_⟩
      rw [hkind, ha]
      refine bind_eq_ok_iff.2 ⟨_, optionTokenName_eq_ok_iff.2 htoken, ?_⟩
      exact bind_eq_ok_iff.2 ⟨_, hall hbranches (Nat.lt_succ_self _), rfl⟩

/-- **Unfolding finds the pattern of a state** if there is one. -/
theorem unfold_eq_ok_iff (hplain : g.PlainTerminals) {id : StateId} {p : Pattern} :
    g.unfold id = .ok p ↔ g.Depicts id p := by
  constructor
  · exact depicts_of_unfoldFrom hplain _
  · intro h
    exact unfoldFrom_of_depicts _ h (by simp) (Nat.le_succ_of_le h.height_le)

end Grammar

end Lexigraph
