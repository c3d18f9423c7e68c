/-
# Lexigraph.Proofs.Session.Packrat -- each rule is compared once at each position

A session with a table of results that knows nothing yet compares a rule with the source at a
position at most once, whatever operations are asked of it and whichever of them fail. Later
evaluations there take the result over. So the misses of the table are its entries, hits and
misses together are the evaluations, and the literals compared are no more than all literals of
all rules for each byte of the source (`packrat`).

The induction is on the list of evaluations. What carries it is a `Ledger`: each evaluation of the
list is an entry of the table, and the comparisons so far are paid for by the entries, each with
as much as its rule has literals.
-/

import Mathlib.Algebra.BigOperators.Fin
import Mathlib.Algebra.BigOperators.Ring.Finset
import Mathlib.Algebra.Order.BigOperators.Group.Finset
import Lexigraph.Proofs.Session.Evaluations
import Lexigraph.Proofs.Session.Reached

namespace Lexigraph

/-! ## Hits and misses -/

/-- The table after a known result was asked for. -/
def ResultTable.hit (t : ResultTable) : ResultTable := { t with hits := t.hits + 1 }

/-- The table after a result was asked for, was not known, and was found out. -/
def ResultTable.learn (t : ResultTable) (rule : RuleId) (position : Nat) (result : MatchResult) :
    ResultTable :=
  { t with entries := t.entries.insert (rule.index, position) result, misses := t.misses + 1 }

namespace ResultTable

variable {t : ResultTable} {rule : RuleId} {position : Nat}

theorem get?_learn (t : ResultTable) (rule : RuleId) (position : Nat) (result : MatchResult)
    (rule' : RuleId) (position' : Nat) :
    (t.learn rule position result).get? rule' position' =
      if rule = rule' ∧ position = position' then some result else t.get? rule' position' :=
  get?_insert t rule position result _ _ rule' position'

theorem size_learn {result : MatchResult} (h : t.get? rule position = none) :
    (t.learn rule position result).size = t.size + 1 := by
  have hnew : ¬ t.entries.contains (rule.index, position) = true := by
    rw [Std.TreeMap.contains_eq_isSome_getElem?]
    unfold get? at h
    rw [h]
    nofun
  unfold size learn
  rw [Std.TreeMap.size_insert, if_neg hnew]

end ResultTable

namespace Rule

variable {r : Rule} {id : RuleId} {scanner : Scanner} {table : ResultTable}

/-- To take a known result over is a hit. -/
theorem evaluate_hit {known : MatchResult} (hleft : scanner.atEnd = false)
    (hknown : table.get? id scanner.position = some known) :
    (r.evaluate id scanner (.on table)).2 = .on table.hit := by
  unfold evaluate
  rw [if_neg (Bool.eq_false_iff.1 hleft)]
  simp only [Memo.ask, ResultTable.ask, hknown]
  split <;> rfl

/-- To find a result out is a miss, and the result is one more entry. -/
theorem evaluate_miss (hleft : scanner.atEnd = false)
    (hunknown : table.get? id scanner.position = none) :
    (r.evaluate id scanner (.on table)).2 =
      .on (table.learn id scanner.position (r.outcome scanner.remaining scanner.position)) := by
  obtain ⟨scanner', hattempt, -⟩ := r.attempt_eq_outcome scanner
  generalize houtcome : r.outcome scanner.remaining scanner.position = result at hattempt ⊢
  have hposition : result.position = scanner.position := houtcome ▸ r.outcome_position _ _
  have hrecord : ResultTable.record { table with misses := table.misses + 1 } id result =
      (.ok (), table.learn id scanner.position result) := by
    unfold ResultTable.record
    have hunknown' : ResultTable.get? { table with misses := table.misses + 1 } id
        result.position = none := hposition ▸ hunknown
    rw [hunknown', hposition]
    rfl
  unfold evaluate
  rw [if_neg (Bool.eq_false_iff.1 hleft)]
  simp only [Memo.ask, ResultTable.ask, hunknown, hattempt, Memo.record, hrecord]

end Rule

/-! ## What entries pay for -/

namespace RuleTable

/-- How many literals each rule has. -/
def literals (t : RuleTable) (i : Fin t.rules.toList.length) : Nat :=
  (t.rules.toList.get i).choices.toList.length

/-- All literals of all rules, counted. -/
def literalCount (t : RuleTable) : Nat :=
  (t.rules.toList.map fun rule => rule.choices.toList.length).sum

/-- What the entries of a table of results pay for, over a source of so many bytes: each as many
comparisons as its rule has literals. -/
def paid (t : RuleTable) (size : Nat) (table : ResultTable) : Nat :=
  ∑ key : Fin t.rules.toList.length × Fin size,
    if (table.get? ⟨key.1⟩ key.2).isSome then t.literals key.1 else 0

/-- There is one entry for each rule and each position at most. -/
theorem paid_le (t : RuleTable) (size : Nat) (table : ResultTable) :
    t.paid size table ≤ t.literalCount * size := by
  have hsum : ∑ i, t.literals i = t.literalCount :=
    Fin.sum_univ_fun_getElem t.rules.toList fun rule => rule.choices.toList.length
  calc t.paid size table
      ≤ ∑ key : Fin t.rules.toList.length × Fin size, t.literals key.1 := by
        refine Finset.sum_le_sum fun key _ => ?_
        split
        · exact Nat.le_refl _
        · exact Nat.zero_le _
    _ = ∑ i, size * t.literals i := by
        rw [Fintype.sum_prod_type]
        simp only [Finset.sum_const, Finset.card_univ, Fintype.card_fin, smul_eq_mul]
    _ = t.literalCount * size := by rw [← Finset.mul_sum, hsum, Nat.mul_comm]

/-- A new entry pays for the literals of its rule. -/
theorem paid_learn {t : RuleTable} {size position : Nat} {table : ResultTable} {id : RuleId}
    {rule : Rule} (hrule : t.get? id = some rule) (hposition : position < size)
    (hunknown : table.get? id position = none) (result : MatchResult) :
    t.paid size (table.learn id position result) =
      rule.choices.toList.length + t.paid size table := by
  have hrule' : t.rules.toList[id.index]? = some rule := by rwa [Array.getElem?_toList]
  obtain ⟨hindex, hget⟩ := List.getElem?_eq_some_iff.1 hrule'
  let key : Fin t.rules.toList.length × Fin size := (⟨id.index, hindex⟩, ⟨position, hposition⟩)
  have hnew : ((table.learn id position result).get? ⟨key.1⟩ key.2).isSome := by
    rw [ResultTable.get?_learn, if_pos ⟨rfl, rfl⟩]
    rfl
  have hold : ¬ (table.get? ⟨key.1⟩ key.2).isSome := by
    rw [show table.get? ⟨key.1⟩ key.2 = none from hunknown]
    nofun
  have hother : ∀ other ∈ Finset.univ.erase key,
      (table.learn id position result).get? ⟨other.1⟩ other.2 = table.get? ⟨other.1⟩ other.2 := by
    intro other hmem
    rw [ResultTable.get?_learn, if_neg]
    rintro ⟨hid, heq⟩
    exact Finset.ne_of_mem_erase hmem
      (Prod.ext (Fin.ext (congrArg RuleId.index hid).symm) (Fin.ext heq.symm))
  have hrest : (∑ other ∈ Finset.univ.erase key,
      if ((table.learn id position result).get? ⟨other.1⟩ other.2).isSome then
        t.literals other.1 else 0) =
      ∑ other ∈ Finset.univ.erase key,
        if (table.get? ⟨other.1⟩ other.2).isSome then t.literals other.1 else 0 :=
    Finset.sum_congr rfl fun other hmem => by rw [hother other hmem]
  have hliterals : t.literals key.1 = rule.choices.toList.length :=
    congrArg (fun rule : Rule => rule.choices.toList.length) hget
  unfold paid
  rw [← Finset.add_sum_erase _ _ (Finset.mem_univ key), if_pos hnew, hrest, hliterals,
    ← Finset.add_sum_erase _ _ (Finset.mem_univ key), if_neg hold, Nat.zero_add]

theorem paid_hit (t : RuleTable) (size : Nat) (table : ResultTable) :
    t.paid size table.hit = t.paid size table := rfl

end RuleTable

namespace Session

variable {g : Grammar} {source : Source} {s t u : Session} {log : List Evaluation}
  {table : ResultTable} {id : RuleId} {rule : Rule} {result : MatchResult}

/-! ## The ledger -/

/-- A later evaluation of the same rule at the same position has the same result, leaves the
scanner at the same place, and compares nothing. -/
def Evaluation.Settles (e later : Evaluation) : Prop :=
  later.rule = e.rule → later.position = e.position →
    later.result = e.result ∧ later.stop = e.stop ∧ later.comparisons = 0

/-- The books of a session on a source after some evaluations. -/
structure Ledger (g : Grammar) (source : Source) (log : List Evaluation) (t : Session)
    (table : ResultTable) : Prop where
  source_eq : t.scanner.source = source
  memo_eq : t.memo = .on table
  coherent : (Memo.on table).Coherent g.rules source
  /-- What was evaluated is known. -/
  known : ∀ e ∈ log, table.get? e.rule e.position = some e.result ∧ e.stop = e.result.stop
  once : log.Pairwise Evaluation.Settles
  misses : table.misses = table.size
  asked : table.hits + table.misses = log.length
  compared : t.scanner.comparisons = (log.map Evaluation.comparisons).sum
  paid : t.scanner.comparisons ≤ g.rules.paid source.size table

theorem Ledger.start (g : Grammar) (source : String) (settings : Settings) :
    Ledger g (.ofString source) [] (.start source settings) {} where
  source_eq := rfl
  memo_eq := rfl
  coherent := Memo.coherent_empty
  known := nofun
  once := .nil
  misses := rfl
  asked := rfl
  compared := rfl
  paid := Nat.zero_le _

theorem Ledger.idle (h : Ledger g source log t table) (hidle : Idle t u) :
    Ledger g source log u table where
  source_eq := hidle.source.trans h.source_eq
  memo_eq := hidle.memo.trans h.memo_eq
  coherent := h.coherent
  known := h.known
  once := h.once
  misses := h.misses
  asked := h.asked
  compared := hidle.comparisons.trans h.compared
  paid := hidle.comparisons ▸ h.paid

theorem Ledger.memo_coherent (h : Ledger g source log t table) :
    t.memo.Coherent g.rules t.scanner.source := by
  rw [h.memo_eq, h.source_eq]
  exact h.coherent

/-- What an evaluation before the end of the source does, whatever is remembered. -/
theorem leaves_of_evaluate (hs : t.memo.Coherent g.rules t.scanner.source)
    (hrule : g.rules.get? id = some rule) (hleft : t.atEnd = false)
    (heval : evaluate rule id t = (.ok result, u)) :
    result = rule.outcome t.scanner.remaining t.scanner.position ∧
      rule.Leaves t.scanner u.scanner (toCompare rule id t) ∧
      u.memo = (rule.evaluate id t.scanner t.memo).2 := by
  obtain ⟨scanner, memo, heval', -, -, hleaves⟩ := evaluate_eq_outcome hleft hrule hs
  have hmemo : (evaluate rule id t).2.memo = (rule.evaluate id t.scanner t.memo).2 := by
    unfold evaluate
    split <;> next heq => rw [heq]
  rw [heval] at hmemo
  obtain ⟨hresult, rfl⟩ := Prod.mk.inj (heval.symm.trans heval')
  exact ⟨Except.ok.inj hresult, hleaves, hmemo⟩

/-- The table after one more result was asked for: it knows that result and what it knew, counted
the question, and pays for what was compared to answer it. -/
structure Asked (g : Grammar) (size : Nat) (table table' : ResultTable) (id : RuleId)
    (position : Nat) (result : MatchResult) (compared : Nat) : Prop where
  known : table'.get? id position = some result
  keeps : ∀ rule position known, table.get? rule position = some known →
    table'.get? rule position = some known
  free : ∀ known, table.get? id position = some known → known = result ∧ compared = 0
  misses : table.misses = table.size → table'.misses = table'.size
  asked : table'.hits + table'.misses = table.hits + table.misses + 1
  paid : compared + g.rules.paid size table ≤ g.rules.paid size table'

/-- To take over what is known. -/
theorem Asked.of_hit {size position : Nat} (hknown : table.get? id position = some result) :
    Asked g size table table.hit id position result 0 where
  known := hknown
  keeps := fun _ _ _ h => h
  free := fun _ h => ⟨Option.some.inj (h.symm.trans hknown), rfl⟩
  misses := fun h => h
  asked := Nat.add_right_comm ..
  paid := by rw [RuleTable.paid_hit, Nat.zero_add]

/-- To find out what is not known. -/
theorem Asked.of_miss {size position compared : Nat} (hrule : g.rules.get? id = some rule)
    (hposition : position < size) (hunknown : table.get? id position = none)
    (hcompared : compared ≤ rule.choices.toList.length) :
    Asked g size table (table.learn id position result) id position result compared where
  known := by rw [ResultTable.get?_learn, if_pos ⟨rfl, rfl⟩]
  keeps := by
    intro rule position' known h
    rw [ResultTable.get?_learn, if_neg, h]
    rintro ⟨rfl, rfl⟩
    rw [hunknown] at h
    cases h
  free := fun _ h => by
    rw [hunknown] at h
    cases h
  misses := fun h => by
    rw [ResultTable.size_learn hunknown, ← h]
    rfl
  asked := rfl
  paid := by
    rw [RuleTable.paid_learn hrule hposition hunknown]
    exact Nat.add_le_add_right hcompared _

/-- An evaluation asks the table for its result. -/
theorem Ledger.asked_of_evaluate (h : Ledger g source log t table)
    (hrule : g.rules.get? id = some rule) (hleft : t.atEnd = false)
    (heval : evaluate rule id t = (.ok result, u)) :
    ∃ table', u.memo = .on table' ∧
      Asked g source.size table table' id t.scanner.position result (toCompare rule id t) := by
  obtain ⟨rfl, -, hmemo⟩ := leaves_of_evaluate h.memo_coherent hrule hleft heval
  have hposition : t.scanner.position < source.size := by
    rw [← h.source_eq]
    exact Nat.lt_of_not_le (of_decide_eq_false hleft)
  rw [h.memo_eq] at hmemo
  cases hknown : table.get? id t.scanner.position with
  | some known =>
    have hfree : toCompare rule id t = 0 := by
      unfold toCompare
      rw [h.memo_eq, show Memo.get? (.on table) id t.scanner.position = some known from hknown]
      rfl
    -- what is known is the outcome of this very rule, with this very text left
    obtain ⟨rule', rest, hrule', hrest, rfl⟩ := h.coherent id t.scanner.position known hknown
    obtain rfl : rule = rule' := Option.some.inj (hrule.symm.trans hrule')
    rw [← h.source_eq, t.scanner.remaining_eq] at hrest
    obtain rfl : t.scanner.remaining = rest := Option.some.inj hrest
    rw [hfree]
    exact ⟨table.hit, hmemo.trans (Rule.evaluate_hit hleft hknown), .of_hit hknown⟩
  | none =>
    refine ⟨_, hmemo.trans (Rule.evaluate_miss hleft hknown), .of_miss hrule hposition hknown ?_⟩
    unfold toCompare
    split
    · exact Nat.zero_le _
    · exact Nat.min_le_right ..

/-- One more evaluation is one more line in the books. -/
theorem Ledger.evaluate (h : Ledger g source log t table) (hrule : g.rules.get? id = some rule)
    (hleft : t.atEnd = false) (heval : evaluate rule id t = (.ok result, u)) :
    ∃ table', Ledger g source (log ++ [.between id result t u]) (u.noting result) table' := by
  obtain ⟨table', hmemo, hasked⟩ := h.asked_of_evaluate hrule hleft heval
  obtain ⟨rfl, hleaves, -⟩ := leaves_of_evaluate h.memo_coherent hrule hleft heval
  have hcoherent := (Evaluations.none.evaluate hrule hleft heval).coherent h.memo_coherent
  rw [noting_memo, noting_scanner, hleaves.source, h.source_eq, hmemo] at hcoherent
  have hcompared : u.scanner.comparisons - t.scanner.comparisons = toCompare rule id t := by
    rw [hleaves.comparisons, Nat.add_sub_cancel_left]
  refine ⟨table', {
    source_eq := by rw [noting_scanner, hleaves.source, h.source_eq]
    memo_eq := by rw [noting_memo, hmemo]
    coherent := hcoherent
    known := ?_
    once := ?_
    misses := hasked.misses h.misses
    asked := ?_
    compared := ?_
    paid := ?_ }⟩
  · intro e he
    rcases List.mem_append.1 he with he | he
    · exact ⟨hasked.keeps _ _ _ (h.known e he).1, (h.known e he).2⟩
    · obtain rfl := List.mem_singleton.1 he
      exact ⟨hasked.known, hleaves.position⟩
  · refine List.pairwise_append.2 ⟨h.once, List.pairwise_singleton .., fun e he later hlater => ?_⟩
    obtain rfl := List.mem_singleton.1 hlater
    -- an evaluation at the same place made an entry, from which the result is taken over
    intro hid hposition
    obtain ⟨hknown, hstop⟩ := h.known e he
    have hknown' : table.get? id t.scanner.position = some e.result := by
      rw [← hid, ← hposition] at hknown
      exact hknown
    obtain ⟨hresult, hfree⟩ := hasked.free e.result hknown'
    refine ⟨hresult.symm, ?_, hcompared.trans hfree⟩
    rw [hstop, hresult]
    exact hleaves.position
  · rw [hasked.asked, h.asked, List.length_append]
    rfl
  · rw [noting_scanner, List.map_append, List.sum_append, ← h.compared, hleaves.comparisons,
      ← hcompared]
    rfl
  · rw [noting_scanner, hleaves.comparisons, Nat.add_comm]
    exact Nat.le_trans (Nat.add_le_add_left h.paid _) hasked.paid

/-- **The books are kept** along all evaluations. -/
theorem Evaluations.ledger (h : Evaluations g s log t) {table : ResultTable}
    (hs : Ledger g source [] s table) : ∃ table', Ledger g source log t table' := by
  induction h with
  | none => exact ⟨table, hs⟩
  | idle _ hidle ih =>
    obtain ⟨table', ht⟩ := ih
    exact ⟨table', ht.idle hidle⟩
  | evaluate _ hrule hleft heval ih =>
    obtain ⟨table', ht⟩ := ih
    exact ht.evaluate hrule hleft heval

/-! ## Any operations -/

/-- What remembering comes to, for a list of evaluations: a rule is compared at a position once, an
entry stands for a miss, and no more literals are compared than there are for each byte. -/
structure Packrat (g : Grammar) (log : List Evaluation) (t : Session) (table : ResultTable) :
    Prop where
  memo_eq : t.memo = .on table
  once : log.Pairwise Evaluation.Settles
  misses : table.misses = table.size
  asked : table.hits + table.misses = log.length
  compared : t.scanner.comparisons = (log.map Evaluation.comparisons).sum
  bounded : t.scanner.comparisons ≤ g.rules.literalCount * t.scanner.source.size

theorem Ledger.balance (h : Ledger g source log t table) : Packrat g log t table where
  memo_eq := h.memo_eq
  once := h.once
  misses := h.misses
  asked := h.asked
  compared := h.compared
  bounded := by
    rw [h.source_eq]
    exact Nat.le_trans h.paid (RuleTable.paid_le ..)

/-- **Each rule is compared once at each position.** Whatever operations are asked of a fresh session
that remembers, in whatever order, the session after each of them is reached by a list of
evaluations. Along any such list, the first evaluation of a rule at a position settles all
later ones, the misses are the entries, hits and misses are the evaluations, and no more literals
are compared than the rules have for each byte of the source. -/
theorem packrat (g : Grammar) (source : String) (settings : Settings) :
    (∀ ops, ∀ outcome ∈ performAll g ops (.start source settings),
      ∃ log, Evaluations g (.start source settings) log outcome.2) ∧
    ∀ log t, Evaluations g (.start source settings) log t → ∃ table, Packrat g log t table := by
  refine ⟨performAll_evaluations Memo.coherent_empty, fun log t h => ?_⟩
  obtain ⟨table, hledger⟩ := h.ledger (.start g source settings)
  exact ⟨table, hledger.balance⟩

/-- A session that looked for two letters where there is one, went back, and looked for one. -/
def letterAgain : Session :=
  (perform .letters (.scan ⟨0⟩) (perform .letters (.scan ⟨1⟩) (.start "a")).2).2

/-- The letter is evaluated twice and compared once. -/
theorem packrat_letterAgain :
    ∃ log table, Packrat .letters log letterAgain table ∧ log.length = 2 ∧
      letterAgain.scanner.comparisons = 1 := by
  obtain ⟨hreached, hbooks⟩ := packrat .letters "a" {}
  obtain ⟨log, hlog⟩ := hreached [.scan ⟨1⟩, .scan ⟨0⟩] (_, letterAgain)
    (List.mem_cons_of_mem _ List.mem_cons_self)
  obtain ⟨table, h⟩ := hbooks log _ hlog
  refine ⟨log, table, h, ?_, by decide +kernel⟩
  have htwo : letterAgain.memo.table?.map (fun table => table.hits + table.misses) = some 2 := by
    decide +kernel
  rw [h.memo_eq] at htwo
  rw [← h.asked]
  exact Option.some.inj htwo

end Session

end Lexigraph
