/-
# Lexigraph.Proofs.Token.Table -- names keep their numbers

The names of a table and its index agree: a number is found for a name exactly where the name
stands. Interning a name gives a number that has the name from then on, and no number that had a
name gets another one.
-/

import Mathlib.Data.List.Nodup
import Lexigraph.Token

namespace Lexigraph.TokenTable

/-- What the index finds is a place where the name stands. -/
theorem name?_of_get? {t : TokenTable} {name : String} {id : TokenId}
    (h : t.get? name = some id) : t.name? id = some name := by
  rw [get?_eq] at h
  obtain ⟨i, hi, rfl⟩ := Option.map_eq_some_iff.1 h
  obtain ⟨hlt, heq, -⟩ := List.idxOf?_eq_some_iff.1 hi
  rw [name?, ← Array.getElem?_toList, List.getElem?_eq_getElem hlt, heq]

/-- In a table, a name and its number determine one another. -/
theorem get?_eq_some_iff {t : TokenTable} {name : String} {id : TokenId} :
    t.get? name = some id ↔ t.name? id = some name := by
  constructor
  · exact name?_of_get?
  · intro h
    rw [name?, ← Array.getElem?_toList] at h
    obtain ⟨hlt, hname⟩ := List.getElem?_eq_some_iff.1 h
    have hidx : t.names.toList.idxOf? name = some id.index := by
      refine List.idxOf?_eq_some_iff.2 ⟨hlt, hname, fun j hj hsame => ?_⟩
      -- an earlier place with the same name would be the place itself
      have hplace : (⟨j, Nat.lt_trans hj hlt⟩ : Fin t.names.toList.length) = ⟨id.index, hlt⟩ :=
        List.nodup_iff_injective_get.1 t.distinct (hsame.trans hname.symm)
      exact Nat.ne_of_lt hj (congrArg Fin.val hplace)
    rw [get?_eq, hidx]
    rfl

/-- A known name keeps its number, a new one gets the next. -/
theorem intern_cases (t : TokenTable) (name : String) :
    (t.names[(t.intern name).1.index]? = some name ∧ (t.intern name).2 = t) ∨
      ((t.intern name).1 = ⟨t.size⟩ ∧ (t.intern name).2.names = t.names.push name) := by
  unfold intern
  split
  · next id h => exact .inl ⟨name?_of_get? h, rfl⟩
  · exact .inr ⟨rfl, rfl⟩

theorem name?_intern (t : TokenTable) (name : String) :
    (t.intern name).2.name? (t.intern name).1 = some name := by
  unfold name?
  rcases t.intern_cases name with ⟨h, heq⟩ | ⟨hid, hnames⟩
  · rw [heq, h]
  · rw [hid, hnames]
    exact Array.getElem?_push_size

/-- A number that has a name keeps it. -/
theorem name?_intern_of_name? {t : TokenTable} {id : TokenId} {known : String}
    (h : t.name? id = some known) (name : String) : (t.intern name).2.name? id = some known := by
  unfold name? at h ⊢
  rcases t.intern_cases name with ⟨-, heq⟩ | ⟨-, hnames⟩
  · rw [heq, h]
  · have hlt : id.index < t.names.size := (Array.getElem?_eq_some_iff.1 h).1
    rw [hnames, Array.getElem?_push, if_neg (Nat.ne_of_lt hlt), h]

end Lexigraph.TokenTable
