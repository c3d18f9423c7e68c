/-
# Lexigraph.Token -- token names and emitted tokens

A token names a lexical category. Categories are numbered: a `TokenTable` gives each
name the next free number when the name first comes up and the same number from then on.
It keeps the names in order, for looking up a number, and an index beside them, for looking
up a name. A `Token` is a category together with the span of source that it labels.
-/

import Std.Data.TreeMap
import Lexigraph.Span

namespace Lexigraph

/-- Number of a lexical category. -/
structure TokenId where
  index : Nat
  deriving DecidableEq, Repr, Inhabited

instance : ToString TokenId where
  toString id := s!"TokenId({id.index})"

/-- A category and the bytes it labels. -/
structure Token where
  id : TokenId
  span : Span
  deriving DecidableEq, Repr, Inhabited

/-! ## Numbering names -/

namespace TokenTable

/-- Enters names into an index from names to numbers, the first one under the number `next`. -/
def enter (index : Std.TreeMap String TokenId) (next : Nat) :
    List String → Std.TreeMap String TokenId
  | [] => index
  | name :: names => enter (index.insert name ⟨next⟩) (next + 1) names

theorem enter_append (index : Std.TreeMap String TokenId) (next : Nat) (names : List String)
    (name : String) :
    enter index next (names ++ [name]) =
      (enter index next names).insert name ⟨next + names.length⟩ := by
  induction names generalizing index next with
  | nil => rfl
  | cons first names ih =>
    rw [List.cons_append, enter, ih, enter, List.length_cons, Nat.add_right_comm, Nat.add_assoc]

/-- What was entered is found under the number of its place; other names are as they were. -/
theorem getElem?_enter {names : List String} (h : names.Nodup)
    (index : Std.TreeMap String TokenId) (next : Nat) (name : String) :
    (enter index next names)[name]? =
      ((names.idxOf? name).map fun i => ⟨next + i⟩).or index[name]? := by
  induction names generalizing index next with
  | nil => simp [enter]
  | cons first names ih =>
    rw [List.nodup_cons] at h
    rw [enter, ih h.2, Std.TreeMap.getElem?_insert, List.idxOf?_cons]
    by_cases heq : first = name
    · -- the name is not entered again later on
      have hlater : names.idxOf? name = none := List.idxOf?_eq_none_iff.2 (heq ▸ h.1)
      simp [hlater, heq]
    · simp [heq, Option.map_map, Function.comp_def, Nat.add_assoc, Nat.add_comm 1]

end TokenTable

/-- The names known so far, each at the place of its number, and an index that finds the number
of a name; no name is there twice. -/
structure TokenTable where
  names : Array String := #[]
  index : Std.TreeMap String TokenId := TokenTable.enter ∅ 0 names.toList
  distinct : names.toList.Nodup := by exact List.Pairwise.nil
  index_eq : index = TokenTable.enter ∅ 0 names.toList := by rfl

namespace TokenTable

/-- The table that knows no name. -/
def empty : TokenTable := {}

/-- How many names are known. -/
def size (t : TokenTable) : Nat := t.names.size

/-- The number of a known name. -/
def get? (t : TokenTable) (name : String) : Option TokenId := t.index[name]?

/-- The name behind a number. -/
def name? (t : TokenTable) (id : TokenId) : Option String :=
  t.names[id.index]?

/-- The index finds a name where it stands. -/
theorem get?_eq (t : TokenTable) (name : String) :
    t.get? name = (t.names.toList.idxOf? name).map TokenId.mk := by
  rw [get?, t.index_eq, getElem?_enter t.distinct]
  simp

/-- The number of a name, and the table that knows it. -/
def intern (t : TokenTable) (name : String) : TokenId × TokenTable :=
  match h : t.get? name with
  | some id => (id, t)
  | none => (⟨t.size⟩, {
      names := t.names.push name
      index := t.index.insert name ⟨t.size⟩
      distinct := by
        have hnew : name ∉ t.names.toList := by simpa [get?_eq] using h
        rw [Array.toList_push, List.nodup_append]
        refine ⟨t.distinct, by simp, fun known hknown last hlast heq => ?_⟩
        rw [heq, List.mem_singleton.1 hlast] at hknown
        exact hnew hknown
      index_eq := by
        rw [Array.toList_push, enter_append, ← t.index_eq, Nat.zero_add, Array.length_toList]
        rfl })

/-- The known names with their numbers, in the order of the numbers. -/
def toList (t : TokenTable) : List (TokenId × String) :=
  t.names.toList.zipIdx.map fun (name, i) => (⟨i⟩, name)

end TokenTable

end Lexigraph
