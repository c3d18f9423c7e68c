/-
# Lexigraph.Proofs.Token.Numbering -- tables number names in order

A table that started empty numbers the names that were interned, each once, in the order in which
they first came up. The list of names and the index are two views of that one numbering: each
undoes the other. Interning more names adds to the end of the numbering and leaves alone what was
there, and interning a known name adds nothing (`internAll_numbered`).
-/

import Lexigraph.Proofs.Token.Table

namespace Lexigraph.TokenTable

variable {t : TokenTable} {name : String} {id : TokenId}

/-- Interns names one after another; answers the number of each. -/
def internAll (t : TokenTable) : List String → List TokenId × TokenTable
  | [] => ([], t)
  | name :: names =>
    let (id, t) := t.intern name
    let (ids, t) := t.internAll names
    (id :: ids, t)

/-! ## Interning one name -/

theorem mem_names_iff : name ∈ t.names ↔ ∃ id, t.get? name = some id := by
  rw [Array.mem_iff_getElem?]
  constructor
  · rintro ⟨i, hi⟩
    exact ⟨⟨i⟩, get?_eq_some_iff.2 hi⟩
  · rintro ⟨id, hid⟩
    exact ⟨id.index, get?_eq_some_iff.1 hid⟩

/-- A known name changes nothing. -/
theorem intern_of_get? (h : t.get? name = some id) : t.intern name = (id, t) := by
  unfold intern
  split
  · next known hknown => rw [Option.some.inj (hknown.symm.trans h)]
  · next hnone =>
    rw [h] at hnone
    cases hnone

/-- A new name gets the next number and goes to the end of the names. -/
theorem intern_of_new (h : name ∉ t.names) :
    (t.intern name).1 = ⟨t.size⟩ ∧ (t.intern name).2.names = t.names.push name := by
  rcases t.intern_cases name with ⟨hknown, -⟩ | hnew
  · exact absurd (Array.mem_of_getElem? hknown) h
  · exact hnew

/-- The number that is answered is found from then on. -/
theorem get?_intern (t : TokenTable) (name : String) :
    (t.intern name).2.get? name = some (t.intern name).1 :=
  get?_eq_some_iff.2 (t.name?_intern name)

theorem get?_intern_of_get? {other : String} (h : t.get? other = some id) (name : String) :
    (t.intern name).2.get? other = some id :=
  get?_eq_some_iff.2 (name?_intern_of_name? (get?_eq_some_iff.1 h) name)

/-- Nothing is interned but the name. -/
theorem get?_intern_of_ne {other : String} (h : other ≠ name) :
    (t.intern name).2.get? other = t.get? other := by
  by_cases hname : name ∈ t.names
  · obtain ⟨id, hid⟩ := mem_names_iff.1 hname
    rw [intern_of_get? hid]
  · have hmem : other ∈ (t.intern name).2.names ↔ other ∈ t.names := by
      rw [(intern_of_new hname).2, Array.mem_push, or_iff_left h]
    cases hother : t.get? other with
    | some id => exact get?_intern_of_get? hother name
    | none =>
      rw [Option.eq_none_iff_forall_ne_some]
      intro id hid
      obtain ⟨known, hknown⟩ := mem_names_iff.1 (hmem.1 (mem_names_iff.2 ⟨id, hid⟩))
      rw [hother] at hknown
      cases hknown

/-! ## Interning some names -/

/-- The names that are new go to the end, each once. -/
theorem names_internAll (t : TokenTable) (names : List String) :
    (t.internAll names).2.names.toList =
      t.names.toList ++ (names.filter (· ∉ t.names)).eraseDups := by
  induction names generalizing t with
  | nil => simp [internAll]
  | cons name names ih =>
    show ((t.intern name).2.internAll names).2.names.toList = _
    rw [ih]
    by_cases hname : name ∈ t.names
    · obtain ⟨id, hid⟩ := mem_names_iff.1 hname
      rw [intern_of_get? hid, List.filter_cons_of_neg (by simpa using hname)]
    · -- what is new behind it is what was new, but for the name itself
      have hnew : ∀ other, decide (other ∉ t.names.push name) =
          (!(other == name) && decide (other ∉ t.names)) := by
        intro other
        rw [Bool.eq_iff_iff]
        simp [not_or, and_comm]
      rw [(intern_of_new hname).2, List.filter_cons_of_pos (by simpa using hname),
        List.eraseDups_cons, List.filter_filter]
      simp only [hnew, Array.toList_push, List.append_assoc, List.singleton_append]

/-- The names of a table that started empty are those that were interned, each where it first came
up. -/
theorem names_internAll_empty (names : List String) :
    (empty.internAll names).2.names.toList = names.eraseDups := by
  rw [names_internAll]
  simp [empty]

theorem get?_internAll_of_get? (h : t.get? name = some id) (names : List String) :
    (t.internAll names).2.get? name = some id := by
  induction names generalizing t with
  | nil => exact h
  | cons other names ih => exact ih (get?_intern_of_get? h other)

/-- Each number that was answered is the one that its name has in the end. -/
theorem answers_internAll (t : TokenTable) (names : List String) :
    (t.internAll names).1.map some = names.map (t.internAll names).2.get? := by
  induction names generalizing t with
  | nil => rfl
  | cons name names ih =>
    show some (t.intern name).1 :: ((t.intern name).2.internAll names).1.map some =
      ((t.intern name).2.internAll names).2.get? name :: _
    rw [ih, get?_internAll_of_get? (t.get?_intern name)]
    rfl

/-! ## The numbering -/

/-- A table that numbers some names in order, from zero on. -/
structure Numbers (t : TokenTable) (names : List String) : Prop where
  distinct : names.Nodup
  size : t.size = names.length
  /-- The numbers go to the names in order. -/
  inOrder : ∀ i, t.name? ⟨i⟩ = names[i]?
  /-- A number is found for these names and for no others. -/
  found : ∀ name, name ∈ names ↔ ∃ id, t.get? name = some id
  /-- Looking up names and looking up numbers undo one another. -/
  inverse : ∀ id name, t.name? id = some name ↔ t.get? name = some id
  listed : t.toList = names.zipIdx.map fun (name, i) => (⟨i⟩, name)

theorem numbers_names (t : TokenTable) : t.Numbers t.names.toList where
  distinct := t.distinct
  size := rfl
  inOrder _ := Array.getElem?_toList.symm
  found name := by rw [Array.mem_toList_iff, mem_names_iff]
  inverse _ _ := get?_eq_some_iff.symm
  listed := rfl

/-- **A table numbers names in the order in which they first came up.** When some names have been
interned in an empty table, it numbers those names, each once, by the first time that each came up.
The number that was answered for a name is the one that it has.

Whatever is interned after that, what a number that is in use stands for and what number a known
name has stay the same. A known name is answered with its number, and the table stays the same. -/
theorem internAll_numbered (names : List String) :
    ∃ ids t, empty.internAll names = (ids, t) ∧ t.Numbers names.eraseDups ∧
      ids.map some = names.map t.get? ∧
      (∀ name id, t.get? name = some id → t.intern name = (id, t)) ∧
      ∀ more, ∃ ids' t', t.internAll more = (ids', t') ∧
        (∀ id : TokenId, id.index < t.size → t'.name? id = t.name? id) ∧
        ∀ name id, t.get? name = some id → t'.get? name = some id := by
  refine ⟨_, _, rfl, ?_, answers_internAll empty names, fun _ _ => intern_of_get?, fun more => ?_⟩
  · rw [← names_internAll_empty]
    exact numbers_names _
  refine ⟨_, _, rfl, fun id hid => ?_, fun _ _ h => get?_internAll_of_get? h more⟩
  have hname : (empty.internAll names).2.name? id = some _ := Array.getElem?_eq_getElem hid
  rw [hname]
  exact get?_eq_some_iff.1 (get?_internAll_of_get? (get?_eq_some_iff.2 hname) more)

/-- A name that comes up again adds nothing, and the others keep their places. -/
example : (empty.internAll ["word", "num", "word", "sign"]).1 = [⟨0⟩, ⟨1⟩, ⟨0⟩, ⟨2⟩] := by decide

end Lexigraph.TokenTable
