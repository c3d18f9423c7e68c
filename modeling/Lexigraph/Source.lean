/-
# Lexigraph.Source -- a text prepared for scanning

Scanning asks again and again what is left of the text at some offset. A `Source` keeps
the answers in a table: at every offset the rest of the text, or nothing inside a
character. `rest?_eq` says that the table answers as `Text.after?` does.
-/

import Lexigraph.Text.Bytes

namespace Lexigraph

namespace Source

/-- The rest of a text at each of its offsets, from the first to the last. -/
def restsOf : List Char → List (Option (List Char))
  | [] => [some []]
  | c :: cs => some (c :: cs) :: (List.replicate (c.utf8Size - 1) none ++ restsOf cs)

/-- `restsOf`, appended to a table. -/
def pushRests (table : Array (Option (List Char))) : List Char → Array (Option (List Char))
  | [] => table.push (some [])
  | c :: cs =>
    let inside : List (Option (List Char)) := List.replicate (c.utf8Size - 1) none
    pushRests (table.push (some (c :: cs)) ++ inside) cs

theorem toList_pushRests (table : Array (Option (List Char))) (cs : List Char) :
    (pushRests table cs).toList = table.toList ++ restsOf cs := by
  induction cs generalizing table with
  | nil => simp [pushRests, restsOf]
  | cons c cs ih => simp [pushRests, restsOf, ih]

theorem length_restsOf (cs : List Char) : (restsOf cs).length = Text.size cs + 1 := by
  induction cs with
  | nil => rfl
  | cons c cs ih =>
    have := c.utf8Size_pos
    simp only [restsOf, List.length_cons, List.length_append, List.length_replicate, ih,
      Text.size_cons]
    omega

theorem join_getElem?_restsOf (cs : List Char) (n : Nat) :
    (restsOf cs)[n]?.join = Text.after? cs n := by
  induction cs generalizing n with
  | nil => cases n <;> simp [restsOf, Text.after?]
  | cons c cs ih =>
    cases n with
    | zero => simp [restsOf]
    | succ n =>
      have := c.utf8Size_pos
      rw [restsOf, List.getElem?_cons_succ, Text.after?]
      by_cases h : c.utf8Size ≤ n + 1
      · rw [if_pos h, List.getElem?_append_right (by rw [List.length_replicate]; omega),
          List.length_replicate, ih]
        congr 1
        omega
      · rw [if_neg h, List.getElem?_append_left (by rw [List.length_replicate]; omega),
          List.getElem?_replicate]
        split <;> rfl

end Source

/-- A text, with the rest of it at each offset. -/
structure Source where
  chars : List Char
  rests : Array (Option (List Char)) := Source.pushRests #[] chars
  rests_eq : rests = Source.pushRests #[] chars := by rfl
  deriving DecidableEq

namespace Source

/-- A string, prepared for scanning. -/
def ofString (text : String) : Source := { chars := text.toList }

/-- The whole text. -/
def toString (s : Source) : String := String.ofList s.chars

/-- Number of bytes. -/
def size (s : Source) : Nat := s.rests.size - 1

/-- What is left at an offset, if it is a boundary. -/
def rest? (s : Source) (offset : Nat) : Option (List Char) := s.rests[offset]?.join

/-- A character starts at the offset, or the text ends there. -/
def IsBoundary (s : Source) (offset : Nat) : Prop := (s.rest? offset).isSome

instance (s : Source) (offset : Nat) : Decidable (s.IsBoundary offset) :=
  inferInstanceAs (Decidable ((s.rest? offset).isSome = true))

/-- What is left at a boundary. -/
def rest (s : Source) (offset : Nat) (h : s.IsBoundary offset) : List Char :=
  (s.rest? offset).get h

@[simp] theorem size_eq (s : Source) : s.size = Text.size s.chars := by
  rw [size, s.rests_eq, ← Array.length_toList, toList_pushRests]
  simp [length_restsOf]

@[simp] theorem rest?_eq (s : Source) (offset : Nat) :
    s.rest? offset = Text.after? s.chars offset := by
  rw [rest?, s.rests_eq, ← Array.getElem?_toList, toList_pushRests]
  simpa using join_getElem?_restsOf s.chars offset

theorem isBoundary_zero (s : Source) : s.IsBoundary 0 := by
  simp [IsBoundary]

/-- The text before a boundary and the text left there make up the whole. -/
theorem exists_eq_append_rest (s : Source) {offset : Nat} (h : s.IsBoundary offset) :
    ∃ a, s.chars = a ++ s.rest offset h ∧ Text.size a = offset :=
  Text.after?_eq_some_iff.1 <| by
    rw [← rest?_eq]
    exact (Option.some_get h).symm

theorem IsBoundary.le_size {s : Source} {offset : Nat} (h : s.IsBoundary offset) :
    offset ≤ s.size := by
  obtain ⟨a, ha, rfl⟩ := s.exists_eq_append_rest h
  rw [size_eq, ha, Text.size_append]
  omega

/-- Past a beginning of what is left there is a boundary again. -/
theorem IsBoundary.add_size {s : Source} {offset : Nat} (h : s.IsBoundary offset)
    {literal : List Char} (hp : literal <+: s.rest offset h) :
    s.IsBoundary (offset + Text.size literal) := by
  obtain ⟨a, ha, rfl⟩ := s.exists_eq_append_rest h
  obtain ⟨r, hr⟩ := hp
  have : s.chars = (a ++ literal) ++ r := by rw [ha, ← hr, List.append_assoc]
  rw [IsBoundary, rest?_eq, this, ← Text.size_append, Text.after?_size_append]
  rfl

end Source

end Lexigraph
