/-
# Lexigraph.Text.Bytes -- text addressed by byte offsets

A text is a list of characters, and every offset into it counts UTF-8 bytes. An offset
is a boundary when a character starts there or the text ends there; `after?` and
`before?` cut a text at a boundary and refuse to cut a character in two. The main facts
say that a cut loses nothing and that only boundaries can be cut at
(`after?_eq_some_iff`, `before?_eq_some_iff`).
-/

namespace Lexigraph.Text

/-! ## Size -/

/-- Number of bytes that a text takes in UTF-8. -/
def size : List Char → Nat
  | [] => 0
  | c :: cs => c.utf8Size + size cs

@[simp] theorem size_nil : size [] = 0 := rfl

@[simp] theorem size_cons (c : Char) (cs : List Char) :
    size (c :: cs) = c.utf8Size + size cs := rfl

@[simp] theorem size_append (a b : List Char) : size (a ++ b) = size a + size b := by
  induction a with
  | nil => simp
  | cons c cs ih => simp [ih, Nat.add_assoc]

theorem size_eq_zero {cs : List Char} : size cs = 0 ↔ cs = [] := by
  cases cs with
  | nil => simp
  | cons c cs =>
    have := c.utf8Size_pos
    simp only [size_cons, reduceCtorEq, iff_false]
    omega

/-! ## Cutting at a boundary -/

/-- What is left of a text `n` bytes in, if `n` is a boundary. -/
def after? : List Char → Nat → Option (List Char)
  | cs, 0 => some cs
  | [], _ + 1 => none
  | c :: cs, n + 1 => if c.utf8Size ≤ n + 1 then after? cs (n + 1 - c.utf8Size) else none

/-- The first `n` bytes of a text, if `n` is a boundary. -/
def before? : List Char → Nat → Option (List Char)
  | _, 0 => some []
  | [], _ + 1 => none
  | c :: cs, n + 1 =>
    if c.utf8Size ≤ n + 1 then (before? cs (n + 1 - c.utf8Size)).map (c :: ·) else none

@[simp] theorem after?_zero (cs : List Char) : after? cs 0 = some cs := by
  cases cs <;> rfl

@[simp] theorem before?_zero (cs : List Char) : before? cs 0 = some [] := by
  cases cs <;> rfl

theorem after?_cons (c : Char) (cs : List Char) (n : Nat) :
    after? (c :: cs) (c.utf8Size + n) = after? cs n := by
  have h := c.utf8Size_pos
  obtain ⟨m, hm⟩ : ∃ m, c.utf8Size + n = m + 1 := ⟨c.utf8Size + n - 1, by omega⟩
  rw [hm, after?, if_pos (by omega)]
  congr 1
  omega

theorem before?_cons (c : Char) (cs : List Char) (n : Nat) :
    before? (c :: cs) (c.utf8Size + n) = (before? cs n).map (c :: ·) := by
  have h := c.utf8Size_pos
  obtain ⟨m, hm⟩ : ∃ m, c.utf8Size + n = m + 1 := ⟨c.utf8Size + n - 1, by omega⟩
  rw [hm, before?, if_pos (by omega)]
  congr 2
  omega

@[simp] theorem after?_size_append (a b : List Char) : after? (a ++ b) (size a) = some b := by
  induction a with
  | nil => simp
  | cons c cs ih => simpa [after?_cons] using ih

@[simp] theorem before?_size_append (a b : List Char) : before? (a ++ b) (size a) = some a := by
  induction a with
  | nil => simp
  | cons c cs ih => simp [before?_cons, ih]

/-- Exactly the rests of a text can be cut off, each at the size of what comes before it. -/
theorem after?_eq_some_iff {cs r : List Char} {n : Nat} :
    after? cs n = some r ↔ ∃ a, cs = a ++ r ∧ size a = n := by
  constructor
  · intro h
    induction cs generalizing n with
    | nil =>
      cases n with
      | zero => exact ⟨[], by simpa using h⟩
      | succ n => simp [after?] at h
    | cons c cs ih =>
      cases n with
      | zero => exact ⟨[], by simpa using h⟩
      | succ n =>
        rw [after?] at h
        split at h
        · obtain ⟨a, rfl, ha⟩ := ih h
          exact ⟨c :: a, rfl, by simp only [size_cons]; omega⟩
        · simp at h
  · rintro ⟨a, rfl, rfl⟩
    exact after?_size_append a r

/-- Exactly the beginnings of a text can be cut off, each at its own size. -/
theorem before?_eq_some_iff {cs a : List Char} {n : Nat} :
    before? cs n = some a ↔ (∃ r, cs = a ++ r) ∧ size a = n := by
  constructor
  · intro h
    induction cs generalizing n a with
    | nil =>
      cases n with
      | zero => simp_all [before?]
      | succ n => simp [before?] at h
    | cons c cs ih =>
      cases n with
      | zero => simp_all [before?]
      | succ n =>
        rw [before?] at h
        split at h
        · obtain ⟨b, hb, rfl⟩ := Option.map_eq_some_iff.1 h
          obtain ⟨⟨r, rfl⟩, hs⟩ := ih hb
          exact ⟨⟨r, rfl⟩, by simp only [size_cons]; omega⟩
        · simp at h
  · rintro ⟨⟨r, rfl⟩, rfl⟩
    exact before?_size_append a r

/-- The text between two offsets, if they are in order and both are boundaries. -/
def slice? (cs : List Char) (start stop : Nat) : Option (List Char) :=
  if start ≤ stop then (after? cs start).bind (before? · (stop - start)) else none

@[simp] theorem slice?_append (a b c : List Char) :
    slice? (a ++ b ++ c) (size a) (size a + size b) = some b := by
  simp [slice?, List.append_assoc]

end Lexigraph.Text
