/-
# Lexigraph.Annotations -- descriptive marks on rules and states

An annotation set holds flags and at most one error message. The flags are the bits of a
byte, of which three have a name. The set is written in front of what it describes, the named
flags in a fixed order and the message last. Merging takes the flags of both sides; of two
messages the newer one wins.

The bits without a name are kept and merged like the others, but nothing is written of them.
A set with no other bits is not empty, yet its text is: all that stands in front of the
description is the blank that would end the set.
-/

import Lexigraph.Text.Quoted

namespace Lexigraph

/-- A mark without a value that has a name. -/
inductive Flag where
  /-- The match is consumed but is not meant to appear in output. -/
  | void
  /-- The match is folded into what contains it. -/
  | transient
  /-- Once entered, the match is not to be backtracked out of. -/
  | pinned
  deriving DecidableEq, Repr, Inhabited

namespace Flag

/-- All flags with a name, in the order in which they are written. -/
def all : List Flag := [.void, .transient, .pinned]

/-- The written name of a flag. -/
def name : Flag → String
  | .void => "void"
  | .transient => "transient"
  | .pinned => "pinned"

/-- The flag with a given name. -/
def named? (name : String) : Option Flag :=
  all.find? (·.name == name)

@[simp] theorem named?_name (f : Flag) : named? f.name = some f := by
  cases f <;> decide

/-- The weight of a flag in the number of a set. -/
def bit : Flag → Nat
  | .void => 1
  | .transient => 2
  | .pinned => 4

end Flag

/-- Some flags and perhaps an error message. -/
structure Annotations where
  void : Bool := false
  transient : Bool := false
  pinned : Bool := false
  /-- The bits of the byte above those of the named flags. -/
  unnamed : BitVec 5 := 0
  error : Option String := none
  deriving DecidableEq, Repr, Inhabited

namespace Annotations

/-- Is a flag in the set? -/
def has (a : Annotations) : Flag → Bool
  | .void => a.void
  | .transient => a.transient
  | .pinned => a.pinned

/-- The set with one more flag. -/
def withFlag (a : Annotations) : Flag → Annotations
  | .void => { a with void := true }
  | .transient => { a with transient := true }
  | .pinned => { a with pinned := true }

/-- The set with an error message, in place of any earlier one. -/
def withError (a : Annotations) (message : String) : Annotations :=
  { a with error := some message }

/-- The named flags of the set, in the order in which they are written. -/
def flags (a : Annotations) : List Flag := Flag.all.filter a.has

/-- The flags as a number, with or without a name: the sum of their bits. -/
def bits (a : Annotations) : Nat := a.flags.foldl (fun n f => n + f.bit) (8 * a.unnamed.toNat)

/-- Is nothing set, not even a flag without a name? -/
def isEmpty (a : Annotations) : Bool := a.flags.isEmpty && a.unnamed == 0 && a.error.isNone

/-- The flags of both sets, and the newer message if there is one. -/
def merged (older newer : Annotations) : Annotations where
  void := older.void || newer.void
  transient := older.transient || newer.transient
  pinned := older.pinned || newer.pinned
  unnamed := older.unnamed ||| newer.unnamed
  error := newer.error <|> older.error

/-! ## Written form -/

/-- The written members, in order. -/
def members (a : Annotations) : List (List Char) :=
  a.flags.map (fun f => '@' :: f.name.toList) ++
    a.error.toList.map fun message => "@error(".toList ++ Text.quoted message.toList ++ [')']

/-- The written set: its members, one blank between two. -/
def text (a : Annotations) : List Char := [' '].intercalate a.members

/-- What stands in front of an annotated description: the written set and a blank, or nothing if
the set is empty. -/
def lead (a : Annotations) : List Char := if a.isEmpty then [] else a.text ++ [' ']

instance : ToString Annotations where
  toString a := String.ofList a.text

end Annotations

end Lexigraph
