/-
# Lexigraph.Text.Blank -- the characters that may stand between lexemes

The Unicode property White_Space, as a table of ranges. The core library's notion of
whitespace is narrower: four of these characters.
-/

namespace Lexigraph.Text

/-- First and last code points of the ranges of the Unicode property White_Space. -/
def blankRanges : List (UInt32 × UInt32) :=
  [(0x0009, 0x000D), (0x0020, 0x0020), (0x0085, 0x0085), (0x00A0, 0x00A0), (0x1680, 0x1680),
   (0x2000, 0x200A), (0x2028, 0x2029), (0x202F, 0x202F), (0x205F, 0x205F), (0x3000, 0x3000)]

/-- Does `c` have the Unicode property White_Space? -/
def isBlank (c : Char) : Bool :=
  blankRanges.any fun (first, last) => first ≤ c.val && c.val ≤ last

end Lexigraph.Text
