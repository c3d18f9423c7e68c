/-
# Lexigraph.Text.Quoted -- double-quoted strings

A quoted string stands between two quotes. The quote, the backslash and control
characters are escaped, everything else stands for itself; so a quoted string holds no
bare quote and no control character. `shown` is the same format with a short form for
the null character, for text that is displayed and never read back.
-/

namespace Lexigraph.Text

/-- Does `c` have the Unicode category Cc (the two blocks of control codes)? -/
def isControl (c : Char) : Bool :=
  c.val ≤ 0x1F || (0x7F ≤ c.val && c.val ≤ 0x9F)

/-- A character by its code point, in lower-case hexadecimal digits between braces. -/
def escapeCode (c : Char) : List Char :=
  ['\\', 'u', '{'] ++ Nat.toDigits 16 c.toNat ++ ['}']

/-- One character as it is written inside quotes. -/
def escape (c : Char) : List Char :=
  if c = '"' then ['\\', '"']
  else if c = '\\' then ['\\', '\\']
  else if c = '\n' then ['\\', 'n']
  else if c = '\r' then ['\\', 'r']
  else if c = '\t' then ['\\', 't']
  else if isControl c then escapeCode c
  else [c]

/-- A text as a quoted string. -/
def quoted (cs : List Char) : List Char :=
  '"' :: (cs.flatMap escape ++ ['"'])

/-- A text as a quoted string for display: the null character has a short escape too. -/
def shown (cs : List Char) : List Char :=
  '"' :: (cs.flatMap (fun c => if c = '\x00' then ['\\', '0'] else escape c) ++ ['"'])

/-- What needs no escape stands for itself. -/
theorem escape_eq_self {c : Char} (hq : c ≠ '"') (hb : c ≠ '\\') (hc : isControl c = false) :
    escape c = [c] := by
  have hn : c ≠ '\n' := by rintro rfl; exact absurd hc (by decide)
  have hr : c ≠ '\r' := by rintro rfl; exact absurd hc (by decide)
  have ht : c ≠ '\t' := by rintro rfl; exact absurd hc (by decide)
  simp [escape, hq, hb, hn, hr, ht, hc]

end Lexigraph.Text
