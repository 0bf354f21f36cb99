/-!
# Blank characters

Two classes of blanks occur in the language.  An unquoted argument ends at one of the six
blanks of ASCII (`isAsciiBlank`).  A text that is viewed as a number is first freed of the
blanks of Unicode at both of its ends (`trim`); that class is the property White_Space,
which is listed in `whiteSpace`.
-/

namespace ColonScript.Text

/-- One of the six blanks of ASCII: space, tab, line feed, return, vertical tab, form feed. -/
def isAsciiBlank (c : Char) : Bool :=
  c == ' ' || c == '\t' || c == '\n' || c == '\r' || c == '\x0b' || c == '\x0c'

/-- The ranges of code points, both ends included, with the Unicode property White_Space. -/
def whiteSpace : List (Nat × Nat) :=
  [(0x0009, 0x000d), (0x0020, 0x0020), (0x0085, 0x0085), (0x00a0, 0x00a0), (0x1680, 0x1680),
   (0x2000, 0x200a), (0x2028, 0x2029), (0x202f, 0x202f), (0x205f, 0x205f), (0x3000, 0x3000)]

/-- Whether a code point lies in one of the given ranges, both ends included. -/
def inRanges (ranges : List (Nat × Nat)) (c : Char) : Bool :=
  ranges.any fun r => r.1 ≤ c.toNat && c.toNat ≤ r.2

/-- A character with the Unicode property White_Space. -/
def isBlank (c : Char) : Bool :=
  inRanges whiteSpace c

/-- Removes the blanks at both ends. -/
def trim (cs : List Char) : List Char :=
  ((cs.dropWhile isBlank).reverse.dropWhile isBlank).reverse

end ColonScript.Text
