/-!
# Positions in a text

A position is reached by walking over the characters before it.  It knows its line, counted
from one, and its offset in bytes of UTF-8.  A line ends with a line feed, with a return, or
with a return and a line feed together, which count once.
-/

namespace ColonScript.Text

/-- A place between two characters of a text. -/
structure Position where
  /-- The line, counted from one. -/
  line : Nat := 1
  /-- The number of bytes before this place. -/
  offset : Nat := 0
  /-- Whether the character just before this place is a return. -/
  afterReturn : Bool := false
deriving DecidableEq, Repr

namespace Position

/-- Whether a character starts a new line, given that a return stands before it or not. -/
def isBreak (afterReturn : Bool) (c : Char) : Bool :=
  c == '\r' || (c == '\n' && !afterReturn)

/-- The place after one more character. -/
def step (p : Position) (c : Char) : Position where
  line := if isBreak p.afterReturn c then p.line + 1 else p.line
  offset := p.offset + c.utf8Size
  afterReturn := c == '\r'

/-- The place after some more text. -/
def advance (p : Position) (text : List Char) : Position :=
  text.foldl step p

@[simp] theorem advance_nil (p : Position) : p.advance [] = p := rfl

@[simp] theorem advance_cons (p : Position) (c : Char) (text : List Char) :
    p.advance (c :: text) = (p.step c).advance text := rfl

theorem advance_append (p : Position) (first second : List Char) :
    p.advance (first ++ second) = (p.advance first).advance second := by
  simp [advance]

end Position

/-- The number of line ends in a text. -/
def lineBreaks (text : List Char) : Nat :=
  (Position.advance {} text).line - 1

end ColonScript.Text
