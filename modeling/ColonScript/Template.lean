import ColonScript.Console
import ColonScript.Decimal.Layout

/-!
# Format strings

A format string is read from left to right as a template.  A percent sign and the character
after it form a group; `%s`, `%d` and `%f` stand for the next value, as a text, as an integer
and as a number with six places, and `%%` stands for a percent sign.  Any other group, and a
percent sign at the very end, stand for themselves.  Values that no directive asks for are
ignored.
-/

namespace ColonScript

/-- How a directive writes a value. -/
inductive Directive where
  | text | integer | number
deriving DecidableEq, Repr

/-- The directive that the character after a percent sign stands for. -/
def Directive.ofChar? : Char → Option Directive
  | 's' => some text
  | 'd' => some integer
  | 'f' => some number
  | _ => none

/-- A value as a directive writes it. -/
def Directive.show : Directive → Value → String
  | text, v => v.display
  | integer, v => toString v.toInt.toInt
  | number, v => Decimal.fixed 6 v.toNumber

/-- A part of a format string. -/
inductive Segment where
  /-- Characters that are written as they are. -/
  | literal (text : String)
  /-- A place for the next value. -/
  | value (d : Directive)
deriving DecidableEq, Repr

/-- The parts of a format string. -/
abbrev Template := List Segment

namespace Template

/-- The part that a percent sign and the character after it stand for. -/
def group (c : Char) : Segment :=
  match Directive.ofChar? c with
  | some d => .value d
  | none => .literal (if c = '%' then "%" else String.ofList ['%', c])

/-- The parts of a format string. -/
def parse : List Char → Template
  | [] => []
  | ['%'] => [.literal "%"]
  | '%' :: c :: rest => group c :: parse rest
  | c :: rest => .literal (String.singleton c) :: parse rest

/-- Prints a template with the given values; `taken` values have been used before. -/
def printFrom (taken : Nat) (c : Console) : Template → List Value → Except Failed Console
  | [], _ => .ok c
  | .literal text :: rest, values =>
    match c.write text with
    | .error e => .error e
    | .ok c => printFrom taken c rest values
  | .value _ :: _, [] => .error (.missingValue (taken + 1), c)
  | .value d :: rest, v :: values =>
    match c.write (d.show v) with
    | .error e => .error e
    | .ok c => printFrom (taken + 1) c rest values

/-- Prints a format string with the given values. -/
def print (c : Console) (format : String) (values : List Value) : Except Failed Console :=
  printFrom 0 c (parse format.toList) values

end Template

end ColonScript
